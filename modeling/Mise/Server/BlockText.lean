import Mathlib.Data.List.TakeWhile
import Mise.Server.Crypto

set_option autoImplicit true

namespace Mise.Server

open Js

/-! How the patterns of signed blocks find their places in a text that is put together from lines. -/

section Cut

theorem cut_some {mark cs : List Char} (h : cut mark cs = some (x, y)) : cs = x ++ mark ++ y := by
  induction cs generalizing x with
  | nil =>
    rw [cut] at h
    split at h
    · next hm =>
      cases h
      rw [hm]
      rfl
    · cases h
  | cons c cs ih =>
    rw [cut] at h
    split at h
    · next hp =>
      obtain ⟨rest, hrest⟩ := List.isPrefixOf_iff_prefix.1 hp
      cases h
      rw [← hrest, List.drop_left, List.nil_append]
    · obtain ⟨z, hz, hxy⟩ := Option.map_eq_some_iff.1 h
      cases hxy
      rw [ih hz]
      rfl

theorem cut_none_iff {mark cs : List Char} (hne : mark ≠ []) :
    cut mark cs = none ↔ ¬ mark <:+: cs := by
  induction cs with
  | nil =>
    rw [cut, if_neg hne]
    simp [hne]
  | cons c cs ih =>
    rw [cut, List.infix_cons_iff]
    split
    · next hp => simp [List.isPrefixOf_iff_prefix.1 hp]
    · next hp =>
      rw [List.isPrefixOf_iff_prefix] at hp
      rw [Option.map_eq_none_iff, ih]
      simp [hp]

theorem cut_before {mark cs : List Char} (hne : mark ≠ []) (h : cut mark cs = some (x, y)) :
    cut mark x = none := by
  induction cs generalizing x with
  | nil =>
    rw [cut, if_neg hne] at h
    cases h
  | cons c cs ih =>
    rw [cut] at h
    split at h
    · cases h
      rw [cut, if_neg hne]
    · next hp =>
      obtain ⟨z, hz, hxy⟩ := Option.map_eq_some_iff.1 h
      cases hxy
      rw [cut, if_neg, ih hz, Option.map_none]
      intro hq
      apply hp
      rw [List.isPrefixOf_iff_prefix] at hq ⊢
      rw [cut_some hz]
      simp only [List.append_assoc, ← List.cons_append]
      exact hq.trans (List.prefix_append _ _)

theorem cut_le {mark a : List Char} (h : cut mark (a ++ mark ++ rest) = some (x, y)) :
    x.length ≤ a.length := by
  induction a generalizing x with
  | nil =>
    cases hc : mark ++ rest with
    | nil =>
      rw [List.nil_append, hc, cut] at h
      split at h
      · cases h
        exact Nat.le_refl _
      · cases h
    | cons c cs =>
      rw [List.nil_append, hc, cut, if_pos] at h
      · cases h
        exact Nat.le_refl _
      · rw [List.isPrefixOf_iff_prefix, ← hc]
        exact List.prefix_append _ _
  | cons c a ih =>
    rw [List.cons_append, List.cons_append, cut] at h
    split at h
    · cases h
      exact Nat.zero_le _
    · obtain ⟨z, hz, hxy⟩ := Option.map_eq_some_iff.1 h
      cases hxy
      exact Nat.succ_le_succ (ih hz)

variable {c : Char} {mark a b : List Char}

theorem prefix_append_stop (hc : c ∉ mark) : mark <+: a ++ c :: b ↔ mark <+: a := by
  constructor
  · intro h
    obtain hle | hlt := Nat.lt_or_ge a.length mark.length
    · obtain ⟨rest, hrest⟩ := h
      exfalso
      apply hc
      have hget : mark[a.length]? = some c := by
        have hall := congrArg (fun l => l[a.length]?) hrest
        rw [List.getElem?_append_left hle, List.getElem?_append_right (Nat.le_refl _),
          Nat.sub_self] at hall
        exact hall
      exact List.mem_of_getElem? hget
    · exact List.prefix_of_prefix_length_le h (List.prefix_append _ _) hlt
  · intro h
    exact h.trans (List.prefix_append _ _)

theorem cut_append_stop (hne : mark ≠ []) (hc : c ∉ mark) : cut mark (a ++ c :: b) =
    ((cut mark a).map fun x => (x.1, x.2 ++ c :: b)).or
      ((cut mark b).map fun x => (a ++ c :: x.1, x.2)) := by
  induction a with
  | nil =>
    have hnil : cut mark [] = none := by rw [cut, if_neg hne]
    have hcons : cut mark (c :: b) = (cut mark b).map fun x => (c :: x.1, x.2) := by
      rw [cut, if_neg]
      rw [List.isPrefixOf_iff_prefix]
      intro h
      exact hne (List.prefix_nil.1 ((prefix_append_stop (a := []) hc).1 h))
    rw [List.nil_append, hnil, hcons]
    rfl
  | cons d a ih =>
    rw [List.cons_append, cut, cut]
    have hiff := prefix_append_stop (a := d :: a) (b := b) hc
    rw [List.cons_append, ← List.isPrefixOf_iff_prefix, ← List.isPrefixOf_iff_prefix] at hiff
    by_cases hp : mark.isPrefixOf (d :: a) = true
    · rw [if_pos (hiff.2 hp), if_pos hp]
      obtain ⟨rest, hrest⟩ := List.isPrefixOf_iff_prefix.1 hp
      rw [← List.cons_append, ← hrest, List.append_assoc, List.drop_left, List.drop_left]
      rfl
    · rw [if_neg (fun h => hp (hiff.1 h)), if_neg hp, ih]
      cases cut mark a with
      | some x => rfl
      | none => cases cut mark b <;> rfl

theorem cut_append_line (hc : c ∉ mark) (ha : cut (c :: mark) a = none) :
    cut (c :: mark) (a ++ (c :: mark) ++ b) = some (a, b) := by
  induction a with
  | nil =>
    rw [List.nil_append, List.cons_append, cut, if_pos, ← List.cons_append, List.drop_left]
    rw [← List.cons_append, List.isPrefixOf_iff_prefix]
    exact List.prefix_append _ _
  | cons d a ih =>
    rw [cut] at ha
    split at ha
    · cases ha
    · next hp =>
      rw [List.cons_append, List.cons_append, cut, if_neg, ih (Option.map_eq_none_iff.1 ha)]
      · rfl
      · intro hq
        apply hp
        rw [List.isPrefixOf_iff_prefix] at hq ⊢
        rw [List.cons_prefix_cons] at hq ⊢
        rw [List.append_assoc, List.cons_append] at hq
        exact ⟨hq.1, (prefix_append_stop hc).1 hq.2⟩

end Cut

section Trim

theorem trimStart_head (cs : List Char) : ∀ c ∈ (trimStart cs).head?, isSpace c = false := by
  intro c hc
  have hnot := List.head?_dropWhile_not isSpace cs
  unfold trimStart at hc
  rw [Option.mem_def.1 hc] at hnot
  simpa using hnot

theorem trimStart_self {cs : List Char} (h : ∀ c ∈ cs.head?, isSpace c = false) : trimStart cs = cs := by
  cases cs with
  | nil => rfl
  | cons c cs =>
    rw [trimStart, List.dropWhile_cons_of_neg]
    rw [h c rfl]
    exact Bool.false_ne_true

theorem head_start {x y : List Char} (h : x <+: y) (hy : ∀ c ∈ y.head?, isSpace c = false) :
    ∀ c ∈ x.head?, isSpace c = false := by
  intro c hc
  cases x with
  | nil => cases hc
  | cons d x =>
    cases hc
    obtain ⟨rest, rfl⟩ := h
    exact hy c rfl

theorem trim_ends (s : String) : (∀ c ∈ (trim s).toList.head?, isSpace c = false) ∧
    ∀ c ∈ (trim s).toList.reverse.head?, isSpace c = false := by
  rw [trim, String.toList_ofList, List.reverse_reverse]
  refine ⟨?_, trimStart_head _⟩
  have hstart : (trimStart (trimStart s.toList).reverse).reverse <+: trimStart s.toList := by
    rw [← List.reverse_suffix, List.reverse_reverse]
    exact List.dropWhile_suffix _
  exact head_start hstart (trimStart_head _)

theorem trim_self {a : List Char} (hhead : ∀ c ∈ a.head?, isSpace c = false)
    (hlast : ∀ c ∈ a.reverse.head?, isSpace c = false) : trim (String.ofList a) = String.ofList a := by
  rw [trim, String.toList_ofList, trimStart_self hhead, trimStart_self hlast, List.reverse_reverse]

theorem trim_trim (s : String) : trim (trim s) = trim s := by
  obtain ⟨hhead, hlast⟩ := trim_ends s
  have h := trim_self hhead hlast
  rwa [String.ofList_toList] at h

theorem trim_length (s : String) : (trim s).toList.length ≤ s.toList.length := by
  rw [trim, String.toList_ofList, List.length_reverse]
  have h₁ := (List.dropWhile_suffix isSpace (l := s.toList)).length_le
  have h₂ := (List.dropWhile_suffix isSpace (l := (trimStart s.toList).reverse)).length_le
  rw [List.length_reverse] at h₂
  exact Nat.le_trans h₂ h₁

end Trim

section Words

/-- `/\s*(\S*)/` -/
def word (cs : List Char) : List Char := (trimStart cs).takeWhile (!isSpace ·)

theorem trimStart_append {a b : List Char} :
    trimStart (a ++ b) = if trimStart a = [] then trimStart b else trimStart a ++ b := by
  unfold trimStart
  rw [List.dropWhile_append]
  simp only [List.isEmpty_iff]

theorem word_append {a : List Char} {c : Char} (h : isSpace c = true) (ha : word a ≠ [])
    (b : List Char) : word (a ++ c :: b) = word a := by
  have hne : trimStart a ≠ [] := by
    intro hnil
    rw [word, hnil] at ha
    exact ha rfl
  rw [word, trimStart_append, if_neg hne, word]
  generalize trimStart a = l
  induction l with
  | nil => simp [h]
  | cons d l ih =>
    rw [List.cons_append, List.takeWhile_cons, List.takeWhile_cons, ih]

theorem addressLine_eq (cs : List Char) : addressLine cs =
    (cut "Address:".toList cs).bind fun x => if word x.2 = [] then none else some (word x.2) := rfl

theorem addressLine_word (h : addressLine cs = some w) : w ≠ [] ∧ ∀ c ∈ w, isSpace c = false := by
  rw [addressLine_eq] at h
  obtain ⟨x, -, hx⟩ := Option.bind_eq_some_iff.1 h
  split at hx
  · cases hx
  · next hne =>
    cases hx
    refine ⟨hne, ?_⟩
    intro c hc
    simpa using List.mem_takeWhile_imp hc

theorem word_ne {a : List Char} (h : ∃ c ∈ a, isSpace c = false) : word a ≠ [] := by
  obtain ⟨c, hc, hspace⟩ := h
  have hne : trimStart a ≠ [] := by
    intro hnil
    rw [trimStart, List.dropWhile_eq_nil_iff] at hnil
    rw [hnil c hc] at hspace
    cases hspace
  obtain ⟨d, l, hl⟩ := List.exists_cons_of_ne_nil hne
  have hd : isSpace d = false := by
    have hhead := List.head_dropWhile_not (p := isSpace) (l := a) hne
    simp only [trimStart] at hl
    simpa [hl] using hhead
  rw [word, hl, List.takeWhile_cons, hd]
  exact List.cons_ne_nil d _

theorem word_self {w : List Char} (hw : ∀ c ∈ w, isSpace c = false) : word (' ' :: w) = w := by
  have hstart : trimStart (' ' :: w) = w := by
    rw [trimStart, List.dropWhile_cons_of_pos (by decide)]
    cases w with
    | nil => rfl
    | cons d w =>
      rw [List.dropWhile_cons_of_neg]
      rw [hw d List.mem_cons_self]
      exact Bool.false_ne_true
  rw [word, hstart, List.takeWhile_eq_self_iff]
  intro c hc
  rw [hw c hc]
  rfl

end Words

section Signatures

variable {ends : List Char → Bool} {a b l : List Char}

theorem base64_stop (cs b : List Char) :
    (cs ++ '\n' :: b).takeWhile isBase64 = cs.takeWhile isBase64 ∧
      (cs ++ '\n' :: b).dropWhile isBase64 = cs.dropWhile isBase64 ++ '\n' :: b := by
  apply takeWhile_stop
  intro c hc
  cases hc
  decide

theorem base64_space {d : Char} (h : isBase64 d = true) : isSpace d = false := by
  have hval : d.val.toNat = d.toNat := rfl
  have hrange : 43 ≤ d.toNat ∧ d.toNat ≤ 122 := by
    change ((((decide (65 ≤ d.val ∧ d.val ≤ 90) ||
      (decide (97 ≤ d.val) && decide (d.val ≤ 122))) ||
      (decide (48 ≤ d.val) && decide (d.val ≤ 57))) ||
      decide (d = '+') || decide (d = '/')) || decide (d = '=')) = true at h
    simp only [Bool.or_eq_true, Bool.and_eq_true, decide_eq_true_eq, UInt32.le_iff_toNat_le, hval,
      UInt32.reduceToNat] at h
    obtain ((((h | h) | h) | rfl) | rfl) | rfl := h
    · omega
    · omega
    · omega
    · decide
    · decide
    · decide
  rw [Bool.eq_false_iff]
  intro hs
  simp only [isSpace, Bool.or_eq_true, Bool.and_eq_true, decide_eq_true_eq, List.mem_cons,
    List.not_mem_nil, or_false, UInt32.le_iff_toNat_le, ← UInt32.toNat_inj, hval,
    UInt32.reduceToNat] at hs
  omega

theorem signatureLine_append (hends : ∀ s, ends (s ++ '\n' :: b) = ends s) :
    signatureLine ends (a ++ '\n' :: b) =
      (signatureLine ends a).or (signatureLine ends ('\n' :: b)) := by
  induction a with
  | nil => rfl
  | cons c a ih =>
    obtain ⟨htake, hdrop⟩ := base64_stop a b
    rw [List.cons_append, signatureLine, htake, hdrop, hends, ih]
    rw [signatureLine.eq_2 ends c a]
    split <;> rfl

theorem signatureLine_skip (h : '\n' ∉ l) : signatureLine ends (l ++ a) = signatureLine ends a := by
  induction l with
  | nil => rfl
  | cons c l ih =>
    rw [List.mem_cons, not_or] at h
    rw [List.cons_append, signatureLine, if_neg, ih h.2]
    intro hc
    exact h.1 hc.1.symm

theorem signatureLine_short (h : '\n' ∉ l) (hshort : (l.takeWhile isBase64).length < 80) :
    signatureLine ends ('\n' :: (l ++ '\n' :: b)) = signatureLine ends ('\n' :: b) := by
  rw [signatureLine, if_neg, signatureLine_skip h]
  rw [(base64_stop l b).1]
  intro hc
  exact absurd hc.2.1 (Nat.not_le.2 hshort)

theorem signatureLine_found (h : ∀ c ∈ l, isBase64 c = true) (hlong : 80 ≤ l.length)
    (hb : ends ('\n' :: b) = true) : signatureLine ends ('\n' :: (l ++ '\n' :: b)) = some l := by
  obtain ⟨htake, hdrop⟩ := base64_stop l b
  rw [List.takeWhile_eq_self_iff.2 h] at htake
  rw [List.dropWhile_eq_nil_iff.2 h, List.nil_append] at hdrop
  rw [signatureLine, htake, hdrop, if_pos ⟨rfl, hlong, hb⟩]

theorem signatureLine_some (h : signatureLine ends a = some l) :
    (∀ c ∈ l, isBase64 c = true) ∧ 80 ≤ l.length := by
  induction a with
  | nil => cases h
  | cons c a ih =>
    rw [signatureLine] at h
    split at h
    · next hc =>
      cases h
      refine ⟨?_, hc.2.1⟩
      intro d hd
      exact List.mem_takeWhile_imp hd
    · exact ih h

end Signatures

section LineFeeds

theorem length_lineFeeds (cs : List Char) : (lineFeeds cs).length ≤ cs.length ∧
    ((lineFeeds cs).length = cs.length → lineFeeds cs = cs) := by
  induction cs using lineFeeds.induct with
  | case1 cs ih =>
    rw [lineFeeds]
    simp only [List.length_cons]
    exact ⟨by omega, fun h => by omega⟩
  | case2 c cs hc ih =>
    rw [lineFeeds]
    · simp only [List.length_cons]
      refine ⟨by omega, fun h => ?_⟩
      rw [ih.2 (by omega)]
    · exact hc
  | case3 => exact ⟨Nat.le_refl _, fun _ => rfl⟩

theorem lineFeeds_append {a : List Char} (h : a.getLast? ≠ some '\r') (b : List Char) :
    lineFeeds (a ++ b) = lineFeeds a ++ lineFeeds b := by
  have htail : ∀ {c : Char} {cs : List Char}, (c :: cs).getLast? ≠ some '\r' →
      cs.getLast? ≠ some '\r' := by
    intro c cs h hcs
    rw [List.getLast?_cons, hcs] at h
    exact h rfl
  induction a using lineFeeds.induct with
  | case1 cs ih =>
    rw [List.cons_append, List.cons_append, lineFeeds, lineFeeds, ih (htail (htail h)),
      List.cons_append]
  | case2 c cs hc ih =>
    rw [List.cons_append, lineFeeds, lineFeeds, ih (htail h), List.cons_append]
    · exact hc
    · intro cs' hcr hcs
      cases cs with
      | nil =>
        rw [hcr] at h
        exact h rfl
      | cons d cs =>
        cases hcs
        exact hc cs hcr rfl
  | case3 => rfl

theorem lineFeeds_self {a : List Char} (h : '\r' ∉ a) : lineFeeds a = a := by
  induction a with
  | nil => rfl
  | cons c a ih =>
    rw [List.mem_cons, not_or] at h
    rw [lineFeeds, ih h.2]
    intro cs hc
    exact absurd hc.symm h.1

end LineFeeds

end Mise.Server
