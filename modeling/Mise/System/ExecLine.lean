import Mise.System.UnitFiles

set_option autoImplicit true

namespace Mise.System

open Js Server

/-! What is found of the backend's script in the line that starts it. -/

/-- A text without its last word, and without the white space before that. -/
def beforeLastWord (s : Text) : Text := (s.rdropWhile (!isSpace ·)).rdropWhile isSpace

/-- The last word of a line. -/
def lastWord (s : Text) : Text := s.rtakeWhile (!isSpace ·)

section Words

variable {s u v x E rest : Text} {c : Char}

theorem isSpace_of_isBreak (h : isBreak c = true) : isSpace c = true := by
  simp only [isBreak, Bool.or_eq_true, decide_eq_true_eq] at h
  rcases h with ((rfl | rfl) | h) | h
  · decide
  · decide
  · rw [isSpace, h]
    decide
  · rw [isSpace, h]
    decide

theorem noBreak_of_noSpace (h : x.all (!isSpace ·) = true) : x.all (!isBreak ·) = true := by
  rw [List.all_eq_true] at h ⊢
  intro c hc
  have hs := h c hc
  rw [Bool.not_eq_true'] at hs ⊢
  cases hb : isBreak c with
  | false => rfl
  | true => exact absurd (isSpace_of_isBreak hb) (Bool.eq_false_iff.1 hs)

/-- A line that a text ends with, or that is followed by another. -/
def EndsLine (rest : Text) : Prop := rest = [] ∨ ∃ t, rest = '\n' :: t

theorem scriptOf_some (h : scriptOf s = some v) :
    ∃ u x, s = u ++ ("node".toList ++ x) ∧ u.all (!isBreak ·) = true ∧ wordOf x = some v := by
  induction s with
  | nil => cases h
  | cons c s ih =>
    rw [scriptOf, Option.orElse_eq_some] at h
    rcases h with h | ⟨-, h⟩
    · split at h
      · next hp =>
        obtain ⟨x, hx⟩ := List.isPrefixOf_iff_prefix.1 hp
        rw [← hx] at h ⊢
        exact ⟨[], x, rfl, rfl, h⟩
      · cases h
    · split at h
      · cases h
      · next hc =>
        obtain ⟨u, x, rfl, hu, hv⟩ := ih h
        refine ⟨c :: u, x, rfl, ?_, hv⟩
        rw [List.all_cons, hu, Bool.and_true, Bool.not_eq_true']
        exact Bool.eq_false_iff.2 hc

theorem scriptOf_isSome (hu : u.all (!isBreak ·) = true) (h : (wordOf x).isSome = true) :
    (scriptOf (u ++ ("node".toList ++ x))).isSome = true := by
  induction u with
  | nil =>
    have hnode : scriptOf ([] ++ ("node".toList ++ x)) = (wordOf x <|> scriptOf ("ode".toList ++ x)) := rfl
    rw [hnode]
    cases hw : wordOf x with
    | none =>
      rw [hw] at h
      cases h
    | some v => rfl
  | cons c u ih =>
    rw [List.all_cons, Bool.and_eq_true, Bool.not_eq_true'] at hu
    rw [List.cons_append, scriptOf, hu.1]
    have hor : ∀ a b : Option Text, b.isSome = true → (a <|> b).isSome = true := by
      intro a b hb
      cases a with
      | none => exact hb
      | some a => rfl
    exact hor _ _ (ih hu.2)

/-- A text that is read as words ends with one. -/
def EndsWord (x : Text) : Prop := ∀ c ∈ x.getLast?, isSpace c = false

theorem EndsWord.suffix (h : EndsWord x) (hs : v <:+ x) : EndsWord v := by
  obtain ⟨u, rfl⟩ := hs
  intro c hc
  apply h
  rw [List.getLast?_append, hc]
  rfl

theorem EndsWord.dropWhile_ne_nil (h : EndsWord x) (hne : x ≠ []) : x.dropWhile isSpace ≠ [] := by
  intro hnil
  have hlast := List.getLast?_eq_some_getLast hne
  have hspace := List.dropWhile_eq_nil_iff.1 hnil _ (List.getLast_mem hne)
  rw [h _ hlast] at hspace
  cases hspace

theorem EndsWord.spaces (h : EndsWord x) (hne : x ≠ []) (y : Text) :
    (x ++ y).takeWhile isSpace = x.takeWhile isSpace ∧
      (x ++ y).dropWhile isSpace = x.dropWhile isSpace ++ y := by
  obtain ⟨c, z, hz⟩ := List.exists_cons_of_ne_nil (h.dropWhile_ne_nil hne)
  have hc : ¬ isSpace c = true := by
    have hhead := List.head?_dropWhile_not isSpace x
    rw [hz] at hhead
    exact Bool.eq_false_iff.1 hhead
  have hspaces : ∀ d ∈ x.takeWhile isSpace, isSpace d = true := fun d hd => List.mem_takeWhile_imp hd
  have hx : x ++ y = x.takeWhile isSpace ++ (c :: (z ++ y)) := by
    rw [← List.cons_append, ← hz, ← List.append_assoc, List.takeWhile_append_dropWhile]
  rw [hx, List.takeWhile_append_of_pos hspaces, List.takeWhile_cons_of_neg hc, List.append_nil,
    List.dropWhile_append_of_pos hspaces, List.dropWhile_cons_of_neg hc, hz]
  exact ⟨rfl, rfl⟩

theorem EndsLine.nonspaces (h : EndsLine rest) (hv : v.all (!isSpace ·) = true) :
    (v ++ rest).takeWhile (!isSpace ·) = v ∧ (v ++ rest).dropWhile (!isSpace ·) = rest := by
  rw [List.takeWhile_append_of_pos (List.all_eq_true.1 hv),
    List.dropWhile_append_of_pos (List.all_eq_true.1 hv)]
  rcases h with rfl | ⟨t, rfl⟩
  · rw [List.takeWhile_nil, List.append_nil]
    exact ⟨rfl, rfl⟩
  · rw [List.takeWhile_cons_of_neg (by decide), List.dropWhile_cons_of_neg (by decide),
      List.append_nil]
    exact ⟨rfl, rfl⟩

theorem wordOf_eq (hbreak : x.all (!isBreak ·) = true) (hlast : EndsWord x) (hne : x ≠ [])
    (hrest : EndsLine rest) : wordOf (x ++ rest) =
      if x.takeWhile isSpace ≠ [] ∧ (x.dropWhile isSpace).all (!isSpace ·) = true then
        some (x.dropWhile isSpace) else none := by
  obtain ⟨htake, hdrop⟩ := hlast.spaces hne rest
  have hword := hlast.dropWhile_ne_nil hne
  have hend : EndsWord (x.dropWhile isSpace) := hlast.suffix (List.dropWhile_suffix _)
  rw [wordOf, htake, hdrop]
  generalize x.takeWhile isSpace = spaces
  by_cases hall : (x.dropWhile isSpace).all (!isSpace ·) = true
  · obtain ⟨hw, hafter⟩ := hrest.nonspaces hall
    have hline : (rest.takeWhile isSpace).any isBreak = true ∨ rest.dropWhile isSpace = [] := by
      rcases hrest with rfl | ⟨t, rfl⟩
      · exact .inr rfl
      · left
        rw [List.takeWhile_cons_of_pos (by decide)]
        rfl
    rw [hw, hafter]
    by_cases hs : spaces = []
    · rw [if_pos (.inl hs), if_neg fun h => h.1 hs]
    · rw [if_neg (not_or.2 ⟨hs, hword⟩), if_pos hline, if_pos ⟨hs, hall⟩]
  · have hnone : (if spaces ≠ [] ∧ (x.dropWhile isSpace).all (!isSpace ·) = true then
        some (x.dropWhile isSpace) else none) = none := if_neg fun h => hall h.2
    have hmore : (x.dropWhile isSpace).dropWhile (!isSpace ·) ≠ [] := by
      intro hnil
      rw [List.dropWhile_eq_nil_iff] at hnil
      exact hall (List.all_eq_true.2 hnil)
    have hafter : (x.dropWhile isSpace ++ rest).dropWhile (!isSpace ·) =
        (x.dropWhile isSpace).dropWhile (!isSpace ·) ++ rest := by
      rw [List.dropWhile_append, if_neg]
      rw [List.isEmpty_iff]
      exact hmore
    have hsub : (x.dropWhile isSpace).dropWhile (!isSpace ·) <:+ x :=
      (List.dropWhile_suffix _).trans (List.dropWhile_suffix _)
    have hmend : EndsWord ((x.dropWhile isSpace).dropWhile (!isSpace ·)) := hlast.suffix hsub
    obtain ⟨htake', hdrop'⟩ := hmend.spaces hmore rest
    have hline : ¬ ((((x.dropWhile isSpace).dropWhile (!isSpace ·)).takeWhile isSpace).any isBreak = true ∨
        ((x.dropWhile isSpace).dropWhile (!isSpace ·)).dropWhile isSpace ++ rest = []) := by
      rintro (hany | hnil)
      · obtain ⟨c, hc, hbreakc⟩ := List.any_eq_true.1 hany
        have hcx := List.all_eq_true.1 hbreak c (hsub.subset ((List.takeWhile_prefix _).subset hc))
        rw [hbreakc] at hcx
        cases hcx
      · exact hmend.dropWhile_ne_nil hmore (List.append_eq_nil_iff.1 hnil).1
    rw [hafter, htake', hdrop', hnone, if_neg hline, ite_self]

theorem line_parts (E : Text) : beforeLastWord E ++
    ((E.rdropWhile (!isSpace ·)).rtakeWhile isSpace ++ lastWord E) = E := by
  rw [beforeLastWord, lastWord, ← List.append_assoc, List.rdropWhile_append_rtakeWhile,
    List.rdropWhile_append_rtakeWhile]

/-- The last word of a line, and what is before its white space, where that ends in a word. -/
theorem words_eq {ws : Text} {c : Char} (hc : isSpace c = false) (hne : ws ≠ [])
    (hws : ws.all isSpace = true) (hv : v.all (!isSpace ·) = true) :
    beforeLastWord (u ++ [c] ++ (ws ++ v)) = u ++ [c] ∧ lastWord (u ++ [c] ++ (ws ++ v)) = v := by
  have hv' : ∀ d ∈ v.reverse, (!isSpace d) = true := fun d hd =>
    List.all_eq_true.1 hv d (List.mem_reverse.1 hd)
  have hws' : ∀ d ∈ ws.reverse, isSpace d = true := fun d hd =>
    List.all_eq_true.1 hws d (List.mem_reverse.1 hd)
  obtain ⟨d, ws', hd⟩ := List.exists_cons_of_ne_nil (mt List.reverse_eq_nil_iff.1 hne)
  have hspace : ¬ (fun x => !isSpace x) d = true := by
    dsimp only
    rw [hws' d (hd ▸ List.mem_cons_self)]
    decide
  have hreverse : (u ++ [c] ++ (ws ++ v)).reverse = v.reverse ++ (ws.reverse ++ c :: u.reverse) := by
    simp
  have hc' : ¬ isSpace c = true := Bool.eq_false_iff.1 hc
  have hdrop : (u ++ [c] ++ (ws ++ v)).rdropWhile (!isSpace ·) = (ws.reverse ++ c :: u.reverse).reverse := by
    rw [List.rdropWhile, hreverse, List.dropWhile_append_of_pos hv', hd, List.cons_append,
      List.dropWhile_cons_of_neg (p := fun x => !isSpace x) hspace]
  constructor
  · rw [beforeLastWord, hdrop, List.rdropWhile, List.reverse_reverse,
      List.dropWhile_append_of_pos hws', List.dropWhile_cons_of_neg hc', List.reverse_cons,
      List.reverse_reverse]
  · rw [lastWord, List.rtakeWhile, hreverse, List.takeWhile_append_of_pos hv', hd, List.cons_append,
      List.takeWhile_cons_of_neg (p := fun x => !isSpace x) hspace, List.append_nil,
      List.reverse_reverse]

theorem EndsLine.within {k : Text} (h : EndsLine rest) (hk : '\n' ∉ k) (hp : k <+: x ++ rest) :
    k <+: x := by
  rcases h with rfl | ⟨t, rfl⟩
  · rw [List.append_nil] at hp
    exact hp
  · exact (prefix_append_stop hk).1 hp

theorem not_newline_of_noBreak (h : x.all (!isBreak ·) = true) : '\n' ∉ x := by
  intro hm
  have hb := List.all_eq_true.1 h _ hm
  cases hb

/-- What `.*?node\s+(\S+)\s*$` finds in a line that ends in a word, but not in `node`. -/
theorem scriptOf_found (hbreak : E.all (!isBreak ·) = true) (hlast : EndsWord E)
    (hno : ¬ "node".toList <:+ E) (hrest : EndsLine rest) (h : scriptOf (E ++ rest) = some v) :
    "node".toList <:+ beforeLastWord E ∧ v = lastWord E := by
  obtain ⟨u, x, hs, hu, hv⟩ := scriptOf_some h
  have hnode : "node".toList = "nod".toList ++ ['e'] := rfl
  have hp : u ++ "node".toList <+: E := by
    apply hrest.within
    · rw [List.mem_append]
      exact not_or.2 ⟨not_newline_of_noBreak hu, by decide⟩
    · rw [hs, ← List.append_assoc]
      exact List.prefix_append _ _
  obtain ⟨y, rfl⟩ := hp
  have hx : x = y ++ rest := by
    rw [List.append_assoc, List.append_assoc] at hs
    exact (List.append_cancel_left (List.append_cancel_left hs)).symm
  have hy : y ≠ [] := by
    rintro rfl
    rw [List.append_nil] at hno
    exact hno (List.suffix_append _ _)
  rw [List.all_append, Bool.and_eq_true] at hbreak
  rw [hx, wordOf_eq hbreak.2 (hlast.suffix (List.suffix_append _ y)) hy hrest] at hv
  split at hv
  · next hword =>
    have hws : (y.takeWhile isSpace).all isSpace = true :=
      List.all_eq_true.2 fun d hd => List.mem_takeWhile_imp hd
    have hspace : isSpace 'e' = false := by decide
    have hwords := words_eq (u := u ++ "nod".toList) hspace hword.1 hws hword.2
    rw [List.takeWhile_append_dropWhile, List.append_assoc u, ← hnode] at hwords
    rw [hwords.1, hwords.2]
    exact ⟨List.suffix_append _ _, (Option.some.inj hv).symm⟩
  · cases hv

theorem spaces_word {ws : Text} (hws : ws.all isSpace = true) (hv : v.all (!isSpace ·) = true) :
    (ws ++ v).takeWhile isSpace = ws ∧ (ws ++ v).dropWhile isSpace = v := by
  rw [List.takeWhile_append_of_pos (List.all_eq_true.1 hws),
    List.dropWhile_append_of_pos (List.all_eq_true.1 hws)]
  cases v with
  | nil => exact ⟨List.append_nil ws, rfl⟩
  | cons c v =>
    rw [List.all_cons, Bool.and_eq_true, Bool.not_eq_true'] at hv
    have hc : ¬ isSpace c = true := Bool.eq_false_iff.1 hv.1
    rw [List.takeWhile_cons_of_neg hc, List.dropWhile_cons_of_neg hc, List.append_nil]
    exact ⟨rfl, rfl⟩

theorem scriptOf_last (hbreak : E.all (!isBreak ·) = true) (hlast : EndsWord E) (hne : E ≠ [])
    (hrest : EndsLine rest) (h : "node".toList <:+ beforeLastWord E) :
    (scriptOf (E ++ rest)).isSome = true := by
  have hv : (lastWord E).all (!isSpace ·) = true :=
    List.all_eq_true.2 fun d hd => List.mem_rtakeWhile_imp (p := fun c => !isSpace c) hd
  have hvne : lastWord E ≠ [] := by
    intro hnil
    have hspace := List.rtakeWhile_eq_nil_iff.1 hnil hne
    rw [hlast _ (List.getLast?_eq_some_getLast hne)] at hspace
    exact hspace rfl
  have hparts := line_parts E
  have hws : ((E.rdropWhile (!isSpace ·)).rtakeWhile isSpace).all isSpace = true :=
    List.all_eq_true.2 fun d hd => List.mem_rtakeWhile_imp hd
  have hwsne : (E.rdropWhile (!isSpace ·)).rtakeWhile isSpace ≠ [] := by
    intro hnil
    have hbefore : beforeLastWord E = E.rdropWhile (!isSpace ·) := by
      have hp := List.rdropWhile_append_rtakeWhile (p := isSpace) (l := E.rdropWhile (!isSpace ·))
      rw [hnil, List.append_nil] at hp
      exact hp
    rw [hbefore] at h
    have hne' := h.ne_nil (by decide)
    have hspace := List.rdropWhile_last_not _ E hne'
    have hlastc : (E.rdropWhile (!isSpace ·)).getLast hne' = 'e' := by
      rw [← h.getLast (by decide)]
      rfl
    rw [hlastc] at hspace
    exact hspace rfl
  obtain ⟨u, hu⟩ := h
  generalize (E.rdropWhile (!isSpace ·)).rtakeWhile isSpace = ws at hparts hws hwsne
  rw [← hu, List.append_assoc] at hparts
  have hsuffix : ws ++ lastWord E <:+ E := by
    refine ⟨u ++ "node".toList, ?_⟩
    rw [List.append_assoc]
    exact hparts
  obtain ⟨htake, hdrop⟩ := spaces_word hws hv
  have hbreak' : (ws ++ lastWord E).all (!isBreak ·) = true :=
    List.all_eq_true.2 fun d hd => List.all_eq_true.1 hbreak d (hsuffix.subset hd)
  have hword : wordOf (ws ++ lastWord E ++ rest) = some (lastWord E) := by
    rw [wordOf_eq hbreak' (hlast.suffix hsuffix) (mt List.append_eq_nil_iff.1 fun h => hwsne h.1) hrest,
      htake, hdrop, if_pos ⟨hwsne, hv⟩]
  have hubreak : u.all (!isBreak ·) = true := by
    rw [← hparts, List.all_append, Bool.and_eq_true] at hbreak
    exact hbreak.1
  have hE : E ++ rest = u ++ ("node".toList ++ (ws ++ lastWord E ++ rest)) := by
    conv_lhs => rw [← hparts]
    simp only [List.append_assoc]
  rw [hE]
  apply scriptOf_isSome hubreak
  rw [hword]
  rfl

/-- The word after `node`, where it is the last of the line. -/
def script (line : Text) : Option Text :=
  if "node".toList <:+ beforeLastWord line then some (lastWord line) else none

theorem scriptOf_line (hbreak : E.all (!isBreak ·) = true) (hlast : EndsWord E) (hne : E ≠ [])
    (hno : ¬ "node".toList <:+ E) (hrest : EndsLine rest) : scriptOf (E ++ rest) = script E := by
  rw [script]
  split
  · next hnode =>
    obtain ⟨v, hv⟩ := Option.isSome_iff_exists.1 (scriptOf_last hbreak hlast hne hrest hnode)
    rw [hv, (scriptOf_found hbreak hlast hno hrest hv).2]
  · next hnode =>
    cases h : scriptOf (E ++ rest) with
    | none => rfl
    | some v => exact absurd (scriptOf_found hbreak hlast hno hrest h).1 hnode

end Words

section Lines

variable {l t E v : Text} {lines : List Text} {c : Char}

theorem execFrom_inside (h : l.all (!isBreak ·) = true) (t : Text) :
    execFrom false (l ++ '\n' :: t) = execFrom true t := by
  induction l with
  | nil => rfl
  | cons c l ih =>
    rw [List.all_cons, Bool.and_eq_true, Bool.not_eq_true'] at h
    rw [List.cons_append, execFrom, h.1, ih h.2]
    rfl

theorem execFrom_end (h : l.all (!isBreak ·) = true) : execFrom false l = none := by
  induction l with
  | nil => rfl
  | cons c l ih =>
    rw [List.all_cons, Bool.and_eq_true, Bool.not_eq_true'] at h
    rw [execFrom, h.1, ih h.2]
    rfl

/-- What one line gives, with what follows it. -/
def execLine (l rest : Text) : Option Text :=
  if "ExecStart=".toList <+: l then scriptOf (l.drop 10 ++ rest) else none

theorem execFrom_line {rest : Text} (h : l.all (!isBreak ·) = true) (hrest : EndsLine rest) :
    execFrom true (l ++ rest) = (execLine l rest <|> execFrom true (rest.drop 1)) := by
  cases l with
  | nil =>
    rcases hrest with rfl | ⟨t, rfl⟩
    · rfl
    · rfl
  | cons c l =>
    rw [List.all_cons, Bool.and_eq_true, Bool.not_eq_true'] at h
    have htail : execFrom false (l ++ rest) = execFrom true (rest.drop 1) := by
      rcases hrest with rfl | ⟨t, rfl⟩
      · rw [List.append_nil, execFrom_end h.2]
        rfl
      · exact execFrom_inside h.2 t
    have hp : "ExecStart=".toList <+: c :: (l ++ rest) ↔ "ExecStart=".toList <+: c :: l :=
      ⟨hrest.within (x := c :: l) (by decide), fun hp => hp.trans (List.prefix_append (c :: l) rest)⟩
    rw [List.cons_append, execFrom, h.1, htail, execLine]
    by_cases hkey : "ExecStart=".toList <+: c :: l
    · have hlen : 10 ≤ (c :: l).length := hkey.length_le
      rw [if_pos hkey, Bool.true_and, if_pos (List.isPrefixOf_iff_prefix.2 (hp.2 hkey)),
        ← List.drop_append_of_le_length hlen, List.cons_append]
    · rw [if_neg hkey, Bool.true_and, if_neg (mt List.isPrefixOf_iff_prefix.1 (mt hp.1 hkey))]

/-- What is found in lines of which those that start the backend are the same. -/
theorem execFrom_lines (hbreak : ∀ l ∈ lines, l.all (!isBreak ·) = true)
    (hline : ∀ l ∈ lines, "ExecStart=".toList <+: l → l = "ExecStart=".toList ++ E)
    (hlast : EndsWord E) (hne : E ≠ []) (hno : ¬ "node".toList <:+ E) :
    execFrom true (['\n'].intercalate lines) =
      if lines.any "ExecStart=".toList.isPrefixOf then script E else none := by
  have hexec : ∀ l ∈ lines, ∀ rest, EndsLine rest →
      execLine l rest = if "ExecStart=".toList.isPrefixOf l then script E else none := by
    intro l hl rest hrest
    rw [execLine]
    by_cases hp : "ExecStart=".toList <+: l
    · have hE := hline l hl hp
      have hEbreak : E.all (!isBreak ·) = true := by
        have hall := hbreak l hl
        rw [hE, List.all_append, Bool.and_eq_true] at hall
        exact hall.2
      have hdrop : l.drop 10 = E := by rw [hE]; rfl
      rw [if_pos hp, if_pos (List.isPrefixOf_iff_prefix.2 hp), hdrop,
        scriptOf_line hEbreak hlast hne hno hrest]
    · rw [if_neg hp, if_neg (mt List.isPrefixOf_iff_prefix.1 hp)]
  induction lines with
  | nil => rfl
  | cons l lines ih =>
    have hbreak' : ∀ l ∈ lines, l.all (!isBreak ·) = true :=
      fun l hl => hbreak l (List.mem_cons_of_mem _ hl)
    have htail := ih hbreak' (fun l hl => hline l (List.mem_cons_of_mem _ hl))
      fun l hl => hexec l (List.mem_cons_of_mem _ hl)
    have hor : ∀ a b : Bool, ((if a then script E else none) <|> if b then script E else none) =
        if a || b then script E else none := by
      intro a b
      cases a with
      | false => rfl
      | true =>
        cases hE : script E with
        | none => exact ite_self _
        | some v => rfl
    rw [List.any_cons, ← hor, ← htail]
    cases lines with
    | nil =>
      have hrest : EndsLine [] := .inl rfl
      have h := execFrom_line (hbreak l List.mem_cons_self) hrest
      rw [List.append_nil] at h
      rw [List.intercalate_singleton, h, hexec l List.mem_cons_self [] hrest]
      rfl
    | cons l' lines =>
      have hrest : EndsLine ('\n' :: ['\n'].intercalate (l' :: lines)) := .inr ⟨_, rfl⟩
      rw [List.intercalate_cons_cons, List.append_assoc, List.singleton_append,
        execFrom_line (hbreak l List.mem_cons_self) hrest, hexec l List.mem_cons_self _ hrest]
      rfl

end Lines

end Mise.System
