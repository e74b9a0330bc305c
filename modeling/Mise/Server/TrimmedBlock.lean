import Mise.Server.BlockText

set_option autoImplicit true

namespace Mise.Server

open Js

section Around

variable {w z : List Char} {mark k : List Char}

theorem cut_skip {c : Char} (h : c ∉ w) (k : List Char) : cut (c :: mark) (w ++ k) =
    (cut (c :: mark) k).map fun x => (w ++ x.1, x.2) := by
  induction w with
  | nil =>
    rw [List.nil_append]
    cases cut (c :: mark) k <;> rfl
  | cons d w ih =>
    have hno : ¬ (c :: mark).isPrefixOf (d :: (w ++ k)) = true := by
      rw [List.isPrefixOf_iff_prefix, List.cons_prefix_cons]
      exact fun hp => h (hp.1 ▸ List.mem_cons_self)
    rw [List.cons_append, cut, if_neg hno, ih fun hm => h (List.mem_cons_of_mem d hm)]
    cases cut (c :: mark) k <;> rfl

theorem cut_append (h : cut mark k = some (x, y)) (z : List Char) :
    cut mark (k ++ z) = some (x, y ++ z) := by
  induction k generalizing x with
  | nil =>
    rw [cut] at h
    split at h
    · next hm =>
      cases h
      rw [hm, List.nil_append]
      cases z with
      | nil => rfl
      | cons c z => rfl
    · cases h
  | cons c k ih =>
    rw [cut] at h
    rw [List.cons_append, cut]
    split at h
    · next hp =>
      cases h
      have hlen := (List.isPrefixOf_iff_prefix.1 hp).length_le
      have hq : mark.isPrefixOf (c :: (k ++ z)) = true := by
        rw [List.isPrefixOf_iff_prefix] at hp ⊢
        exact hp.trans (List.prefix_append (c :: k) z)
      rw [if_pos hq, ← List.cons_append, List.drop_append_of_le_length hlen]
    · next hp =>
      obtain ⟨⟨x', y'⟩, hk, he⟩ := Option.map_eq_some_iff.1 h
      cases he
      have hno : ¬ mark.isPrefixOf (c :: (k ++ z)) = true := by
        intro hq
        apply hp
        rw [List.isPrefixOf_iff_prefix] at hq ⊢
        have hlen : mark.length ≤ (c :: k).length := by
          rw [cut_some hk, List.length_cons, List.length_append, List.length_append]
          omega
        exact List.prefix_of_prefix_length_le hq (List.prefix_append (c :: k) z) hlen
      rw [if_neg hno, ih hk]
      rfl

/-- A text that ends in a character that is not in what follows it is no longer than that. -/
theorem prefix_of_last {a : List Char} {e : Char} (h : a ++ [e] <+: k ++ z) (he : e ∉ z) :
    a ++ [e] <+: k := by
  rcases Nat.lt_or_ge k.length (a ++ [e]).length with hlt | hle
  · exfalso
    apply he
    obtain ⟨r, hr⟩ := h
    have hget : (k ++ z)[a.length]? = some e := by
      rw [← hr, List.append_assoc, List.getElem?_append_right (Nat.le_refl _), Nat.sub_self]
      rfl
    rw [List.length_append, List.length_singleton] at hlt
    rw [List.getElem?_append_right (by omega)] at hget
    exact List.mem_of_getElem? hget
  · exact List.prefix_of_prefix_length_le h (List.prefix_append k z) hle

theorem cut_before_spaces {a : List Char} {e : Char} (he : e ∉ z)
    (h : cut (a ++ [e]) (k ++ z) = some (x, y)) :
    ∃ y', cut (a ++ [e]) k = some (x, y') ∧ y = y' ++ z := by
  have hne : a ++ [e] ≠ [] := List.append_ne_nil_of_right_ne_nil a (List.cons_ne_nil e [])
  have hpre : (x ++ a) ++ [e] <+: k ++ z := by
    rw [cut_some h, List.append_assoc x a]
    exact List.prefix_append _ _
  obtain ⟨r, hr⟩ := prefix_of_last hpre he
  have hin : (a ++ [e]) <:+: k := ⟨x, r, by rw [← hr, List.append_assoc x a]⟩
  cases hk : cut (a ++ [e]) k with
  | none => exact absurd hin ((cut_none_iff hne).1 hk)
  | some x' =>
    obtain ⟨x', y'⟩ := x'
    have hall := cut_append hk z
    rw [h] at hall
    cases hall
    exact ⟨y', rfl, rfl⟩

end Around

section Spaces

variable {w z : List Char}

theorem trim_split (s : String) : ∃ w z, s.toList = w ++ ((trim s).toList ++ z) ∧
    (∀ c ∈ w, isSpace c = true) ∧ (∀ c ∈ z, isSpace c = true) ∧
    ∀ c ∈ ((trim s).toList ++ z).head?, isSpace c = false := by
  have hspace {l : List Char} : ∀ c ∈ l.takeWhile isSpace, isSpace c = true := by
    intro c hc
    exact List.mem_takeWhile_imp hc
  have hstart : s.toList = s.toList.takeWhile isSpace ++ trimStart s.toList :=
    List.takeWhile_append_dropWhile.symm
  have hend : (trimStart s.toList) = (trim s).toList ++
      ((trimStart s.toList).reverse.takeWhile isSpace).reverse := by
    have h := congrArg List.reverse
      (List.takeWhile_append_dropWhile (p := isSpace) (l := (trimStart s.toList).reverse))
    rw [List.reverse_append, List.reverse_reverse] at h
    rw [trim, String.toList_ofList]
    exact h.symm
  refine ⟨s.toList.takeWhile isSpace, ((trimStart s.toList).reverse.takeWhile isSpace).reverse,
    ?_, hspace, fun c hc => hspace c (List.mem_reverse.1 hc), ?_⟩
  · rw [← hend]
    exact hstart
  · rw [← hend]
    exact trimStart_head _

theorem trimStart_spaces (h : ∀ c ∈ z, isSpace c = true) : trimStart z = [] :=
  List.dropWhile_eq_nil_iff.2 h

theorem word_spaces (h : ∀ c ∈ z, isSpace c = true) (k : List Char) : word (k ++ z) = word k := by
  have htake (l : List Char) : (l ++ z).takeWhile (!isSpace ·) = l.takeWhile (!isSpace ·) := by
    induction l with
    | nil =>
      cases z with
      | nil => rfl
      | cons c z => simp [h c List.mem_cons_self]
    | cons d l ih => rw [List.cons_append, List.takeWhile_cons, List.takeWhile_cons, ih]
  rw [word, trimStart_append, trimStart_spaces h]
  split
  · next hk => rw [word, hk]
  · exact htake _

theorem lineFeeds_subset (cs : List Char) : lineFeeds cs ⊆ cs := by
  induction cs using lineFeeds.induct with
  | case1 cs ih =>
    rw [lineFeeds]
    intro c hc
    rcases List.mem_cons.1 hc with rfl | hc
    · exact List.mem_cons_of_mem _ List.mem_cons_self
    · exact List.mem_cons_of_mem _ (List.mem_cons_of_mem _ (ih hc))
  | case2 c cs hno ih =>
    rw [lineFeeds]
    · exact List.cons_subset_cons c ih
    · exact hno
  | case3 => exact List.Subset.refl _

theorem lineFeeds_before {b : List Char} (h : b.head? ≠ some '\n') (a : List Char) :
    lineFeeds (a ++ b) = lineFeeds a ++ lineFeeds b := by
  induction a using lineFeeds.induct with
  | case1 cs ih =>
    rw [List.cons_append, List.cons_append, lineFeeds, ih, lineFeeds, List.cons_append]
  | case2 c cs hno ih =>
    rw [List.cons_append, lineFeeds, ih, lineFeeds, List.cons_append]
    · exact hno
    · intro cs' hc hcs
      cases cs with
      | nil =>
        rw [List.nil_append] at hcs
        rw [hcs] at h
        exact h rfl
      | cons d cs =>
        cases hcs
        exact hno cs hc rfl
  | case3 => rfl

theorem lineFeeds_trim (s : String) : ∃ w z, (∀ c ∈ w, isSpace c = true) ∧
    (∀ c ∈ z, isSpace c = true) ∧
    lineFeeds s.toList = w ++ (lineFeeds (trim s).toList ++ z) := by
  obtain ⟨w, z, hs, hw, hz, hhead⟩ := trim_split s
  refine ⟨lineFeeds w, lineFeeds z, fun c hc => hw c (lineFeeds_subset w hc),
    fun c hc => hz c (lineFeeds_subset z hc), ?_⟩
  have hlast : (trim s).toList.getLast? ≠ some '\r' := by
    intro hl
    have hspace := (trim_ends s).2
    rw [List.head?_reverse, hl] at hspace
    exact absurd (hspace '\r' rfl) (by decide)
  have hfeed : ((trim s).toList ++ z).head? ≠ some '\n' := by
    intro hn
    exact absurd (hhead '\n' hn) (by decide)
  rw [hs, lineFeeds_before hfeed, lineFeeds_append hlast]

end Spaces

section Parse

variable {w z k : List Char}

theorem not_space {c : Char} (hc : isSpace c = false) (h : ∀ d ∈ z, isSpace d = true) : c ∉ z := by
  intro hm
  rw [h c hm] at hc
  cases hc

theorem begin_mark : "BEGIN BITCOIN SIGNED MESSAGE-----\n".toList =
    'B' :: "EGIN BITCOIN SIGNED MESSAGE-----\n".toList := by
  decide +kernel

theorem close_mark : "\n-----BEGIN BITCOIN SIGNATURE".toList =
    "\n-----BEGIN BITCOIN SIGNATUR".toList ++ ['E'] := by
  decide +kernel

theorem address_mark : "Address:".toList = 'A' :: "ddress:".toList ∧
    "Address:".toList = "Address".toList ++ [':'] := by
  decide +kernel

theorem cut_spaces (hw : ∀ c ∈ w, isSpace c = true) (hz : ∀ c ∈ z, isSpace c = true)
    {x y : List Char × List Char}
    (hx : cut "BEGIN BITCOIN SIGNED MESSAGE-----\n".toList (w ++ (k ++ z)) = some x)
    (hy : cut "\n-----BEGIN BITCOIN SIGNATURE".toList x.2 = some y) :
    ∃ a b r, cut "BEGIN BITCOIN SIGNED MESSAGE-----\n".toList k = some (a, b) ∧
      cut "\n-----BEGIN BITCOIN SIGNATURE".toList b = some (y.1, r) := by
  have he : 'E' ∉ z := not_space (by decide) hz
  rw [begin_mark, cut_skip (not_space (by decide) hw), ← begin_mark] at hx
  obtain ⟨⟨a, inner⟩, ha, rfl⟩ := Option.map_eq_some_iff.1 hx
  dsimp only at hy
  rw [close_mark] at hy
  have hpre : (a ++ "BEGIN BITCOIN SIGNED MESSAGE-----\n".toList ++
      (y.1 ++ "\n-----BEGIN BITCOIN SIGNATUR".toList)) ++ ['E'] <+: k ++ z := by
    rw [cut_some ha, cut_some (x := y.1) (y := y.2) hy]
    exact ⟨y.2, by simp only [List.append_assoc]⟩
  obtain ⟨r, hr⟩ := prefix_of_last hpre he
  cases hk : cut "BEGIN BITCOIN SIGNED MESSAGE-----\n".toList k with
  | none =>
    refine absurd ⟨a, (y.1 ++ "\n-----BEGIN BITCOIN SIGNATUR".toList) ++ ['E'] ++ r, ?_⟩
      ((cut_none_iff (by decide)).1 hk)
    rw [← hr]
    simp only [List.append_assoc]
  | some b =>
    obtain ⟨a', b⟩ := b
    have hall := cut_append hk z
    rw [ha] at hall
    cases hall
    obtain ⟨r', hr', -⟩ := cut_before_spaces he hy
    refine ⟨a, b, r', rfl, ?_⟩
    rw [close_mark]
    exact hr'

theorem addressLine_spaces (hw : ∀ c ∈ w, isSpace c = true) (hz : ∀ c ∈ z, isSpace c = true)
    (h : addressLine (w ++ (k ++ z)) = some a) : addressLine k = some a := by
  rw [addressLine_eq, address_mark.1, cut_skip (not_space (by decide) hw), ← address_mark.1] at h
  obtain ⟨x, hx, ha⟩ := Option.bind_eq_some_iff.1 h
  obtain ⟨⟨u, v⟩, hu, rfl⟩ := Option.map_eq_some_iff.1 hx
  rw [address_mark.2] at hu
  obtain ⟨v', hv', rfl⟩ := cut_before_spaces (not_space (by decide) hz) hu
  rw [word_spaces hz] at ha
  rw [addressLine_eq, address_mark.2, hv']
  exact ha

/-- The text without the white space around it is read as before, but for the signature line, which
may have stood directly below that white space. -/
theorem parse_trim {text : String} {p : ParsedBlock} (h : parseSignedBlock text = some p) :
    parseSignedBlock (trim text) =
      (signatureLine (('\n' :: endMark).isPrefixOf ·) (lineFeeds (trim text).toList)).map fun s =>
        { p with signature := trim (String.ofList s) } := by
  obtain ⟨w, z, hw, hz, hsplit⟩ := lineFeeds_trim text
  unfold parseSignedBlock at h
  dsimp only at h
  rw [hsplit] at h
  obtain ⟨x, hx, h⟩ := Option.bind_eq_some_iff.1 h
  obtain ⟨y, hy, h⟩ := Option.bind_eq_some_iff.1 h
  obtain ⟨a, ha, h⟩ := Option.bind_eq_some_iff.1 h
  obtain ⟨s, -, h⟩ := Option.bind_eq_some_iff.1 h
  obtain ⟨u, v, r, hu, hv⟩ := cut_spaces hw hz hx hy
  unfold parseSignedBlock
  dsimp only
  rw [hu, Option.bind_eq_bind, Option.bind_some, hv, Option.bind_eq_bind, Option.bind_some,
    addressLine_spaces hw hz ha, Option.bind_some]
  cases h
  cases signatureLine (('\n' :: endMark).isPrefixOf ·) (lineFeeds (trim text).toList) with
  | none => rfl
  | some s' =>
    rw [Option.bind_some, Option.map_some]
    dsimp only
    rfl

end Parse

end Mise.Server
