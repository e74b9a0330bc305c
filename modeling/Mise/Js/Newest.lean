import Mathlib.Data.List.Dedup
import Mathlib.Data.List.DropRight
import Mathlib.Data.List.Perm.Basic
import Mathlib.Order.Lattice
import Mise.Js.Map

set_option autoImplicit true

namespace Mise.Js

section Rows

variable {κ ρ : Type} [LinearOrder κ] (key : ρ → Option κ)

/-- Every row has a key, and the keys increase. -/
structure Ascending (l : List ρ) : Prop where
  keyed : ∀ r ∈ l, ∃ k, key r = some k
  increasing : l.Pairwise fun x y => ∀ a b, key x = some a → key y = some b → a < b

/-- The last row of the list that has the key. -/
def lastAt (l : List ρ) (k : κ) : Option ρ := l.reverse.find? fun r => key r = some k

/-- One row of the list for each key, the last there is of it, in the order of the keys. -/
structure IsUnion (l all : List ρ) : Prop where
  ascending : Ascending key all
  mem : ∀ r, r ∈ all ↔ ∃ k, lastAt key l k = some r

def atMost (x y : ρ) : Bool :=
  match key x, key y with
  | none, _ => true
  | some _, none => false
  | some a, some b => decide (a ≤ b)

/-- The rows that have a key, set one after the other under it, and sorted by it. -/
def united (l : List ρ) : List ρ :=
  let rows := l.filterMap fun r => (key r).map fun k => (k, r)
  (Map.setAll Prod.fst Prod.snd rows ({} : Map κ ρ)).values.mergeSort (atMost key)

variable {key}

theorem Ascending.sublist (h : Ascending key l) (hs : List.Sublist l' l) : Ascending key l' where
  keyed r hr := h.keyed r (hs.subset hr)
  increasing := h.increasing.sublist hs

theorem lastAt_key (h : lastAt key l k = some r) : key r = some k := by
  have hp := List.find?_some h
  exact of_decide_eq_true hp

theorem lastAt_mem (h : lastAt key l k = some r) : r ∈ l :=
  List.mem_reverse.1 (List.mem_of_find?_eq_some h)

theorem lastAt_append (l l' : List ρ) (k : κ) :
    lastAt key (l ++ l') k = (lastAt key l' k).or (lastAt key l k) := by
  rw [lastAt, List.reverse_append, List.find?_append]
  rfl

theorem lastAt_none (h : ∀ r ∈ l, key r ≠ some k) : lastAt key l k = none := by
  rw [lastAt, List.find?_eq_none]
  intro r hr hk
  exact h r (List.mem_reverse.1 hr) (of_decide_eq_true hk)

theorem Ascending.inj (h : Ascending key l) (hx : x ∈ l) (hy : y ∈ l) (hxk : key x = some k)
    (hyk : key y = some k) : x = y := by
  induction l with
  | nil => cases hx
  | cons z l ih =>
    have hz := List.pairwise_cons.1 h.increasing
    rcases List.mem_cons.1 hx with rfl | hxl
    · rcases List.mem_cons.1 hy with rfl | hyl
      · rfl
      · exact absurd (hz.1 y hyl k k hxk hyk) (lt_irrefl k)
    · rcases List.mem_cons.1 hy with rfl | hyl
      · exact absurd (hz.1 x hxl k k hyk hxk) (lt_irrefl k)
      · exact ih (h.sublist (List.sublist_cons_self z l)) hxl hyl

theorem lastAt_of_mem (hr : r ∈ l) (hk : key r = some k) : ∃ r', lastAt key l k = some r' := by
  cases hl : lastAt key l k with
  | none =>
    rw [lastAt, List.find?_eq_none] at hl
    exact absurd (decide_eq_true hk) (hl r (List.mem_reverse.2 hr))
  | some r' => exact ⟨r', rfl⟩

theorem Ascending.lastAt (h : Ascending key l) :
    lastAt key l k = some r ↔ r ∈ l ∧ key r = some k := by
  constructor
  · intro hr
    exact ⟨lastAt_mem hr, lastAt_key hr⟩
  · rintro ⟨hr, hk⟩
    obtain ⟨r', hr'⟩ := lastAt_of_mem hr hk
    rw [hr', h.inj hr (lastAt_mem hr') hk (lastAt_key hr')]

theorem Ascending.nodup (h : Ascending key l) : l.Nodup := by
  apply List.Pairwise.imp_of_mem _ h.increasing
  intro x y hx _ hlt heq
  subst heq
  obtain ⟨k, hk⟩ := h.keyed x hx
  exact lt_irrefl k (hlt k k hk hk)

theorem Ascending.eq_of_mem (h : Ascending key l) (h' : Ascending key l') (hmem : ∀ r, r ∈ l ↔ r ∈ l') :
    l = l' := by
  have hp : l.Perm l' := (List.perm_ext_iff_of_nodup h.nodup h'.nodup).2 hmem
  apply List.Perm.eq_of_pairwise _ h.increasing h'.increasing hp
  intro x y hx hy hxy hyx
  obtain ⟨a, ha⟩ := h.keyed x hx
  obtain ⟨b, hb⟩ := h'.keyed y hy
  exact absurd (hyx b a hb ha) (lt_asymm (hxy a b ha hb))

theorem IsUnion.unique (h : IsUnion key l all) (h' : IsUnion key l all') : all = all' :=
  h.ascending.eq_of_mem h'.ascending fun r => (h.mem r).trans (h'.mem r).symm

theorem IsUnion.lastAt (h : IsUnion key l all) (k : κ) : lastAt key all k = lastAt key l k := by
  apply Option.ext
  intro r
  rw [h.ascending.lastAt, h.mem]
  constructor
  · rintro ⟨⟨k', hk'⟩, hk⟩
    have heq : k' = k := Option.some.inj ((lastAt_key hk').symm.trans hk)
    exact heq ▸ hk'
  · intro hr
    exact ⟨⟨k, hr⟩, lastAt_key hr⟩

theorem IsUnion.congr (h : IsUnion key l all) (hl : ∀ k, Js.lastAt key l k = Js.lastAt key l' k) :
    IsUnion key l' all where
  ascending := h.ascending
  mem r := by
    rw [h.mem]
    exact ⟨fun ⟨k, hk⟩ => ⟨k, hl k ▸ hk⟩, fun ⟨k, hk⟩ => ⟨k, (hl k).symm ▸ hk⟩⟩

theorem Ascending.isUnion (h : Ascending key l) : IsUnion key l l where
  ascending := h
  mem r := by
    constructor
    · intro hr
      obtain ⟨k, hk⟩ := h.keyed r hr
      exact ⟨k, h.lastAt.2 ⟨hr, hk⟩⟩
    · rintro ⟨k, hk⟩
      exact lastAt_mem hk

theorem atMost_trans (x y z : ρ) (hxy : atMost key x y = true) (hyz : atMost key y z = true) :
    atMost key x z = true := by
  rw [atMost] at *
  cases hx : key x with
  | none => rfl
  | some a =>
    rw [hx] at hxy
    cases hy : key y with
    | none => rw [hy] at hxy; cases hxy
    | some b =>
      rw [hy] at hxy hyz
      cases hz : key z with
      | none => rw [hz] at hyz; cases hyz
      | some c =>
        rw [hz] at hyz
        exact decide_eq_true ((of_decide_eq_true hxy).trans (of_decide_eq_true hyz))

theorem atMost_total (x y : ρ) : (atMost key x y || atMost key y x) = true := by
  rw [atMost, atMost]
  cases key x with
  | none => rfl
  | some a =>
    cases key y with
    | none => rfl
    | some b =>
      rw [Bool.or_eq_true]
      exact (le_total a b).imp decide_eq_true decide_eq_true

theorem get_rows (l : List ρ) (k : κ) :
    (Map.setAll Prod.fst Prod.snd (l.filterMap fun r => (key r).map fun k => (k, r))
      ({} : Map κ ρ)).get k = lastAt key l k := by
  have hfind : ((l.filterMap fun r => (key r).map fun k => (k, r)).reverse.find? fun x => x.1 = k) =
      (l.reverse.find? fun r => key r = some k).bind fun r => (key r).map fun k => (k, r) := by
    rw [← List.filterMap_reverse, List.find?_filterMap]
    congr 1
    apply congrArg (List.find? · l.reverse)
    funext r
    cases key r with
    | none => rfl
    | some a =>
      show decide (a = k) = decide (some a = some k)
      rw [decide_eq_decide]
      exact Option.some_inj.symm
  rw [Map.get_setAll, hfind, Map.get_empty, Option.or_none, lastAt]
  cases hr : l.reverse.find? fun r => key r = some k with
  | none => rfl
  | some r =>
    have hk : key r = some k := lastAt_key hr
    rw [Option.bind_some, hk]
    rfl

theorem mem_united : r ∈ united key l ↔ ∃ k, lastAt key l k = some r := by
  rw [united, List.mem_mergeSort, Map.values, List.mem_map]
  constructor
  · rintro ⟨⟨k, r⟩, hx, rfl⟩
    exact ⟨k, by rw [← get_rows, Map.get_eq_some]; exact hx⟩
  · rintro ⟨k, hk⟩
    rw [← get_rows, Map.get_eq_some] at hk
    exact ⟨(k, r), hk, rfl⟩

theorem united_ascending (l : List ρ) : Ascending key (united key l) where
  keyed r hr := by
    obtain ⟨k, hk⟩ := mem_united.1 hr
    exact ⟨k, lastAt_key hk⟩
  increasing := by
    generalize hm : Map.setAll Prod.fst Prod.snd (l.filterMap fun r => (key r).map fun k => (k, r))
      ({} : Map κ ρ) = m
    have hkey : ∀ x ∈ m.entries, key x.2 = some x.1 := by
      intro x hx
      have hget : m.get x.1 = some x.2 := Map.get_eq_some.2 hx
      rw [← hm, get_rows] at hget
      exact lastAt_key hget
    have hne : m.values.Pairwise fun x y => key x ≠ key y := by
      rw [Map.values, List.pairwise_map]
      apply (List.pairwise_map.1 m.nodup).imp_of_mem
      intro x y hx hy hxy heq
      rw [hkey x hx, hkey y hy] at heq
      exact hxy (Option.some.inj heq)
    have hsort : (m.values.mergeSort (atMost key)).Pairwise fun x y => atMost key x y = true :=
      List.pairwise_mergeSort atMost_trans atMost_total m.values
    have hdiff : (m.values.mergeSort (atMost key)).Pairwise fun x y => key x ≠ key y :=
      (List.mergeSort_perm _ _).symm.pairwise hne fun hxy => hxy.symm
    have hall : united key l = m.values.mergeSort (atMost key) := by rw [united, hm]
    rw [hall]
    apply (hsort.and hdiff).imp
    rintro x y ⟨hle, hxy⟩ a b ha hb
    rw [atMost, ha, hb] at hle
    apply lt_of_le_of_ne (of_decide_eq_true hle)
    rintro rfl
    exact hxy (ha.trans hb.symm)

theorem united_isUnion (key : ρ → Option κ) (l : List ρ) : IsUnion key l (united key l) where
  ascending := united_ascending l
  mem _ := mem_united

section Trim

theorem rtake_append_right {x y : List ρ} (h : w ≤ y.length) : (x ++ y).rtake w = y.rtake w := by
  have hlen : (x ++ y).length - w = x.length + (y.length - w) := by
    rw [List.length_append]
    omega
  rw [List.rtake, hlen, ← List.drop_drop, List.drop_left, List.rtake]

theorem length_rtake (l : List ρ) (w : Nat) : (l.rtake w).length = min w l.length := by
  rw [List.rtake, List.length_drop]
  omega

theorem rtake_all (h : l.length ≤ w) : (l : List ρ).rtake w = l := by
  rw [List.rtake, Nat.sub_eq_zero_of_le h]
  rfl

/-- Rows in order are those with a small key before those with a great one. -/
theorem Ascending.split (h : Ascending key l) (m : κ) :
    ∃ x, l = x ++ l.filter fun r => (key r).any fun k => decide (m ≤ k) := by
  refine ⟨l.filter fun r => !(key r).any fun k => decide (m ≤ k), ?_⟩
  have hp := (List.filter_append_perm (fun r => !(key r).any fun k => decide (m ≤ k)) l).symm
  simp only [Bool.not_not] at hp
  apply List.Perm.eq_of_pairwise _ h.increasing _ hp
  · intro x y hx hy hxy hyx
    obtain ⟨a, ha⟩ := h.keyed x hx
    obtain ⟨b, hb⟩ := h.keyed y (hp.mem_iff.2 hy)
    exact absurd (hyx b a hb ha) (lt_asymm (hxy a b ha hb))
  · rw [List.pairwise_append]
    refine ⟨h.increasing.sublist List.filter_sublist, h.increasing.sublist List.filter_sublist, ?_⟩
    intro x hx y hy a b ha hb
    have hsmall := (List.mem_filter.1 hx).2
    have hgreat := (List.mem_filter.1 hy).2
    rw [ha, Option.any_some, Bool.not_eq_true', decide_eq_false_iff_not] at hsmall
    rw [hb, Option.any_some] at hgreat
    exact lt_of_lt_of_le (not_le.1 hsmall) (of_decide_eq_true hgreat)

/-- Cutting the rows that are added to does not change which are the newest of all. -/
theorem rtake_united_append (t l : List ρ) (w : Nat) :
    (united key (t ++ (united key l).rtake w)).rtake w = (united key (t ++ l)).rtake w := by
  have hS := united_isUnion key l
  have hA := united_isUnion key (t ++ l)
  have hB := united_isUnion key (t ++ (united key l).rtake w)
  have hsplit : united key l = (united key l).take ((united key l).length - w) ++
      (united key l).rtake w := (List.take_append_drop _ _).symm
  generalize united key l = S at hS hB hsplit
  generalize united key (t ++ l) = A at hA
  generalize united key (t ++ S.rtake w) = B at hB
  by_cases hlen : S.length ≤ w
  · rw [rtake_all hlen] at hB
    have heq : B = A := by
      apply hB.unique
      apply hA.congr
      intro k
      rw [lastAt_append, lastAt_append, hS.lastAt]
    rw [heq]
  · have hN : (S.rtake w).length = w := by
      rw [length_rtake]
      omega
    generalize S.rtake w = N at hB hsplit hN
    generalize S.take (S.length - w) = P at hsplit
    cases N with
    | nil =>
      cases hN
      rw [List.length_nil, List.rtake_zero, List.rtake_zero]
    | cons n N =>
      have hNorder : Ascending key (n :: N) := hS.ascending.sublist (hsplit ▸ List.sublist_append_right _ _)
      obtain ⟨m, hm⟩ := hNorder.keyed n List.mem_cons_self
      have hPsmall : ∀ r ∈ P, ∀ k, key r = some k → k < m := by
        intro r hr k hk
        have hpair := hS.ascending.increasing
        rw [hsplit, List.pairwise_append] at hpair
        exact hpair.2.2 r hr n List.mem_cons_self k m hk hm
      have hNgreat : ∀ r ∈ n :: N, ∀ k, key r = some k → m ≤ k := by
        intro r hr k hk
        rcases List.mem_cons.1 hr with rfl | hr
        · exact le_of_eq (Option.some.inj (hm.symm.trans hk))
        · exact le_of_lt ((List.pairwise_cons.1 hNorder.increasing).1 r hr m k hm hk)
      have hlast : ∀ k, m ≤ k → lastAt key (t ++ (n :: N)) k = lastAt key (t ++ l) k := by
        intro k hk
        rw [lastAt_append, lastAt_append, ← hS.lastAt, hsplit, lastAt_append P,
          lastAt_none fun r hr hrk => absurd (hPsmall r hr k hrk) (not_lt.2 hk), Option.or_none]
      have hfilter : (A.filter fun r => (key r).any fun k => decide (m ≤ k)) =
          B.filter fun r => (key r).any fun k => decide (m ≤ k) := by
        apply (hA.ascending.sublist List.filter_sublist).eq_of_mem
          (hB.ascending.sublist List.filter_sublist)
        intro r
        rw [List.mem_filter, List.mem_filter, hA.mem, hB.mem]
        constructor
        · rintro ⟨⟨k, hk⟩, hr⟩
          rw [lastAt_key hk, Option.any_some] at hr
          exact ⟨⟨k, (hlast k (of_decide_eq_true hr)).trans hk⟩, by rw [lastAt_key hk]; exact hr⟩
        · rintro ⟨⟨k, hk⟩, hr⟩
          rw [lastAt_key hk, Option.any_some] at hr
          exact ⟨⟨k, (hlast k (of_decide_eq_true hr)).symm.trans hk⟩, by rw [lastAt_key hk]; exact hr⟩
      have hw : w ≤ (B.filter fun r => (key r).any fun k => decide (m ≤ k)).length := by
        rw [← hN]
        apply List.Subperm.length_le
        apply List.subperm_of_subset hNorder.nodup
        intro r hr
        obtain ⟨k, hk⟩ := hNorder.keyed r hr
        rw [List.mem_filter, hB.mem]
        refine ⟨⟨k, ?_⟩, ?_⟩
        · rw [lastAt_append, hNorder.lastAt.2 ⟨hr, hk⟩]
          rfl
        · rw [hk]
          exact decide_eq_true (hNgreat r hr k hk)
      obtain ⟨x, hx⟩ := hA.ascending.split m
      obtain ⟨y, hy⟩ := hB.ascending.split m
      rw [hx, hy, hfilter, rtake_append_right hw, rtake_append_right hw]

/-- Rows that are added to those there are, of which the newest stay. -/
def addNewest (key : ρ → Option κ) (w : Nat) (l t : List ρ) : List ρ :=
  if t.isEmpty then l else (united key (t ++ l)).rtake w

theorem foldl_addNewest (w : Nat) (l : List ρ) (ts : List (List ρ)) :
    ts.foldl (addNewest key w) l =
      if ts.all List.isEmpty then l else (united key (ts.reverse.flatten ++ l)).rtake w := by
  induction ts using List.reverseRecOn with
  | nil => rfl
  | append_singleton ts t ih =>
    rw [List.foldl_append, List.foldl_cons, List.foldl_nil, ih, List.reverse_append,
      List.reverse_singleton, List.singleton_append, List.flatten_cons, List.all_append,
      List.all_cons, List.all_nil, Bool.and_true, addNewest]
    cases t with
    | nil =>
      rw [List.isEmpty_nil, if_pos rfl, Bool.and_true, List.nil_append]
    | cons r t =>
      rw [List.isEmpty_cons, if_neg Bool.false_ne_true, Bool.and_false, if_neg Bool.false_ne_true,
        List.append_assoc]
      by_cases hts : ts.all List.isEmpty = true
      · have hnil : ts.reverse.flatten = [] := by
          rw [List.flatten_eq_nil_iff]
          intro l hl
          exact List.isEmpty_iff.1 (List.all_eq_true.1 hts l (List.mem_reverse.1 hl))
        rw [if_pos hts, hnil, List.nil_append]
      · rw [if_neg hts, rtake_united_append]

theorem Ascending.united (h : Ascending key l) : united key l = l :=
  (united_isUnion key l).unique h.isUnion

theorem length_united (l : List ρ) : (united key l).length = (l.filterMap key).dedup.length := by
  have h := united_isUnion key l
  have hkeys : ((united key l).filterMap key).length = (united key l).length := by
    rw [List.length_filterMap_eq_countP, List.countP_eq_length]
    intro r hr
    obtain ⟨k, hk⟩ := h.ascending.keyed r hr
    rw [hk]
    rfl
  have hnodup : ((united key l).filterMap key).Nodup := by
    apply (List.pairwise_filterMap.2 (h.ascending.increasing.imp _)).imp ne_of_lt
    intro x y hxy a ha b hb
    exact hxy a b ha hb
  rw [← hkeys]
  apply List.Perm.length_eq
  rw [List.perm_ext_iff_of_nodup hnodup (List.nodup_dedup _)]
  intro k
  rw [List.mem_dedup, List.mem_filterMap, List.mem_filterMap]
  constructor
  · rintro ⟨r, hr, hk⟩
    obtain ⟨k', hk'⟩ := (h.mem r).1 hr
    exact ⟨r, lastAt_mem hk', hk⟩
  · rintro ⟨r, hr, hk⟩
    obtain ⟨r', hr'⟩ := lastAt_of_mem hr hk
    exact ⟨r', (h.mem r').2 ⟨k, hr'⟩, lastAt_key hr'⟩

/-- A row gives way only to as many newer ones as are kept. -/
theorem IsUnion.dropped (h : IsUnion key l all) (w : Nat) (hr : r ∈ l) (hk : key r = some k) :
    (∃ r' ∈ all.rtake w, key r' = some k) ∨
      w ≤ (all.rtake w).length ∧ ∀ r' ∈ all.rtake w, ∃ b, key r' = some b ∧ k < b := by
  obtain ⟨r₁, hr₁⟩ := lastAt_of_mem hr hk
  have hmem : r₁ ∈ all := (h.mem r₁).2 ⟨k, hr₁⟩
  have hsplit : all = all.take (all.length - w) ++ all.rtake w := (List.take_append_drop _ _).symm
  rw [hsplit, List.mem_append] at hmem
  rcases hmem with hold | hnew
  · right
    have hlen : w ≤ (all.rtake w).length := by
      have hpos := List.length_pos_of_mem hold
      rw [List.length_take] at hpos
      rw [length_rtake]
      omega
    refine ⟨hlen, ?_⟩
    intro r' hr'
    have hr'all : r' ∈ all := by
      rw [hsplit]
      exact List.mem_append_right _ hr'
    obtain ⟨b, hb⟩ := h.ascending.keyed r' hr'all
    have hpair := h.ascending.increasing
    rw [hsplit, List.pairwise_append] at hpair
    exact ⟨b, hb, hpair.2.2 r₁ hold r' hr' k b (lastAt_key hr₁) hb⟩
  · exact .inl ⟨r₁, hnew, lastAt_key hr₁⟩

end Trim

end Rows

end Mise.Js
