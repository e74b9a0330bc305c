import Mise.Js.Replace

set_option autoImplicit true

namespace Mise.System

open Js

/-- `text.split("\n")` -/
def linesOf (text : Text) : List Text := text.splitOn '\n'

/-- How far both sides are moved on to line up again `k` lines ahead, if they do. The sides are what
is left of them: lines added, lines removed, or the same count changed in place. -/
def resync (as bs : List Text) (k : Nat) : Option (Nat × Nat) :=
  if k < bs.length ∧ as.head? = bs[k]? then some (0, k)
  else if k < as.length ∧ as[k]? = bs.head? then some (k, 0)
  else if k < as.length ∧ k < bs.length ∧ as[k]? = bs[k]? then some (k, k)
  else none

/-- The look-ahead: `for (; k < 40 && !sync; k++)` from 1. -/
def sync (as bs : List Text) : Option (Nat × Nat) := (List.range' 1 39).findSome? (resync as bs)

/-- `n || 1` -/
def orOne (n : Nat) : Nat := if n = 0 then 1 else n

def minus (line : Text) : Text := '-' :: ' ' :: line

def plus (line : Text) : Text := '+' :: ' ' :: line

/-- The loop, over what is left of both sides. -/
def hunks : Nat → List Text → List Text → List Text
  | 0, _, _ => []
  | fuel + 1, as, bs =>
    if as = [] ∧ bs = [] then []
    else if as ≠ [] ∧ as.head? = bs.head? then hunks fuel as.tail bs.tail
    else
      match sync as bs with
      | none => as.map minus ++ bs.map plus
      | some (di, dj) =>
        (as.take di).map minus ++ (bs.take dj).map plus ++
          hunks fuel (as.drop (orOne di)) (bs.drop (orOne dj))

/-- Every round moves one side on at least. -/
def unified (a b label : Text) : List Text :=
  let A := linesOf a
  let B := linesOf b
  ["--- installed  ".toList ++ label, "+++ shipped    ".toList ++ label] ++
    hunks (A.length + B.length) A B

/-- How often the loop lines the sides up by lines added only, and by lines removed only. -/
def oneSided : Nat → List Text → List Text → Nat × Nat
  | 0, _, _ => (0, 0)
  | fuel + 1, as, bs =>
    if as = [] ∧ bs = [] then (0, 0)
    else if as ≠ [] ∧ as.head? = bs.head? then oneSided fuel as.tail bs.tail
    else
      match sync as bs with
      | none => (0, 0)
      | some (di, dj) =>
        let later := oneSided fuel (as.drop (orOne di)) (bs.drop (orOne dj))
        (later.1 + if di = 0 then 1 else 0, later.2 + if dj = 0 then 1 else 0)

def removed (out : List Text) : List Text :=
  out.filterMap fun line => match line with
    | '-' :: ' ' :: l => some l
    | _ => none

def added (out : List Text) : List Text :=
  out.filterMap fun line => match line with
    | '+' :: ' ' :: l => some l
    | _ => none

/-- The lines of `all`, of which those of `printed` are printed and the others are `kept`. -/
inductive Shown : List Text → List Text → List Text → Prop
  | nil : Shown [] [] []
  | keep (l : Text) : Shown kept printed all → Shown (l :: kept) printed (l :: all)
  | print (l : Text) : Shown kept printed all → Shown kept (l :: printed) (l :: all)

/-- What is printed below the two heading lines tells both texts from what they have in common. -/
def Faithful (a b : List Text) (out : List Text) : Prop :=
  ∃ kept, Shown kept (removed out) a ∧ Shown kept (added out) b

section Lines

theorem Shown.length (h : Shown kept printed all) : all.length = kept.length + printed.length := by
  induction h with
  | nil => rfl
  | keep l _ ih =>
    rw [List.length_cons, List.length_cons, ih]
    omega
  | print l _ ih =>
    rw [List.length_cons, List.length_cons, ih]
    omega

theorem Shown.append_printed (h : Shown kept printed all) (l : List Text) :
    Shown kept (l ++ printed) (l ++ all) := by
  induction l with
  | nil => exact h
  | cons x l ih => exact .print x ih

theorem removed_append (x y : List Text) : removed (x ++ y) = removed x ++ removed y :=
  List.filterMap_append

theorem added_append (x y : List Text) : added (x ++ y) = added x ++ added y :=
  List.filterMap_append

theorem removed_minus (l : List Text) : removed (l.map minus) = l := by
  induction l with
  | nil => rfl
  | cons x l ih => exact congrArg (x :: ·) ih

theorem removed_plus (l : List Text) : removed (l.map plus) = [] := by
  induction l with
  | nil => rfl
  | cons x l ih => exact ih

theorem added_plus (l : List Text) : added (l.map plus) = l := by
  induction l with
  | nil => rfl
  | cons x l ih => exact congrArg (x :: ·) ih

theorem added_minus (l : List Text) : added (l.map minus) = [] := by
  induction l with
  | nil => rfl
  | cons x l ih => exact ih

end Lines

section Loop

theorem sync_cases (h : sync as bs = some (di, dj)) :
    (di = 0 ∧ 0 < dj ∧ dj < bs.length ∧ as ≠ []) ∨
    (0 < di ∧ dj = 0 ∧ di < as.length ∧ bs ≠ []) ∨
    (0 < di ∧ dj = di ∧ di < as.length ∧ dj < bs.length) := by
  obtain ⟨k, hk, hr⟩ := List.exists_of_findSome?_eq_some h
  have hpos : 0 < k := by
    rw [List.mem_range'_1] at hk
    omega
  rw [resync] at hr
  split at hr
  · next hb =>
    cases hr
    refine .inl ⟨rfl, hpos, hb.1, ?_⟩
    rintro rfl
    rw [List.getElem?_eq_getElem hb.1] at hb
    exact absurd hb.2 (Option.some_ne_none _).symm
  split at hr
  · next ha =>
    cases hr
    refine .inr (.inl ⟨hpos, rfl, ha.1, ?_⟩)
    rintro rfl
    rw [List.getElem?_eq_getElem ha.1] at ha
    exact absurd ha.2 (Option.some_ne_none _)
  split at hr
  · next hab =>
    cases hr
    exact .inr (.inr ⟨hpos, rfl, hab.1, hab.2.1⟩)
  · cases hr

theorem removed_hunk (x y l : List Text) :
    removed (x.map minus ++ y.map plus ++ l) = x ++ removed l := by
  rw [removed_append, removed_append, removed_minus, removed_plus, List.append_nil]

theorem added_hunk (x y l : List Text) : added (x.map minus ++ y.map plus ++ l) = y ++ added l := by
  rw [added_append, added_append, added_minus, added_plus, List.nil_append]

theorem Faithful.hunk {out : List Text} (h : Faithful as bs out) (x y : List Text) :
    Faithful (x ++ as) (y ++ bs) (x.map minus ++ y.map plus ++ out) := by
  obtain ⟨kept, ha, hb⟩ := h
  refine ⟨kept, ?_, ?_⟩
  · rw [removed_hunk]
    exact ha.append_printed x
  · rw [added_hunk]
    exact hb.append_printed y

theorem Faithful.nil : Faithful [] [] [] := ⟨[], .nil, .nil⟩

/-- Both sides are told from what they have in common where every difference lines up in place, or
runs to the end. -/
theorem hunks_faithful (hfuel : as.length + bs.length ≤ fuel) (h : oneSided fuel as bs = (0, 0)) :
    Faithful as bs (hunks fuel as bs) := by
  induction fuel generalizing as bs with
  | zero =>
    have ha : as = [] := List.length_eq_zero_iff.1 (by omega)
    have hb : bs = [] := List.length_eq_zero_iff.1 (by omega)
    subst ha hb
    exact .nil
  | succ fuel ih =>
    rw [oneSided] at h
    rw [hunks]
    split
    · next hnil =>
      obtain ⟨rfl, rfl⟩ := hnil
      exact .nil
    · next hnil =>
      rw [if_neg hnil] at h
      split
      · next heq =>
        rw [if_pos heq] at h
        cases as with
        | nil => exact absurd rfl heq.1
        | cons x as =>
          cases bs with
          | nil => cases heq.2
          | cons y bs =>
            have hxy : x = y := Option.some.inj heq.2
            subst hxy
            rw [List.length_cons, List.length_cons] at hfuel
            obtain ⟨kept, ha, hb⟩ := ih (by rw [List.tail_cons, List.tail_cons]; omega) h
            exact ⟨x :: kept, ha.keep x, hb.keep x⟩
      · next hne =>
        rw [if_neg hne] at h
        cases hsync : sync as bs with
        | none =>
          dsimp only
          have htail := Faithful.nil.hunk as bs
          rw [List.append_nil, List.append_nil, List.append_nil] at htail
          exact htail
        | some d =>
          obtain ⟨di, dj⟩ := d
          rw [hsync] at h
          dsimp only at h ⊢
          obtain ⟨rfl, -⟩ | ⟨-, rfl, -⟩ | ⟨hpos, rfl, ha, hb⟩ := sync_cases hsync
          · cases congrArg Prod.fst h
          · cases congrArg Prod.snd h
          · have hone : orOne dj = dj := if_neg (by omega)
            rw [if_neg (by omega), Nat.add_zero, Nat.add_zero, hone] at h
            rw [hone]
            have hrest := (ih (by rw [List.length_drop, List.length_drop]; omega) h).hunk
              (as.take dj) (bs.take dj)
            rw [List.take_append_drop, List.take_append_drop] at hrest
            exact hrest

/-- A side that is moved on without its lines being printed makes it the longer one. -/
theorem length_hunks (as bs : List Text) (hfuel : as.length + bs.length ≤ fuel) :
    as.length + (added (hunks fuel as bs)).length + (oneSided fuel as bs).2 =
      bs.length + (removed (hunks fuel as bs)).length + (oneSided fuel as bs).1 := by
  induction fuel generalizing as bs with
  | zero =>
    have ha : as = [] := List.length_eq_zero_iff.1 (by omega)
    have hb : bs = [] := List.length_eq_zero_iff.1 (by omega)
    subst ha hb
    rfl
  | succ fuel ih =>
    rw [oneSided, hunks]
    split
    · next hnil =>
      obtain ⟨rfl, rfl⟩ := hnil
      rfl
    · next hnil =>
      split
      · next heq =>
        cases as with
        | nil => exact absurd rfl heq.1
        | cons x as =>
          cases bs with
          | nil => cases heq.2
          | cons y bs =>
            rw [List.length_cons, List.length_cons] at hfuel
            have hrest := ih as bs (by omega)
            rw [List.length_cons, List.length_cons, List.tail_cons, List.tail_cons]
            omega
      · cases hsync : sync as bs with
        | none =>
          dsimp only
          rw [removed_append, added_append, removed_minus, removed_plus, added_minus, added_plus,
            List.append_nil, List.nil_append]
          omega
        | some d =>
          obtain ⟨di, dj⟩ := d
          dsimp only
          rw [removed_hunk, added_hunk, List.length_append, List.length_append, List.length_take,
            List.length_take]
          obtain ⟨rfl, hpos, hb, ha⟩ | ⟨hpos, rfl, ha, hb⟩ | ⟨hpos, rfl, ha, hb⟩ := sync_cases hsync
          · have ha := List.length_pos_of_ne_nil ha
            have hone : orOne dj = dj := if_neg (by omega)
            have hrest := ih (as.drop (orOne 0)) (bs.drop (orOne dj))
              (by rw [List.length_drop, List.length_drop, hone]; omega)
            rw [List.length_drop, List.length_drop, hone] at hrest
            rw [hone, if_pos rfl, if_neg (by omega)]
            have hzero : orOne 0 = 1 := rfl
            omega
          · have hb := List.length_pos_of_ne_nil hb
            have hone : orOne di = di := if_neg (by omega)
            have hrest := ih (as.drop (orOne di)) (bs.drop (orOne 0))
              (by rw [List.length_drop, List.length_drop, hone]; omega)
            rw [List.length_drop, List.length_drop, hone] at hrest
            rw [hone, if_pos rfl, if_neg (by omega)]
            have hzero : orOne 0 = 1 := rfl
            omega
          · have hone : orOne dj = dj := if_neg (by omega)
            have hrest := ih (as.drop (orOne dj)) (bs.drop (orOne dj))
              (by rw [List.length_drop, List.length_drop, hone]; omega)
            rw [List.length_drop, List.length_drop, hone] at hrest
            rw [hone, if_neg (by omega)]
            omega

end Loop

/-- How often the diff of two texts lines them up on one side only. -/
def oneSidedIn (a b : Text) : Nat × Nat :=
  oneSided ((linesOf a).length + (linesOf b).length) (linesOf a) (linesOf b)

/-- The diff is faithful where the texts are never lined up on one side only, and it is not where they
are more often on one side than on the other. -/
theorem unified_faithful (a b label : Text) :
    (oneSidedIn a b = (0, 0) → Faithful (linesOf a) (linesOf b) ((unified a b label).drop 2)) ∧
    (Faithful (linesOf a) (linesOf b) ((unified a b label).drop 2) →
      (oneSidedIn a b).1 = (oneSidedIn a b).2) := by
  constructor
  · intro h
    exact hunks_faithful (Nat.le_refl _) h
  · rintro ⟨kept, ha, hb⟩
    have hlen := length_hunks (linesOf a) (linesOf b) (Nat.le_refl _)
    have ha : (linesOf a).length = kept.length + (removed (hunks _ (linesOf a) (linesOf b))).length :=
      ha.length
    have hb : (linesOf b).length = kept.length + (added (hunks _ (linesOf a) (linesOf b))).length :=
      hb.length
    show (oneSided _ _ _).1 = (oneSided _ _ _).2
    omega

/-- A line that is added before another makes the other one look added too. -/
theorem added_line_unfaithful :
    ¬ Faithful (linesOf "x".toList) (linesOf "y\nx".toList)
      ((unified "x".toList "y\nx".toList "unit".toList).drop 2) := by
  rintro ⟨kept, ha, hb⟩
  have ha := ha.length
  have hb := hb.length
  have hvalues : (linesOf "x".toList).length = 1 ∧ (linesOf "y\nx".toList).length = 2 ∧
      (removed ((unified "x".toList "y\nx".toList "unit".toList).drop 2)).length = 0 ∧
      (added ((unified "x".toList "y\nx".toList "unit".toList).drop 2)).length = 2 := by
    decide +kernel
  omega

end Mise.System
