import Mathlib.Algebra.GroupWithZero.Nat
import Mathlib.Order.PiLex
import Mise.Js.Replace

set_option autoImplicit true

namespace Mise.Server

open Js

/-- The number that an integer literal denotes: 53 binary digits of it, or `none` where it is infinite. -/
def double (n : Nat) : Option Nat :=
  let e := n.log2 - 52
  let q := n / 2 ^ e
  let r := n % 2 ^ e
  let q := if 2 ^ e < 2 * r ∨ (2 * r = 2 ^ e ∧ q % 2 = 1) then q + 1 else q
  if q * 2 ^ e < 2 ^ 1024 then some (q * 2 ^ e) else none

/-- `Number(digits)` -/
def numberOf (digits : Text) : Option Nat :=
  double (digits.foldl (fun n c => n * 10 + (c.toNat - 48)) 0)

/-- What `/^(\d+(?:\.\d+)*)/` finds, at its points. -/
def components (s : Text) : List Text :=
  ((s.takeWhile fun c => c.isDigit || c = '.').splitOn '.').takeWhile (· ≠ [])

def parseVersion : Option Json → Option (List Nat)
  | some (.str v) =>
    let s := trimmed v.toList
    let parts := components (if s.head? = some 'v' ∨ s.head? = some 'V' then s.tail else s)
    if parts = [] then none else parts.mapM numberOf
  | _ => none

/-- The loop of `compareVersions`, from the `i`th component on. -/
def compareFrom (x y : List Nat) : Nat → Nat → Int
  | 0, _ => 0
  | n + 1, i =>
    let d : Int := (x.getD i 0 : Int) - y.getD i 0
    if d ≠ 0 then (if 0 < d then 1 else -1) else compareFrom x y n (i + 1)

def compareVersions (a b : Option Json) : Int :=
  let x := (parseVersion a).getD []
  let y := (parseVersion b).getD []
  compareFrom x y (max x.length y.length) 0

/-- The minimum is no version, or not above 0. -/
def uncheckedMinimum (minimum : String) : Bool :=
  minimum = "" || compareVersions (some (.str minimum)) (some (.str "0")) = 0

def meetsMinimum (version : Option Json) (minimum : String) : Bool :=
  uncheckedMinimum minimum || 0 ≤ compareVersions version (some (.str minimum))

inductive VersionSource where
  | detected
  | declared

structure VersionJudgement where
  ok : Bool
  version : Option Json
  source : Option VersionSource
  reason : Option String := none

/-- The version that is judged, and where it comes from: what the node itself has reported first. -/
def reported (detected declared : Option Json) : Option (Json × VersionSource) :=
  if (parseVersion detected).isSome then detected.map (·, .detected)
  else if (parseVersion declared).isSome then declared.map (·, .declared)
  else none

def judgeVersion (detected declared : Option Json) (minimum : String) : VersionJudgement :=
  if uncheckedMinimum minimum then
    { ok := true
      version := detected.filter Json.truthy <|> declared.filter Json.truthy
      source := if truthy detected then some .detected
        else if truthy declared then some .declared else none }
  else
    match reported detected declared with
    | none =>
      { ok := false, version := none, source := none
        reason := some ("this Dojo did not report a version, so it cannot be checked against the minimum of " ++
          minimum ++ ". Dojo has sent an X-Dojo-Version header on every response since well before that, so " ++
          "a node that sends none is almost certainly older. Upgrade, then submit again.") }
    | some (version, source) =>
      if !meetsMinimum (some version) minimum then
        { ok := false, version := some version, source := some source
          reason := some ("this Dojo reports version " ++ (version.text.toOption.getD "") ++
            ", and this directory requires " ++ minimum ++ " or newer. Earlier versions do not serve the " ++
            "endpoints listings are checked against. Upgrade, then submit again.") }
      else { ok := true, version := some version, source := some source }

/-- The components of a version, of which the missing ones are 0, in lexicographic order. -/
def order (v : Option Json) : Lex (ℕ → ℕ) := toLex fun i => ((parseVersion v).getD []).getD i 0

section Order

variable {x y : List Nat} {n i : Nat} {a b : Option Json}

/-- The first component from the `i`th on that is less in `x`. -/
def LessAt (x y : List Nat) (i k : Nat) : Prop :=
  i ≤ k ∧ x.getD k 0 < y.getD k 0 ∧ ∀ j, i ≤ j → j < k → x.getD j 0 = y.getD j 0

theorem LessAt.next (h : LessAt x y (i + 1) k) (hi : x.getD i 0 = y.getD i 0) : LessAt x y i k := by
  refine ⟨Nat.le_of_succ_le h.1, h.2.1, fun j hij hjk => ?_⟩
  rcases Nat.eq_or_lt_of_le hij with rfl | hij
  · exact hi
  · exact h.2.2 j hij hjk

theorem compareFrom_cases (x y : List Nat) (n i : Nat) :
    (compareFrom x y n i = 0 ∧ ∀ j, i ≤ j → j < i + n → x.getD j 0 = y.getD j 0) ∨
      (compareFrom x y n i = 1 ∧ ∃ k, LessAt y x i k) ∨ (compareFrom x y n i = -1 ∧ ∃ k, LessAt x y i k) := by
  induction n generalizing i with
  | zero =>
    left
    refine ⟨rfl, fun j hi hj => ?_⟩
    omega
  | succ n ih =>
    have hself : ∀ j, i ≤ j → j < i → x.getD j 0 = y.getD j 0 := fun j hi hj => absurd hj (Nat.not_lt.2 hi)
    rw [compareFrom]
    split
    · next hd =>
      split
      · next hpos =>
        refine .inr (.inl ⟨rfl, i, Nat.le_refl i, by omega, fun j hi hj => (hself j hi hj).symm⟩)
      · next hneg => exact .inr (.inr ⟨rfl, i, Nat.le_refl i, by omega, hself⟩)
    · next hd =>
      have heq : x.getD i 0 = y.getD i 0 := by omega
      rcases ih (i + 1) with ⟨hc, h⟩ | ⟨hc, k, h⟩ | ⟨hc, k, h⟩
      · refine .inl ⟨hc, fun j hij hj => ?_⟩
        rcases Nat.eq_or_lt_of_le hij with rfl | hij
        · exact heq
        · exact h j hij (by omega)
      · exact .inr (.inl ⟨hc, k, h.next heq.symm⟩)
      · exact .inr (.inr ⟨hc, k, h.next heq⟩)

theorem order_lt (h : LessAt ((parseVersion a).getD []) ((parseVersion b).getD []) 0 k) : order a < order b :=
  ⟨k, fun j hj => h.2.2 j (Nat.zero_le j) hj, h.2.1⟩

theorem order_eq (h : ∀ j, j < max ((parseVersion a).getD []).length ((parseVersion b).getD []).length →
    ((parseVersion a).getD []).getD j 0 = ((parseVersion b).getD []).getD j 0) : order a = order b := by
  apply congrArg toLex
  funext j
  by_cases hj : j < max ((parseVersion a).getD []).length ((parseVersion b).getD []).length
  · exact h j hj
  · have hnone : ∀ l : List Nat, l.length ≤ j → l.getD j 0 = 0 := fun l hl => by
      rw [List.getD_eq_getElem?_getD, List.getElem?_eq_none hl, Option.getD_none]
    rw [hnone _ (by omega), hnone _ (by omega)]

theorem compareVersions_cases (a b : Option Json) : (compareVersions a b = 0 ∧ order a = order b) ∨
    (compareVersions a b = 1 ∧ order b < order a) ∨ (compareVersions a b = -1 ∧ order a < order b) := by
  rcases compareFrom_cases ((parseVersion a).getD []) ((parseVersion b).getD [])
    (max ((parseVersion a).getD []).length ((parseVersion b).getD []).length) 0 with
      ⟨hc, h⟩ | ⟨hc, k, h⟩ | ⟨hc, k, h⟩
  · exact .inl ⟨hc, order_eq fun j hj => h j (Nat.zero_le j) (by omega)⟩
  · exact .inr (.inl ⟨hc, order_lt h⟩)
  · exact .inr (.inr ⟨hc, order_lt h⟩)

theorem compareVersions_neg : compareVersions a b = -1 ↔ order a < order b := by
  rcases compareVersions_cases a b with ⟨hc, h⟩ | ⟨hc, h⟩ | ⟨hc, h⟩
  · rw [hc, h]
    exact iff_of_false (by decide) (lt_irrefl _)
  · rw [hc]
    exact iff_of_false (by decide) (lt_asymm h)
  · rw [hc]
    exact iff_of_true rfl h

theorem compareVersions_zero : compareVersions a b = 0 ↔ order a = order b := by
  rcases compareVersions_cases a b with ⟨hc, h⟩ | ⟨hc, h⟩ | ⟨hc, h⟩
  · rw [hc]
    exact iff_of_true rfl h
  · rw [hc]
    exact iff_of_false (by decide) (ne_of_gt h)
  · rw [hc]
    exact iff_of_false (by decide) (ne_of_lt h)

theorem compareVersions_pos : compareVersions a b = 1 ↔ order b < order a := by
  rcases compareVersions_cases a b with ⟨hc, h⟩ | ⟨hc, h⟩ | ⟨hc, h⟩
  · rw [hc, h]
    exact iff_of_false (by decide) (lt_irrefl _)
  · rw [hc]
    exact iff_of_true rfl h
  · rw [hc]
    exact iff_of_false (by decide) (lt_asymm h)

end Order

/-- The order of 0, and of what is no version. -/
def zeroOrder : Lex (ℕ → ℕ) := toLex fun _ => 0

theorem order_none {v : Option Json} (h : parseVersion v = none) : order v = zeroOrder := by
  rw [order, h]
  rfl

theorem order_zero : order (some (.str "0")) = zeroOrder := by
  have hparse : parseVersion (some (.str "0")) = some [0] := by decide +kernel
  rw [order, hparse]
  apply congrArg toLex
  funext i
  cases i with
  | zero => rfl
  | succ i => rfl

theorem uncheckedMinimum_iff (minimum : String) :
    uncheckedMinimum minimum = true ↔ order (some (.str minimum)) = zeroOrder := by
  rw [uncheckedMinimum, Bool.or_eq_true, decide_eq_true_eq, decide_eq_true_eq, compareVersions_zero,
    order_zero]
  constructor
  · rintro (rfl | h)
    · exact order_none (by decide +kernel)
    · exact h
  · exact .inr

theorem meetsMinimum_iff (version : Option Json) (minimum : String) :
    meetsMinimum version minimum = true ↔ order (some (.str minimum)) = zeroOrder ∨
      order (some (.str minimum)) ≤ order version := by
  rw [meetsMinimum, Bool.or_eq_true, uncheckedMinimum_iff, decide_eq_true_eq]
  have hcompare : 0 ≤ compareVersions version (some (.str minimum)) ↔
      order (some (.str minimum)) ≤ order version := by
    rcases compareVersions_cases version (some (.str minimum)) with ⟨hc, h⟩ | ⟨hc, h⟩ | ⟨hc, h⟩
    · rw [hc, h]
      exact iff_of_true (by decide) (le_refl _)
    · rw [hc]
      exact iff_of_true (by decide) (le_of_lt h)
    · rw [hc]
      exact iff_of_false (by decide) (not_le_of_gt h)
  rw [hcompare]

/-- Versions are compared by their components, and a node is let pass where no minimum counts, or where
the version that it has reported, or else declares, is not below the minimum. -/
theorem version_gate (minimum : String) :
    (∀ a b, (compareVersions a b = -1 ↔ order a < order b) ∧ (compareVersions a b = 0 ↔ order a = order b) ∧
      (compareVersions a b = 1 ↔ order b < order a)) ∧
    ∀ detected declared, (judgeVersion detected declared minimum).ok = true ↔
      order (some (.str minimum)) = zeroOrder ∨ ∃ v source, reported detected declared = some (v, source) ∧
        order (some (.str minimum)) ≤ order (some v) := by
  refine ⟨fun a b => ⟨compareVersions_neg, compareVersions_zero, compareVersions_pos⟩, ?_⟩
  intro detected declared
  rw [judgeVersion]
  split
  · next h => exact iff_of_true rfl (.inl ((uncheckedMinimum_iff minimum).1 h))
  · next h =>
    rw [uncheckedMinimum_iff] at h
    split
    · next hnone =>
      rw [hnone]
      apply iff_of_false Bool.false_ne_true
      rintro (hz | ⟨v, source, hv, -⟩)
      · exact h hz
      · cases hv
    · next version source hsome =>
      have hmeets := meetsMinimum_iff (some version) minimum
      rw [or_iff_right h] at hmeets
      rw [hsome, or_iff_right h]
      split
      · next hbelow =>
        rw [Bool.not_eq_true', ← Bool.not_eq_true, hmeets] at hbelow
        apply iff_of_false Bool.false_ne_true
        rintro ⟨v, s, hv, hle⟩
        cases hv
        exact hbelow hle
      · next habove =>
        rw [Bool.not_eq_true', Bool.not_eq_false, hmeets] at habove
        exact iff_of_true rfl ⟨version, source, rfl, habove⟩

end Mise.Server
