import Mathlib.Data.Fintype.Pigeonhole

set_option autoImplicit true

namespace Mise

/-- Where `n` steps lead, while there is a next step. -/
def orbit (f : α → Option α) (a : α) : Nat → Option α
  | 0 => some a
  | n + 1 => (orbit f a n).bind f

/-- After a finite number of steps there is no next one. -/
def Halts (f : α → Option α) (a : α) : Prop := ∃ n, orbit f a n = none

variable {f : α → Option α} {a : α}

theorem orbit_succ (n : Nat) : orbit f a (n + 1) = (f a).bind fun b => orbit f b n := by
  induction n with
  | zero =>
    cases h : f a with
    | none => rw [orbit, orbit, Option.bind_some, h, Option.bind_none]
    | some b => rw [orbit, orbit, Option.bind_some, h, Option.bind_some, orbit]
  | succ n ih =>
    rw [orbit, ih]
    cases f a with
    | none => rfl
    | some b => rfl

theorem orbit_none (h : orbit f a n = none) (m : Nat) : orbit f a (n + m) = none := by
  induction m with
  | zero => exact h
  | succ m ih => rw [← Nat.add_assoc, orbit, ih, Option.bind_none]

theorem orbit_add (h : orbit f a i = orbit f a j) (n : Nat) :
    orbit f a (i + n) = orbit f a (j + n) := by
  induction n with
  | zero => exact h
  | succ n ih => rw [← Nat.add_assoc, ← Nat.add_assoc, orbit, orbit, ih]

theorem not_halts_of_eq (hij : i < j) (hi : orbit f a i = some b) (hj : orbit f a j = some b) :
    ¬ Halts f a := by
  rintro ⟨n, hn⟩
  induction n using Nat.strong_induction_on with
  | _ n ih =>
    by_cases hlt : n < j
    · have hnone := orbit_none hn (j - n)
      rw [Nat.add_sub_cancel' hlt.le, hj] at hnone
      exact absurd hnone (Option.some_ne_none b)
    · have hback : orbit f a (i + (n - j)) = orbit f a (j + (n - j)) := orbit_add (hi.trans hj.symm) _
      rw [Nat.add_sub_cancel' (Nat.le_of_not_lt hlt), hn] at hback
      exact ih (i + (n - j)) (by omega) hback

/-- Steps within a finite set of places come to an end exactly if they come to no place twice. -/
theorem halts_iff {N : Nat} {f : Nat → Option Nat} (hf : ∀ s, N < s → f s = none) (a : Nat) :
    Halts f a ↔ ∀ i j s, i < j → orbit f a i = some s → orbit f a j ≠ some s := by
  constructor
  · intro h i j s hij hi hj
    exact not_halts_of_eq hij hi hj h
  · intro h
    by_contra hnever
    have hsome : ∀ n, ∃ s, orbit f a n = some s := by
      intro n
      cases hn : orbit f a n with
      | none => exact absurd ⟨n, hn⟩ hnever
      | some s => exact ⟨s, rfl⟩
    choose place hplace using hsome
    have hle : ∀ n, place n ≤ N := by
      intro n
      by_contra hlt
      have hnext := hplace (n + 1)
      rw [orbit, hplace, Option.bind_some, hf _ (Nat.lt_of_not_le hlt)] at hnext
      exact absurd hnext.symm (Option.some_ne_none _)
    obtain ⟨i, j, hne, heq⟩ := Finite.exists_ne_map_eq_of_infinite
      fun n => (⟨place n, Nat.lt_succ_of_le (hle n)⟩ : Fin (N + 1))
    have hsame : place i = place j := congrArg Fin.val heq
    obtain hlt | hlt := Nat.lt_or_gt_of_ne hne
    · exact h i j (place i) hlt (hplace i) (hsame ▸ hplace j)
    · exact h j i (place j) hlt (hplace j) (hsame ▸ hplace i)

theorem halts_of_lt {N a : Nat} {f : Nat → Option Nat} (hf : ∀ s, N < s → f s = none)
    (hlt : ∀ i s t, orbit f a i = some s → f s = some t → s < t) : Halts f a := by
  by_contra hnever
  have hgrow : ∀ n, ∃ s, orbit f a n = some s ∧ n ≤ s := by
    intro n
    induction n with
    | zero => exact ⟨a, rfl, Nat.zero_le _⟩
    | succ n ih =>
      obtain ⟨s, hs, hle⟩ := ih
      cases ht : orbit f a (n + 1) with
      | none => exact absurd ⟨n + 1, ht⟩ hnever
      | some t =>
        rw [orbit, hs, Option.bind_some] at ht
        have := hlt n s t hs ht
        exact ⟨t, rfl, by omega⟩
  obtain ⟨s, hs, hle⟩ := hgrow (N + 1)
  have hend : orbit f a (N + 2) = none := by rw [orbit, hs, Option.bind_some, hf s hle]
  exact hnever ⟨N + 2, hend⟩

end Mise
