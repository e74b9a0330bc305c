import Mise.Async.Basic

set_option autoImplicit true

namespace Mise

/-- One step of a schedule: a new call arrives, or call `i` gets the answer it waits for. -/
inductive Move (κ ι : Type) where
  | call (c : κ)
  | resume (i : Nat) (x : ι)

def Move.map (f : κ → κ') : Move κ ι → Move κ' ι
  | .call c => .call (f c)
  | .resume i x => .resume i x

/-- The shared state and every call made so far, in the order they were made. -/
structure Pool (σ ι ε α : Type) where
  shared : σ
  calls : List (Async σ ι ε α) := []

namespace Pool

variable (program : Nat → κ → Async σ ι ε α)

def step (p : Pool σ ι ε α) : Move κ ι → Pool σ ι ε α
  | .call c =>
    let r := (program p.calls.length c).advance p.shared
    ⟨r.1, p.calls ++ [r.2]⟩
  | .resume i x =>
    match p.calls[i]? with
    | some (.await k) =>
      let r := (k x).advance p.shared
      ⟨r.1, p.calls.set i r.2⟩
    | _ => p

def run (p : Pool σ ι ε α) (moves : List (Move κ ι)) : Pool σ ι ε α :=
  moves.foldl (step program) p

/-- What call `i` returned or threw, once it has ended. -/
def result (p : Pool σ ι ε α) (i : Nat) : Option (Except ε α) :=
  p.calls[i]?.bind Async.result

def Finished (p : Pool σ ι ε α) : Prop := ∀ i, i < p.calls.length → p.result i ≠ none

instance (p : Pool σ ι ε α) : Decidable p.Finished :=
  decidable_of_iff (∀ i < p.calls.length, (p.result i).isSome) (by
    simp only [Finished, ne_eq, Option.isSome_iff_ne_none])

@[simp] theorem run_nil (p : Pool σ ι ε α) : run program p [] = p := rfl

@[simp] theorem run_cons (p : Pool σ ι ε α) (m : Move κ ι) (ms : List (Move κ ι)) :
    run program p (m :: ms) = run program (step program p m) ms := rfl

theorem run_append (p : Pool σ ι ε α) (ms ms' : List (Move κ ι)) :
    run program p (ms ++ ms') = run program (run program p ms) ms' := List.foldl_append

/-- A proof that every call of a pool keeps its guarantee, by rely and guarantee. `Pre i` is
what the calls made before call `i` leave for it, and `Q i` and `E i` what it leaves behind. -/
structure Contract (ok : κ → Prop) where
  R : Nat → σ → σ → Prop
  G : Nat → σ → σ → Prop
  Pre : Nat → σ → Prop
  Q : Nat → α → σ → Prop
  E : Nat → ε → σ → Prop
  R_refl : ∀ i s, R i s s
  R_trans : ∀ {i s t u}, R i s t → R i t u → R i s u
  rely : ∀ {i j s t}, i ≠ j → G i s t → R j s t
  pre_stable : ∀ {i s t}, Pre i s → R i s t → Pre i t
  q_stable : ∀ {i a s t}, Q i a s → R i s t → Q i a t
  e_stable : ∀ {i e s t}, E i e s → R i s t → E i e t
  sound : ∀ i c s, ok c → Pre i s →
    Async.Sat (R i) (G i) (fun a s₀ s => G i s₀ s ∧ Q i a s)
      (fun e s₀ s => G i s₀ s ∧ E i e s) (program i c) s s

variable {program} {ok : κ → Prop}

/-- What a contract knows of call `i` while it is in state `q`. -/
def Contract.Holds (C : Contract program ok) (i : Nat) (q : Async σ ι ε α) (s : σ) : Prop :=
  match q with
  | .pure a => C.Q i a s
  | .throw e => C.E i e s
  | .await k => ∀ t, C.R i s t → ∀ x, Async.Sat (C.R i) (C.G i)
      (fun a s₀ s => C.G i s₀ s ∧ C.Q i a s) (fun e s₀ s => C.G i s₀ s ∧ C.E i e s) (k x) t t
  | .act _ _ => False

theorem Contract.Holds.stable {C : Contract program ok} (h : C.Holds i q s) (hR : C.R i s t) :
    C.Holds i q t := by
  cases q with
  | pure a => exact C.q_stable h hR
  | throw e => exact C.e_stable h hR
  | act f k => exact h.elim
  | await k => exact fun u hu => h u (C.R_trans hR hu)

theorem Contract.Holds.of_sat {C : Contract program ok}
    (h : Async.Sat (C.R i) (C.G i) (fun a s₀ s => C.G i s₀ s ∧ C.Q i a s)
      (fun e s₀ s => C.G i s₀ s ∧ C.E i e s) p s s) :
    C.G i s (p.advance s).1 ∧ C.Holds i (p.advance s).2 (p.advance s).1 := by
  obtain ⟨hG, ⟨a, he, hQ⟩ | ⟨e, he, hE⟩ | ⟨k, he, hk⟩⟩ := h.advance
  · exact ⟨hG, by rw [he]; exact hQ⟩
  · exact ⟨hG, by rw [he]; exact hE⟩
  · exact ⟨hG, by rw [he]; exact hk⟩

/-- Every call made so far satisfies its contract, and the next ones may still be made. -/
structure Contract.Good (C : Contract program ok) (p : Pool σ ι ε α) : Prop where
  calls : ∀ i q, p.calls[i]? = some q → C.Holds i q p.shared
  fresh : ∀ i, p.calls.length ≤ i → C.Pre i p.shared

theorem Contract.Good.start (C : Contract program ok) (h : ∀ i, C.Pre i s) :
    C.Good ⟨s, []⟩ :=
  ⟨fun i q hq => by simp at hq, fun i _ => h i⟩

theorem Contract.Good.call {C : Contract program ok} (h : C.Good p) (hc : ok c) :
    C.Good (step program p (.call c)) := by
  obtain ⟨hG, hH⟩ := Contract.Holds.of_sat (C.sound p.calls.length c p.shared hc
    (h.fresh _ (Nat.le_refl _)))
  constructor
  · intro i q hq
    rw [step, List.getElem?_append] at hq
    split at hq
    · next hi => exact (h.calls i q hq).stable (C.rely (by omega) hG)
    · next hi =>
      obtain ⟨hi', rfl⟩ : i = p.calls.length ∧ _ = q := by
        cases hd : i - p.calls.length with
        | zero => rw [hd] at hq; exact ⟨by omega, by simpa using hq⟩
        | succ d => rw [hd] at hq; simp at hq
      subst hi'
      exact hH
  · intro i hi
    simp only [step, List.length_append, List.length_cons, List.length_nil] at hi
    exact C.pre_stable (h.fresh i (by omega)) (C.rely (by omega) hG)

theorem Contract.Good.resume {C : Contract program ok} (h : C.Good p) :
    C.Good (step program p (.resume i x)) := by
  simp only [step]
  split
  · next k hk =>
    have hi : i < p.calls.length := (List.getElem?_eq_some_iff.1 hk).1
    obtain ⟨hG, hH⟩ := Contract.Holds.of_sat (h.calls i _ hk p.shared (C.R_refl i _) x)
    constructor
    · intro j q hq
      by_cases hj : i = j
      · subst hj
        rw [List.getElem?_set_self hi] at hq
        cases hq
        exact hH
      · rw [List.getElem?_set_ne hj] at hq
        exact (h.calls j q hq).stable (C.rely hj hG)
    · intro j hj
      rw [List.length_set] at hj
      exact C.pre_stable (h.fresh j hj) (C.rely (by omega) hG)
  · exact h

/-- Whatever the order of calls and answers, every call keeps its contract. -/
theorem Contract.Good.run {C : Contract program ok} (h : C.Good p)
    (hok : ∀ c, Move.call c ∈ moves → ok c) : C.Good (run program p moves) := by
  induction moves generalizing p with
  | nil => exact h
  | cons m ms ih =>
    have hms : ∀ c, Move.call c ∈ ms → ok c := fun c hc => hok c (List.mem_cons_of_mem _ hc)
    cases m with
    | call c => exact ih (h.call (hok c List.mem_cons_self)) hms
    | resume i x => exact ih h.resume hms

theorem Contract.Good.alone {C : Contract program ok} (h : C.Good p) (hc : ok c)
    (hrefl : ∀ i s, C.G i s s) (htrans : ∀ {i s t u}, C.G i s t → C.G i t u → C.G i s u)
    (xs : List ι) :
    C.G p.calls.length p.shared
      (Pool.run program p (.call c :: xs.map (.resume p.calls.length))).shared := by
  have hcall := (Contract.Holds.of_sat (C.sound p.calls.length c p.shared hc
    (h.fresh _ (Nat.le_refl _)))).1
  refine htrans hcall ?_
  have hgood : C.Good (Pool.step program p (.call c)) := h.call hc
  rw [run_cons]
  change C.G _ (Pool.step program p (.call c)).shared _
  generalize Pool.step program p (.call c) = q at hgood ⊢
  induction xs generalizing q with
  | nil => exact hrefl _ _
  | cons x xs ih =>
    refine htrans ?_ (ih _ (hgood.resume (x := x)))
    rw [step]
    split
    · next k hk =>
      exact (Contract.Holds.of_sat (hgood.calls _ _ hk q.shared (C.R_refl _ _) x)).1
    · exact hrefl _ _

theorem Contract.Good.pre {C : Contract program ok} (h : C.Good p) :
    C.Pre p.calls.length p.shared := h.fresh _ (Nat.le_refl _)

/-- What every step of every call does, a whole run does. -/
theorem Contract.Good.path {C : Contract program ok} {P : σ → σ → Prop} (h : C.Good p)
    (hok : ∀ c, Move.call c ∈ moves → ok c) (hrefl : ∀ s, P s s)
    (htrans : ∀ {s t u}, P s t → P t u → P s u) (hG : ∀ {i s t}, C.G i s t → P s t) :
    P p.shared (Pool.run program p moves).shared := by
  induction moves generalizing p with
  | nil => exact hrefl _
  | cons m ms ih =>
    have hms : ∀ c, Move.call c ∈ ms → ok c := fun c hc => hok c (List.mem_cons_of_mem _ hc)
    cases m with
    | call c =>
      have hc := hok c List.mem_cons_self
      have hstep := (Contract.Holds.of_sat (C.sound p.calls.length c p.shared hc h.pre)).1
      exact htrans (hG hstep) (ih (h.call hc) hms)
    | resume i x =>
      refine htrans ?_ (ih (h.resume (x := x)) hms)
      rw [step]
      split
      · next k hk => exact hG (Contract.Holds.of_sat (h.calls i _ hk p.shared (C.R_refl i _) x)).1
      · exact hrefl _

theorem Contract.Good.returned {C : Contract program ok} (h : C.Good p)
    (hr : p.result i = some (.ok a)) : C.Q i a p.shared := by
  simp only [result, Option.bind_eq_some_iff] at hr
  obtain ⟨q, hq, hr⟩ := hr
  have hH := h.calls i q hq
  cases q with
  | pure b => simp only [Async.result, Option.some.injEq, Except.ok.injEq] at hr; exact hr ▸ hH
  | throw e => simp [Async.result] at hr
  | act f k => simp [Async.result] at hr
  | await k => simp [Async.result] at hr

theorem Contract.Good.threw {C : Contract program ok} (h : C.Good p)
    (hr : p.result i = some (.error e)) : C.E i e p.shared := by
  simp only [result, Option.bind_eq_some_iff] at hr
  obtain ⟨q, hq, hr⟩ := hr
  have hH := h.calls i q hq
  cases q with
  | pure b => simp [Async.result] at hr
  | throw e => simp only [Async.result, Option.some.injEq, Except.error.injEq] at hr; exact hr ▸ hH
  | act f k => simp [Async.result] at hr
  | await k => simp [Async.result] at hr

end Pool

end Mise
