import Mise.Async.Pool

set_option autoImplicit true

namespace Mise.Owned

open Async

variable (log : σ → List η) (owner : η → Option Nat) (Inv : σ → Prop)

/-- A step adds events that satisfy `ok` to the log, and keeps the invariant. -/
structure Adds (ok : η → Prop) (s t : σ) : Prop where
  added : ∃ l, log t = l ++ log s ∧ ∀ e ∈ l, ok e
  inv : Inv s → Inv t

/-- What the other calls do: they add no event of call `i`. -/
abbrev Others (i : Nat) : σ → σ → Prop := Adds log Inv fun e => owner e ≠ some i

/-- What call `i` does: the events that it adds are its own, or no call's. -/
abbrev Own (i : Nat) : σ → σ → Prop := Adds log Inv fun e => ∀ j, owner e = some j → j = i

/-- What is known of a log stays known whatever the other calls add. -/
def Stable (i : Nat) (P : List η → Prop) : Prop :=
  ∀ l l', (∀ e ∈ l, owner e ≠ some i) → P l' → P (l ++ l')

/-- What call `i` knows in a segment that began in the state `s₀`. -/
structure Knows (i : Nat) (P : List η → Prop) (s₀ s : σ) : Prop where
  steps : Own log owner Inv i s₀ s
  inv : Inv s
  stable : Stable owner i P
  known : P (log s)

/-- A call that knows nothing in particular when it ends. -/
def Ends (i : Nat) (_ : α) (s₀ s : σ) : Prop := Knows log owner Inv i (fun _ => True) s₀ s

/-- A call that keeps the invariant, and ends with `Q` where it does not throw. -/
abbrev Keeps (i : Nat) (Q : α → σ → σ → Prop) (p : Async σ ι ε α) (s₀ s : σ) : Prop :=
  Sat (Others log owner Inv i) (Own log owner Inv i) Q (Ends log owner Inv i) p s₀ s

/-- A call that keeps the invariant and what it knows, also where it throws, and returns nothing
but values that satisfy `K`. -/
def Yields (i : Nat) (P : List η → Prop) (K : α → Prop) (p : Async σ ι ε α) : Prop :=
  ∀ s₀ s, Knows log owner Inv i P s₀ s →
    Sat (Others log owner Inv i) (Own log owner Inv i)
      (fun a s₀ s => K a ∧ Knows log owner Inv i P s₀ s) (fun _ => Knows log owner Inv i P) p s₀ s

variable {log owner Inv}

theorem Adds.refl {ok : η → Prop} (s : σ) : Adds log Inv ok s s := ⟨⟨[], rfl, nofun⟩, fun h => h⟩

theorem Adds.trans {ok : η → Prop} (h : Adds log Inv ok s t) (h' : Adds log Inv ok t u) :
    Adds log Inv ok s u := by
  obtain ⟨l, hl, hok⟩ := h.added
  obtain ⟨l', hl', hok'⟩ := h'.added
  refine ⟨⟨l' ++ l, by rw [hl', hl, List.append_assoc], fun e he => ?_⟩, fun hs => h'.inv (h.inv hs)⟩
  obtain he | he := List.mem_append.1 he
  · exact hok' e he
  · exact hok e he

theorem Adds.mono {ok ok' : η → Prop} (h : Adds log Inv ok s t) (hok : ∀ e, ok e → ok' e) :
    Adds log Inv ok' s t := by
  obtain ⟨l, hl, he⟩ := h.added
  exact ⟨⟨l, hl, fun e h => hok e (he e h)⟩, h.inv⟩

section Stable

variable {i : Nat} {P Q : List η → Prop}

theorem Stable.of_append (h : ∀ l l', P l' → P (l ++ l')) : Stable owner i P :=
  fun l l' _ hp => h l l' hp

theorem Stable.const (p : Prop) : Stable owner i fun _ : List η => p := fun _ _ _ h => h

theorem Stable.and (h : Stable owner i P) (h' : Stable owner i Q) :
    Stable owner i fun l => P l ∧ Q l := fun l l' hl hp => ⟨h l l' hl hp.1, h' l l' hl hp.2⟩

theorem Stable.mem (e : η) : Stable owner i (e ∈ ·) :=
  .of_append fun l _ h => List.mem_append_right l h

theorem Stable.none {p : η → Prop} (hp : ∀ e, p e → owner e = some i) :
    Stable owner i fun l => ∀ e ∈ l, ¬ p e := by
  intro l l' hl hn e he
  obtain he | he := List.mem_append.1 he
  · exact fun h => hl e he (hp e h)
  · exact hn e he

end Stable

section Knows

variable {i : Nat} {P Q : List η → Prop} {s₀ s t : σ}

theorem Knows.here (h : Knows log owner Inv i P s₀ s) : Knows log owner Inv i P s s :=
  ⟨.refl s, h.inv, h.stable, h.known⟩

theorem Knows.rely (h : Knows log owner Inv i P s s) (hr : Others log owner Inv i s t) :
    Knows log owner Inv i P t t := by
  obtain ⟨l, hl, hok⟩ := hr.added
  exact ⟨.refl t, hr.inv h.inv, h.stable, hl ▸ h.stable l _ hok h.known⟩

theorem Knows.mono (h : Knows log owner Inv i P s₀ s) (hQ : Stable owner i Q)
    (hPQ : P (log s) → Q (log s)) : Knows log owner Inv i Q s₀ s :=
  ⟨h.steps, h.inv, hQ, hPQ h.known⟩

theorem Knows.ends (h : Knows log owner Inv i P s₀ s) (a : α) : Ends log owner Inv i a s₀ s :=
  h.mono (.const _) fun _ => trivial

theorem Knows.step (h : Knows log owner Inv i P s₀ s) (hs : Own log owner Inv i s t)
    (hQ : Stable owner i Q) (hq : Q (log t)) : Knows log owner Inv i Q s₀ t :=
  ⟨h.steps.trans hs, hs.inv h.inv, hQ, hq⟩

theorem Knows.wait (h : Knows log owner Inv i P s₀ s) :
    Keeps log owner Inv i (fun _ => Knows log owner Inv i P) (Async.wait : Async σ ι ε ι) s₀ s :=
  ⟨h.steps, fun _ ht _ => h.here.rely ht⟩

end Knows

section Yields

variable {i : Nat} {P : List η → Prop} {p : Async σ ι ε α} {K : α → Prop}

theorem Yields.pure (h : K a) : Yields log owner Inv i P K (Pure.pure a : Async σ ι ε α) :=
  fun _ _ hs => ⟨h, hs⟩

theorem Yields.throw (e : ε) :
    Yields log owner Inv i P K (MonadExcept.throw e : Async σ ι ε α) := fun _ _ h => h

theorem Yields.wait : Yields log owner Inv i P (fun _ => True) (Async.wait : Async σ ι ε ι) :=
  fun _ _ h => ⟨h.steps, fun _ ht _ => ⟨trivial, h.here.rely ht⟩⟩

theorem Yields.read : Yields log owner Inv i P (fun _ => True) (Async.read : Async σ ι ε σ) :=
  fun _ _ h => ⟨trivial, h⟩

theorem Yields.updateGet {f : σ → α × σ} (hf : ∀ s₀ s, Knows log owner Inv i P s₀ s →
    Knows log owner Inv i P s₀ (f s).2) :
    Yields log owner Inv i P (fun _ => True) (Async.updateGet f : Async σ ι ε α) :=
  fun s₀ s h => ⟨trivial, hf s₀ s h⟩

theorem Yields.update {f : σ → σ} (hf : ∀ s, P (log s) → Own log owner Inv i s (f s))
    (hP : ∀ s, P (log s) → P (log (f s))) :
    Yields log owner Inv i P (fun _ => True) (Async.update f : Async σ ι ε Unit) :=
  fun _ s h => ⟨trivial, h.step (hf s h.known) h.stable (hP s h.known)⟩

theorem Yields.bind {K' : β → Prop} {g : α → Async σ ι ε β} (h : Yields log owner Inv i P K p)
    (hg : ∀ a, K a → Yields log owner Inv i P K' (g a)) : Yields log owner Inv i P K' (p >>= g) :=
  fun s₀ s hs => (sat_bind p g s₀ s).2
    ((h s₀ s hs).mono (fun a t₀ t ht => hg a ht.1 t₀ t ht.2) fun _ _ _ he => he)

theorem Yields.ite {b : Prop} [Decidable b] {q : Async σ ι ε α} (h : Yields log owner Inv i P K p)
    (hq : Yields log owner Inv i P K q) : Yields log owner Inv i P K (if b then p else q) := by
  split
  · exact h
  · exact hq

theorem Yields.tryCatch {c : ε → Async σ ι ε α} (h : Yields log owner Inv i P K p)
    (hc : ∀ e, Yields log owner Inv i P K (c e)) :
    Yields log owner Inv i P K (MonadExcept.tryCatch p c) :=
  fun s₀ s hs => (sat_tryCatch p c s₀ s).2
    ((h s₀ s hs).mono (fun _ _ _ ha => ha) fun e t₀ t he => hc e t₀ t he)

theorem Keeps.update {Q : β → σ → σ → Prop} {f : σ → σ} {g : Unit → Async σ ι ε β}
    (h : Keeps log owner Inv i Q (g ()) s₀ (f s)) :
    Keeps log owner Inv i Q (Async.update f >>= g) s₀ s := h

/-- What follows a call that knows no more at its end than before. -/
theorem Yields.seq {Q : β → σ → σ → Prop} {g : α → Async σ ι ε β} (h : Yields log owner Inv i P K p)
    (hs : Knows log owner Inv i P s₀ s)
    (hg : ∀ a t₀ t, K a → Knows log owner Inv i P t₀ t → Keeps log owner Inv i Q (g a) t₀ t) :
    Keeps log owner Inv i Q (p >>= g) s₀ s :=
  (sat_bind p g s₀ s).2
    ((h s₀ s hs).mono (fun a t₀ t ha => hg a t₀ t ha.1 ha.2) fun e _ _ he => he.ends e)

theorem Yields.keeps (h : Yields log owner Inv i P K p) (hs : Knows log owner Inv i P s₀ s) :
    Keeps log owner Inv i (Ends log owner Inv i) p s₀ s :=
  (h s₀ s hs).mono (fun a _ _ ha => ha.2.ends a) fun e _ _ he => he.ends e

end Yields

/-- What the calls of a program rely on and guarantee, each of which begins without events; `Q` and `E`
are what the log has of a call that has returned, and of one that has thrown. -/
def answering (log : σ → List η) (owner : η → Option Nat) (Inv : σ → Prop)
    {program : Nat → κ → Async σ ι ε α} {ok : κ → Prop} (Q : Nat → α → List η → Prop)
    (E : Nat → ε → List η → Prop) (h : ∀ i c s, ok c →
      Knows log owner Inv i (fun l => ∀ e ∈ l, owner e ≠ some i) s s →
        Sat (Others log owner Inv i) (Own log owner Inv i) (fun a => Knows log owner Inv i (Q i a))
          (fun e => Knows log owner Inv i (E i e)) (program i c) s s) :
    Pool.Contract program ok where
  R := Others log owner Inv
  G := Own log owner Inv
  Pre i s := Inv s ∧ ∀ e ∈ log s, owner e ≠ some i
  Q i a s := Knows log owner Inv i (Q i a) s s
  E i e s := Knows log owner Inv i (E i e) s s
  R_refl _ := .refl
  R_trans := .trans
  rely {i j s t} hij h := h.mono fun e he hj => hij (he j hj).symm
  pre_stable {i s t} h hr := by
    obtain ⟨l, hl, hok⟩ := hr.added
    refine ⟨hr.inv h.1, fun e he => ?_⟩
    rw [hl] at he
    exact (List.mem_append.1 he).elim (hok e) (h.2 e)
  q_stable h hr := h.rely hr
  e_stable h hr := h.rely hr
  sound i c s hc hs := by
    have hknows : Knows log owner Inv i (fun l => ∀ e ∈ l, owner e ≠ some i) s s :=
      ⟨.refl s, hs.1, .none fun _ h => h, hs.2⟩
    exact (h i c s hc hknows).mono (fun _ _ _ h => ⟨h.steps, h.here⟩) fun _ _ _ h => ⟨h.steps, h.here⟩

/-- What the calls of a program rely on and guarantee, each of which begins without events. -/
def contract {program : Nat → κ → Async σ ι ε α} {ok : κ → Prop}
    (h : ∀ i c s, ok c → Knows log owner Inv i (fun l => ∀ e ∈ l, owner e ≠ some i) s s →
      Keeps log owner Inv i (Ends log owner Inv i) (program i c) s s) :
    Pool.Contract program ok where
  R := Others log owner Inv
  G := Own log owner Inv
  Pre i s := Inv s ∧ ∀ e ∈ log s, owner e ≠ some i
  Q _ _ _ := True
  E _ _ _ := True
  R_refl _ := .refl
  R_trans := .trans
  rely {i j s t} hij h := h.mono fun e he hj => hij (he j hj).symm
  pre_stable {i s t} h hr := by
    obtain ⟨l, hl, hok⟩ := hr.added
    refine ⟨hr.inv h.1, fun e he => ?_⟩
    rw [hl] at he
    exact (List.mem_append.1 he).elim (hok e) (h.2 e)
  q_stable h _ := h
  e_stable h _ := h
  sound i c s hc hs := by
    have hstable : Stable owner i fun l => ∀ e ∈ l, owner e ≠ some i := .none fun _ h => h
    have hknows : Knows log owner Inv i (fun l => ∀ e ∈ l, owner e ≠ some i) s s :=
      ⟨.refl s, hs.1, hstable, hs.2⟩
    exact (h i c s hc hknows).mono (fun _ _ _ h => ⟨h.steps, trivial⟩) fun _ _ _ h => ⟨h.steps, trivial⟩

theorem inv_run {program : Nat → κ → Async σ ι ε α} {ok : κ → Prop}
    (h : ∀ i c s, ok c → Knows log owner Inv i (fun l => ∀ e ∈ l, owner e ≠ some i) s s →
      Keeps log owner Inv i (Ends log owner Inv i) (program i c) s s)
    (hs : Inv s) (hlog : log s = []) (moves : List (Move κ ι))
    (hok : ∀ c, Move.call c ∈ moves → ok c) : Inv (Pool.run program ⟨s, []⟩ moves).shared := by
  have hstart : ∀ i, Inv s ∧ ∀ e ∈ log s, owner e ≠ some i := by
    intro i
    rw [hlog]
    exact ⟨hs, nofun⟩
  exact ((Pool.Contract.Good.start (contract h) hstart).run hok).pre.1

end Mise.Owned
