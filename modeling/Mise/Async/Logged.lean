import Mise.Async.Pool

set_option autoImplicit true

namespace Mise.Logged

open Async

variable (log : σ → List η) (Inv : σ → Prop)

/-- Every step of a call adds to the log, and keeps the invariant. -/
structure Extends (s t : σ) : Prop where
  log : log s <:+ log t
  inv : Inv s → Inv t

/-- What is known of a log stays known of every longer one. -/
def Persistent (P : List η → Prop) : Prop := ∀ l l', l <:+ l' → P l → P l'

/-- What a call knows in a segment that began in the state `s₀`. -/
structure Knows (P : List η → Prop) (s₀ s : σ) : Prop where
  steps : Extends log Inv s₀ s
  inv : Inv s
  persistent : Persistent P
  known : P (log s)

/-- A call that knows nothing in particular when it ends. -/
def Ends (_ : α) (s₀ s : σ) : Prop := Knows log Inv (fun _ => True) s₀ s

/-- Every event of a log, newest first, satisfies `Q` of the log that it was added to. -/
inductive Throughout (Q : List η → η → Prop) : List η → Prop where
  | nil : Throughout Q []
  | cons (h : Throughout Q l) (he : Q l e) : Throughout Q (e :: l)

/-- A call that keeps the invariant, and ends with `Q` where it does not throw. -/
abbrev Keeps (Q : α → σ → σ → Prop) (p : Async σ ι ε α) (s₀ s : σ) : Prop :=
  Sat (Extends log Inv) (Extends log Inv) Q (Ends log Inv) p s₀ s

variable {log Inv}

theorem Extends.refl (s : σ) : Extends log Inv s s := ⟨List.suffix_rfl, fun h => h⟩

theorem Extends.trans (h : Extends log Inv s t) (h' : Extends log Inv t u) : Extends log Inv s u :=
  ⟨h.log.trans h'.log, fun hs => h'.inv (h.inv hs)⟩

theorem Persistent.mem (e : η) : Persistent (e ∈ ·) := fun _ _ hl h => hl.subset h

theorem Persistent.const (p : Prop) : Persistent fun _ : List η => p := fun _ _ _ h => h

theorem Persistent.and (h : Persistent P) (h' : Persistent Q) :
    Persistent fun l : List η => P l ∧ Q l := fun l l' hl hp => ⟨h l l' hl hp.1, h' l l' hl hp.2⟩

theorem Persistent.all {P : ι → List η → Prop} (h : ∀ x, Persistent (P x)) :
    Persistent fun l => ∀ x, P x l := fun l l' hl hp x => h x l l' hl (hp x)

theorem Persistent.imp (p : Prop) (h : Persistent P) : Persistent fun l : List η => p → P l :=
  fun l l' hl hp hq => h l l' hl (hp hq)

theorem Persistent.or (h : Persistent P) (h' : Persistent Q) :
    Persistent fun l : List η => P l ∨ Q l :=
  fun l l' hl hp => hp.imp (h l l' hl) (h' l l' hl)

theorem Throughout.suffix (h : Throughout Q (m ++ l)) : Throughout Q l := by
  induction m with
  | nil => exact h
  | cons e m ih =>
    cases h with
    | cons h _ => exact ih h

theorem Throughout.before (h : Throughout Q (m ++ e :: l)) : Q l e := by
  cases h.suffix with
  | cons _ he => exact he

theorem Knows.here (h : Knows log Inv P s₀ s) : Knows log Inv P s s :=
  ⟨.refl s, h.inv, h.persistent, h.known⟩

theorem Knows.rely (h : Knows log Inv P s s) (hr : Extends log Inv s t) : Knows log Inv P t t :=
  ⟨.refl t, hr.inv h.inv, h.persistent, h.persistent _ _ hr.log h.known⟩

theorem Knows.mono (h : Knows log Inv P s₀ s) (hQ : Persistent Q) (hPQ : P (log s) → Q (log s)) :
    Knows log Inv Q s₀ s := ⟨h.steps, h.inv, hQ, hPQ h.known⟩

theorem Knows.ends (h : Knows log Inv P s₀ s) (a : α) : Ends log Inv a s₀ s :=
  h.mono (.const _) fun _ => trivial

theorem Knows.step (h : Knows log Inv P s₀ s) (hs : Extends log Inv s t) (hQ : Persistent Q)
    (hq : P (log t) → Q (log t)) : Knows log Inv Q s₀ t :=
  ⟨h.steps.trans hs, hs.inv h.inv, hQ, hq (h.persistent _ _ hs.log h.known)⟩

theorem Knows.wait (h : Knows log Inv P s₀ s) :
    Keeps log Inv (fun _ => Knows log Inv P) (Async.wait : Async σ ι ε ι) s₀ s :=
  ⟨h.steps, fun _ ht _ => h.here.rely ht⟩

/-- What a call knew before a part of it, it still knows afterwards. -/
theorem Knows.framed {P' : α → List η → Prop} {p : Async σ ι ε α} (h : Knows log Inv P s₀ s)
    (hp : Keeps log Inv (fun a => Knows log Inv (P' a)) p s s) :
    Keeps log Inv (fun a => Knows log Inv fun l => P' a l ∧ P l) p s₀ s := by
  have hlonger {t u : σ} (ht : P (log t)) (hu : Extends log Inv t u) : P (log u) :=
    h.persistent _ _ hu.log ht
  have hp := Sat.frame (K := fun t => P (log t)) hp h.known hlonger hlonger (fun h => h.steps)
    fun h => h.steps
  refine (hp.since (fun hg => h.steps.trans hg) (fun hx => ?_) fun hx => ?_).mono
    (fun a _ _ hx => ⟨hx.1.steps, hx.1.inv, hx.1.persistent.and h.persistent, hx.1.known, hx.2⟩)
    fun _ _ _ hx => hx.1
  · exact ⟨{ hx.1 with steps := h.steps.trans hx.1.steps }, hx.2⟩
  · exact ⟨{ hx.1 with steps := h.steps.trans hx.1.steps }, hx.2⟩

/-- A call that keeps the invariant from whatever state it starts in, and returns nothing but
values that satisfy `K`. -/
def Yields (log : σ → List η) (Inv : σ → Prop) (K : α → Prop) (p : Async σ ι ε α) : Prop :=
  ∀ s₀ s, Knows log Inv (fun _ => True) s₀ s →
    Keeps log Inv (fun a => Knows log Inv fun _ => K a) p s₀ s

/-- A call that keeps the invariant from whatever state it starts in. -/
abbrev Steady (log : σ → List η) (Inv : σ → Prop) (p : Async σ ι ε α) : Prop :=
  Yields log Inv (fun _ => True) p

section Yields

variable {p : Async σ ι ε α} {K : α → Prop}

theorem Yields.pure (h : K a) : Yields log Inv K (Pure.pure a : Async σ ι ε α) :=
  fun _ _ hs => hs.mono (.const _) fun _ => h

theorem Yields.throw (e : ε) : Yields log Inv K (MonadExcept.throw e : Async σ ι ε α) :=
  fun _ _ h => h

theorem Yields.wait : Steady log Inv (Async.wait : Async σ ι ε ι) := fun _ _ h => h.wait

theorem Yields.read : Steady log Inv (Async.read : Async σ ι ε σ) := fun _ _ h => h

theorem Yields.update {f : σ → σ} (hf : ∀ s, Extends log Inv s (f s)) :
    Steady log Inv (Async.update f : Async σ ι ε Unit) :=
  fun _ s h => h.step (hf s) (.const _) fun _ => trivial

theorem Yields.updateGet {f : σ → α × σ} (hf : ∀ s, Extends log Inv s (f s).2)
    (hk : ∀ s, Inv s → K (f s).1) : Yields log Inv K (Async.updateGet f : Async σ ι ε α) :=
  fun _ s h => h.step (hf s) (.const _) fun _ => hk s h.inv

theorem Yields.bind {K' : β → Prop} {g : α → Async σ ι ε β} (h : Yields log Inv K p)
    (hg : ∀ a, K a → Yields log Inv K' (g a)) : Yields log Inv K' (p >>= g) :=
  fun s₀ s hs => (h s₀ s hs).seq fun a t₀ t ht => hg a ht.known t₀ t (ht.ends a)

theorem Yields.steady (h : Yields log Inv K p) : Steady log Inv p :=
  fun s₀ s hs => (h s₀ s hs).mono (fun a _ _ ha => ha.ends a) fun _ _ _ he => he

theorem Yields.seq {K' : β → Prop} {g : α → Async σ ι ε β} (h : Steady log Inv p)
    (hg : ∀ a, Yields log Inv K' (g a)) : Yields log Inv K' (p >>= g) :=
  Yields.bind h fun a _ => hg a

theorem Yields.ite {b : Prop} [Decidable b] {q : Async σ ι ε α} (h : Yields log Inv K p)
    (hq : Yields log Inv K q) : Yields log Inv K (if b then p else q) := by
  split
  · exact h
  · exact hq

theorem Yields.tryCatch {c : ε → Async σ ι ε α} (h : Yields log Inv K p)
    (hc : ∀ e, Yields log Inv K (c e)) : Yields log Inv K (MonadExcept.tryCatch p c) :=
  fun s₀ s hs => (sat_tryCatch p c s₀ s).2
    ((h s₀ s hs).mono (fun _ _ _ ha => ha) fun e t₀ t he => hc e t₀ t he)

end Yields

/-- What the calls of a program rely on and guarantee. -/
def contract {program : Nat → κ → Async σ ι ε α} {ok : κ → Prop}
    (h : ∀ i c s, ok c → Knows log Inv (fun _ => True) s s →
      Keeps log Inv (Ends log Inv) (program i c) s s) :
    Pool.Contract program ok where
  R _ := Extends log Inv
  G _ := Extends log Inv
  Pre _ := Inv
  Q _ _ _ := True
  E _ _ _ := True
  R_refl _ := .refl
  R_trans := .trans
  rely _ h := h
  pre_stable h hr := hr.inv h
  q_stable h _ := h
  e_stable h _ := h
  sound i c s hc hs := (h i c s hc ⟨.refl s, hs, .const _, trivial⟩).mono
    (fun _ _ _ h => ⟨h.steps, trivial⟩) fun _ _ _ h => ⟨h.steps, trivial⟩

theorem inv_run (log : σ → List η) {program : Nat → κ → Async σ ι ε α} {ok : κ → Prop}
    (h : ∀ i c s, ok c → Knows log Inv (fun _ => True) s s →
      Keeps log Inv (Ends log Inv) (program i c) s s)
    (hs : Inv s) (moves : List (Move κ ι)) (hok : ∀ c, Move.call c ∈ moves → ok c) :
    Inv (Pool.run program ⟨s, []⟩ moves).shared :=
  ((Pool.Contract.Good.start (contract h) fun _ => hs).run hok).pre

end Mise.Logged
