import Mathlib.Init

set_option autoImplicit true

namespace Mise

/-- An asynchronous function over a shared state `σ`. It runs undisturbed up to its next
`await`, where every other call may run before the answer `ι` it waits for arrives. -/
inductive Async (σ ι ε α : Type) : Type where
  | pure (a : α)
  | throw (e : ε)
  | act (f : σ → σ) (k : σ → Async σ ι ε α)
  | await (k : ι → Async σ ι ε α)

namespace Async

def bind : Async σ ι ε α → (α → Async σ ι ε β) → Async σ ι ε β
  | .pure a, g => g a
  | .throw e, _ => .throw e
  | .act f k, g => .act f fun s => bind (k s) g
  | .await k, g => .await fun x => bind (k x) g

theorem bind_pure (p : Async σ ι ε α) : p.bind .pure = p := by
  induction p with
  | pure a => rfl
  | throw e => rfl
  | act f k ih => exact congrArg (act f) (funext ih)
  | await k ih => exact congrArg await (funext ih)

theorem bind_bind (p : Async σ ι ε α) (f : α → Async σ ι ε β) (g : β → Async σ ι ε γ) :
    (p.bind f).bind g = p.bind fun a => (f a).bind g := by
  induction p with
  | pure a => rfl
  | throw e => rfl
  | act h k ih => exact congrArg (act h) (funext ih)
  | await k ih => exact congrArg await (funext ih)

/-- A `try … catch` around an asynchronous function also covers what it does after an await. -/
def tryCatch : Async σ ι ε α → (ε → Async σ ι ε α) → Async σ ι ε α
  | .pure a, _ => .pure a
  | .throw e, h => h e
  | .act f k, h => .act f fun s => tryCatch (k s) h
  | .await k, h => .await fun x => tryCatch (k x) h

instance : Monad (Async σ ι ε) where
  pure := .pure
  bind := bind

instance : LawfulMonad (Async σ ι ε) :=
  LawfulMonad.mk' _ bind_pure (fun _ _ => rfl) bind_bind

instance : MonadExceptOf ε (Async σ ι ε) where
  throw := .throw
  tryCatch := tryCatch

/-- Give up the thread until the awaited answer arrives. -/
def wait : Async σ ι ε ι := .await .pure

def read : Async σ ι ε σ := .act id .pure

def update (f : σ → σ) : Async σ ι ε Unit := .act f fun _ => .pure ()

/-- Change the state and keep something computed from the state before the change. -/
def updateGet (f : σ → α × σ) : Async σ ι ε α := .act (fun s => (f s).2) fun s => .pure (f s).1

/-- Run to the next await or to the end. -/
def advance : Async σ ι ε α → σ → σ × Async σ ι ε α
  | .pure a, s => (s, .pure a)
  | .throw e, s => (s, .throw e)
  | .act f k, s => advance (k s) (f s)
  | .await k, s => (s, .await k)

/-- How a call ended, if it has. -/
def result : Async σ ι ε α → Option (Except ε α)
  | .pure a => some (.ok a)
  | .throw e => some (.error e)
  | .act _ _ | .await _ => none

/-- What a call does to the state, by its undisturbed segments. `R` bounds what the others may
do at an await and `G` what each segment of this call does; the second state argument is where
the present segment began. -/
def Sat (R G : σ → σ → Prop) (Q : α → σ → σ → Prop) (E : ε → σ → σ → Prop) :
    Async σ ι ε α → σ → σ → Prop
  | .pure a, s₀, s => Q a s₀ s
  | .throw e, s₀, s => E e s₀ s
  | .act f k, s₀, s => Sat R G Q E (k s) s₀ (f s)
  | .await k, s₀, s => G s₀ s ∧ ∀ t, R s t → ∀ x, Sat R G Q E (k x) t t

variable {R G : σ → σ → Prop} {E : ε → σ → σ → Prop}

@[simp] theorem sat_pure {Q : α → σ → σ → Prop} (a : α) (s₀ s : σ) :
    Sat R G Q E (Pure.pure a : Async σ ι ε α) s₀ s ↔ Q a s₀ s := Iff.rfl

@[simp] theorem sat_throw {Q : α → σ → σ → Prop} (e : ε) (s₀ s : σ) :
    Sat R G Q E (MonadExcept.throw e : Async σ ι ε α) s₀ s ↔ E e s₀ s := Iff.rfl

@[simp] theorem sat_bind {Q : β → σ → σ → Prop} (p : Async σ ι ε α) (g : α → Async σ ι ε β)
    (s₀ s : σ) :
    Sat R G Q E (p >>= g) s₀ s ↔ Sat R G (fun a t₀ t => Sat R G Q E (g a) t₀ t) E p s₀ s := by
  change Sat R G Q E (bind p g) s₀ s ↔ _
  induction p generalizing s₀ s with
  | pure a => rfl
  | throw e => rfl
  | act f k ih => exact ih s s₀ (f s)
  | await k ih => exact and_congr_right fun _ => forall_congr' fun t =>
      imp_congr_right fun _ => forall_congr' fun x => ih x t t

@[simp] theorem sat_map {Q : β → σ → σ → Prop} (p : Async σ ι ε α) (g : α → β) (s₀ s : σ) :
    Sat R G Q E (g <$> p) s₀ s ↔ Sat R G (fun a t₀ t => Q (g a) t₀ t) E p s₀ s :=
  sat_bind p (fun a => Pure.pure (g a)) s₀ s

@[simp] theorem sat_tryCatch {Q : α → σ → σ → Prop} (p : Async σ ι ε α)
    (h : ε → Async σ ι ε α) (s₀ s : σ) :
    Sat R G Q E (MonadExcept.tryCatch p h) s₀ s ↔
      Sat R G Q (fun e t₀ t => Sat R G Q E (h e) t₀ t) p s₀ s := by
  change Sat R G Q E (tryCatch p h) s₀ s ↔ _
  induction p generalizing s₀ s with
  | pure a => rfl
  | throw e => rfl
  | act f k ih => exact ih s s₀ (f s)
  | await k ih => exact and_congr_right fun _ => forall_congr' fun t =>
      imp_congr_right fun _ => forall_congr' fun x => ih x t t

@[simp] theorem sat_wait {Q : ι → σ → σ → Prop} (s₀ s : σ) :
    Sat R G Q E (wait : Async σ ι ε ι) s₀ s ↔ G s₀ s ∧ ∀ t, R s t → ∀ x, Q x t t := Iff.rfl

@[simp] theorem sat_read {Q : σ → σ → σ → Prop} (s₀ s : σ) :
    Sat R G Q E (read : Async σ ι ε σ) s₀ s ↔ Q s s₀ s := Iff.rfl

@[simp] theorem sat_update {Q : Unit → σ → σ → Prop} (f : σ → σ) (s₀ s : σ) :
    Sat R G Q E (update f : Async σ ι ε Unit) s₀ s ↔ Q () s₀ (f s) := Iff.rfl

@[simp] theorem sat_updateGet {Q : α → σ → σ → Prop} (f : σ → α × σ) (s₀ s : σ) :
    Sat R G Q E (updateGet f : Async σ ι ε α) s₀ s ↔ Q (f s).1 s₀ (f s).2 := Iff.rfl

theorem Sat.mono {Q Q' : α → σ → σ → Prop} {E' : ε → σ → σ → Prop} {p : Async σ ι ε α}
    (h : Sat R G Q E p s₀ s) (hQ : ∀ a t₀ t, Q a t₀ t → Q' a t₀ t)
    (hE : ∀ e t₀ t, E e t₀ t → E' e t₀ t) : Sat R G Q' E' p s₀ s := by
  induction p generalizing s₀ s with
  | pure a => exact hQ _ _ _ h
  | throw e => exact hE _ _ _ h
  | act f k ih => exact ih s h
  | await k ih => exact ⟨h.1, fun t ht x => ih x (h.2 t ht x)⟩

/-- What neither this call nor the others destroy is still true at the end. -/
theorem Sat.frame {Q : α → σ → σ → Prop} {K : σ → Prop} {p : Async σ ι ε α}
    (h : Sat R G Q E p s₀ s) (hk : K s₀) (hG : ∀ {s t}, K s → G s t → K t)
    (hR : ∀ {s t}, K s → R s t → K t) (hQ : ∀ {a s t}, Q a s t → G s t)
    (hE : ∀ {e s t}, E e s t → G s t) :
    Sat R G (fun a s₀ s => Q a s₀ s ∧ K s) (fun e s₀ s => E e s₀ s ∧ K s) p s₀ s := by
  induction p generalizing s₀ s with
  | pure a => exact ⟨h, hG hk (hQ h)⟩
  | throw e => exact ⟨h, hG hk (hE h)⟩
  | act f k ih => exact ih s h hk
  | await k ih => exact ⟨h.1, fun t ht x => ih x (h.2 t ht x) (hR (hG hk h.1) ht)⟩

theorem Sat.since {Q : α → σ → σ → Prop} {p : Async σ ι ε α} (h : Sat R G Q E p s₁ s)
    (hG : ∀ {t}, G s₁ t → G s₀ t) (hQ : ∀ {a t}, Q a s₁ t → Q a s₀ t)
    (hE : ∀ {e t}, E e s₁ t → E e s₀ t) : Sat R G Q E p s₀ s := by
  induction p generalizing s with
  | pure a => exact hQ h
  | throw e => exact hE h
  | act f k ih => exact ih s h
  | await k => exact ⟨hG h.1, h.2⟩

theorem Sat.seq {Q : α → σ → σ → Prop} {Q' : β → σ → σ → Prop} {p : Async σ ι ε α}
    {g : α → Async σ ι ε β} (h : Sat R G Q E p s₀ s)
    (hg : ∀ a t₀ t, Q a t₀ t → Sat R G Q' E (g a) t₀ t) : Sat R G Q' E (p >>= g) s₀ s :=
  (sat_bind p g s₀ s).2 (h.mono hg fun _ _ _ he => he)

/-- The segment a call runs when it is resumed stays within its guarantee, and leaves the call
waiting or finished. -/
theorem Sat.advance {Q : α → σ → Prop} {p : Async σ ι ε α} {E : ε → σ → Prop}
    (h : Sat R G (fun a s₀ s => G s₀ s ∧ Q a s) (fun e s₀ s => G s₀ s ∧ E e s) p s₀ s) :
    G s₀ (p.advance s).1 ∧
      ((∃ a, (p.advance s).2 = .pure a ∧ Q a (p.advance s).1) ∨
       (∃ e, (p.advance s).2 = .throw e ∧ E e (p.advance s).1) ∨
       (∃ k, (p.advance s).2 = .await k ∧ ∀ t, R (p.advance s).1 t → ∀ x,
          Sat R G (fun a s₀ s => G s₀ s ∧ Q a s) (fun e s₀ s => G s₀ s ∧ E e s) (k x) t t)) := by
  induction p generalizing s with
  | pure a => exact ⟨h.1, .inl ⟨a, rfl, h.2⟩⟩
  | throw e => exact ⟨h.1, .inr (.inl ⟨e, rfl, h.2⟩)⟩
  | act f k ih => exact ih s h
  | await k ih => exact ⟨h.1, .inr (.inr ⟨k, rfl, h.2⟩)⟩

end Async

end Mise
