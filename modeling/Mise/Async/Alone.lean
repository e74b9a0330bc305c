import Mise.Async.Basic

set_option autoImplicit true

namespace Mise.Async

/-- Run with nobody else in between, taking the awaited answers from a list. -/
def alone : Async σ ι ε α → List ι → σ → Option (Except ε α × σ)
  | .pure a, _, s => some (.ok a, s)
  | .throw e, _, s => some (.error e, s)
  | .act f k, xs, s => alone (k s) xs (f s)
  | .await _, [], _ => none
  | .await k, x :: xs, s => alone (k x) xs s

/-- The weakest condition on the state under which a call that runs alone, with answers that satisfy
`A`, returns as `Q` says and throws as `E` says. -/
def Wp (A : ι → Prop) (Q : α → σ → Prop) (E : ε → σ → Prop) : Async σ ι ε α → σ → Prop
  | .pure a, s => Q a s
  | .throw e, s => E e s
  | .act f k, s => Wp A Q E (k s) (f s)
  | .await k, s => ∀ x, A x → Wp A Q E (k x) s

variable {A : ι → Prop} {E : ε → σ → Prop}

theorem wp_iff_alone {Q : α → σ → Prop} (p : Async σ ι ε α) (s : σ) :
    Wp A Q E p s ↔ ∀ xs, (∀ x ∈ xs, A x) → ∀ r t, p.alone xs s = some (r, t) →
      match r with
      | .ok a => Q a t
      | .error e => E e t := by
  induction p generalizing s with
  | pure a => exact ⟨fun h xs _ r t hr => by cases hr; exact h, fun h => h [] nofun _ s rfl⟩
  | throw e => exact ⟨fun h xs _ r t hr => by cases hr; exact h, fun h => h [] nofun _ s rfl⟩
  | act f k ih => exact ih s (f s)
  | await k ih =>
    constructor
    · intro h xs hxs r t hr
      cases xs with
      | nil => cases hr
      | cons x xs =>
        obtain ⟨hx, hxs⟩ := List.forall_mem_cons.1 hxs
        exact (ih x s).1 (h x hx) xs hxs r t hr
    · intro h x hx
      exact (ih x s).2 fun xs hxs r t hr => h (x :: xs) (List.forall_mem_cons.2 ⟨hx, hxs⟩) r t hr

@[simp] theorem wp_pure {Q : α → σ → Prop} (a : α) (s : σ) :
    Wp A Q E (Pure.pure a : Async σ ι ε α) s ↔ Q a s := Iff.rfl

@[simp] theorem wp_throw {Q : α → σ → Prop} (e : ε) (s : σ) :
    Wp A Q E (MonadExcept.throw e : Async σ ι ε α) s ↔ E e s := Iff.rfl

@[simp] theorem wp_bind {Q : β → σ → Prop} (p : Async σ ι ε α) (g : α → Async σ ι ε β) (s : σ) :
    Wp A Q E (p >>= g) s ↔ Wp A (fun a t => Wp A Q E (g a) t) E p s := by
  change Wp A Q E (bind p g) s ↔ _
  induction p generalizing s with
  | pure a => rfl
  | throw e => rfl
  | act f k ih => exact ih s (f s)
  | await k ih => exact forall_congr' fun x => imp_congr_right fun _ => ih x s

@[simp] theorem wp_tryCatch {Q : α → σ → Prop} (p : Async σ ι ε α) (h : ε → Async σ ι ε α)
    (s : σ) : Wp A Q E (MonadExcept.tryCatch p h) s ↔
      Wp A Q (fun e t => Wp A Q E (h e) t) p s := by
  change Wp A Q E (tryCatch p h) s ↔ _
  induction p generalizing s with
  | pure a => rfl
  | throw e => rfl
  | act f k ih => exact ih s (f s)
  | await k ih => exact forall_congr' fun x => imp_congr_right fun _ => ih x s

@[simp] theorem wp_wait {Q : ι → σ → Prop} (s : σ) :
    Wp A Q E (wait : Async σ ι ε ι) s ↔ ∀ x, A x → Q x s := Iff.rfl

@[simp] theorem wp_read {Q : σ → σ → Prop} (s : σ) :
    Wp A Q E (read : Async σ ι ε σ) s ↔ Q s s := Iff.rfl

@[simp] theorem wp_update {Q : Unit → σ → Prop} (f : σ → σ) (s : σ) :
    Wp A Q E (update f : Async σ ι ε Unit) s ↔ Q () (f s) := Iff.rfl

@[simp] theorem wp_updateGet {Q : α → σ → Prop} (f : σ → α × σ) (s : σ) :
    Wp A Q E (updateGet f : Async σ ι ε α) s ↔ Q (f s).1 (f s).2 := Iff.rfl

theorem Wp.mono {Q Q' : α → σ → Prop} {E' : ε → σ → Prop} {p : Async σ ι ε α} {s : σ}
    (h : Wp A Q E p s) (hQ : ∀ a t, Q a t → Q' a t) (hE : ∀ e t, E e t → E' e t) :
    Wp A Q' E' p s := by
  induction p generalizing s with
  | pure a => exact hQ a s h
  | throw e => exact hE e s h
  | act f k ih => exact ih s h
  | await k ih => exact fun x hx => ih x (h x hx)

end Mise.Async
