import Mise.Async.Zoom

set_option autoImplicit true

namespace Mise.Async

/-- Run with nobody else in between, taking what is awaited from a stream of answers. What is left of
the stream is given back. -/
def drive : Async σ ι ε α → (Nat → ι) → σ → Except ε α × σ × (Nat → ι)
  | .pure a, xs, s => (.ok a, s, xs)
  | .throw e, xs, s => (.error e, s, xs)
  | .act f k, xs, s => drive (k s) xs (f s)
  | .await k, xs, s => drive (k (xs 0)) (fun n => xs (n + 1)) s

/-- The same function, whose faults are seen as those of its caller. -/
def mapError (f : ε → ε') : Async σ ι ε α → Async σ ι ε' α
  | .pure a => .pure a
  | .throw e => .throw (f e)
  | .act g k => .act g fun s => mapError f (k s)
  | .await k => .await fun x => mapError f (k x)

def ofExcept : Except ε α → Async σ ι ε α
  | .ok a => .pure a
  | .error e => .throw e

/-- What a call gives to the one after it. -/
def andThen (g : α → (Nat → ι) → σ → Except ε β × σ × (Nat → ι)) :
    Except ε α × σ × (Nat → ι) → Except ε β × σ × (Nat → ι)
  | (.ok a, s, xs) => g a xs s
  | (.error e, s, xs) => (.error e, s, xs)

section Drive

variable {xs : Nat → ι} {s : σ}

@[simp] theorem drive_pure (a : α) :
    (Pure.pure a : Async σ ι ε α).drive xs s = (.ok a, s, xs) := rfl

@[simp] theorem drive_throw (e : ε) :
    (MonadExcept.throw e : Async σ ι ε α).drive xs s = (.error e, s, xs) := rfl

@[simp] theorem drive_wait :
    (wait : Async σ ι ε ι).drive xs s = (.ok (xs 0), s, fun n => xs (n + 1)) := rfl

@[simp] theorem drive_read : (read : Async σ ι ε σ).drive xs s = (.ok s, s, xs) := rfl

@[simp] theorem drive_update (f : σ → σ) :
    (update f : Async σ ι ε Unit).drive xs s = (.ok (), f s, xs) := rfl

@[simp] theorem drive_updateGet (f : σ → α × σ) :
    (updateGet f : Async σ ι ε α).drive xs s = (.ok (f s).1, (f s).2, xs) := rfl

@[simp] theorem drive_ofExcept (x : Except ε α) :
    (ofExcept x : Async σ ι ε α).drive xs s = (x, s, xs) := by
  cases x <;> rfl

@[simp] theorem drive_bind (p : Async σ ι ε α) (g : α → Async σ ι ε β) :
    (p >>= g).drive xs s = andThen (fun a => (g a).drive) (p.drive xs s) := by
  change (bind p g).drive xs s = _
  induction p generalizing xs s with
  | pure a => rfl
  | throw e => rfl
  | act f k ih => exact ih s
  | await k ih => exact ih (xs 0)

@[simp] theorem drive_mapError (f : ε → ε') (p : Async σ ι ε α) :
    (p.mapError f).drive xs s = ((p.drive xs s).1.mapError f, (p.drive xs s).2) := by
  induction p generalizing xs s with
  | pure a => rfl
  | throw e => rfl
  | act g k ih => exact ih s
  | await k ih => exact ih (xs 0)

@[simp] theorem drive_zoom (L : Part σ' σ) (p : Async σ ι ε α) (t : σ') :
    (zoom L id p).drive xs t =
      ((p.drive xs (L.get t)).1, L.set (p.drive xs (L.get t)).2.1 t, (p.drive xs (L.get t)).2.2) := by
  induction p generalizing xs t with
  | pure a => rw [zoom, drive, drive, L.set_get]
  | throw e => rw [zoom, drive, drive, L.set_get]
  | act f k ih =>
    rw [zoom, drive, drive, ih, L.get_set, L.set_set]
  | await k ih => exact ih (xs 0) t

end Drive

end Mise.Async
