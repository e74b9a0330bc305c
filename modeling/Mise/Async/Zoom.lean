import Mise.Async.Owned

set_option autoImplicit true

namespace Mise

/-- A part of a larger state. -/
structure Part (σ' σ : Type) where
  get : σ' → σ
  set : σ → σ' → σ'
  get_set : ∀ w t, get (set w t) = w
  set_get : ∀ t, set (get t) t = t
  set_set : ∀ w v t, set w (set v t) = set w t

namespace Async

/-- A function over a part of the state, where the answers that arrive are among those that it can
get. -/
def zoom (L : Part σ' σ) (answer : ι' → ι) : Async σ ι ε α → Async σ' ι' ε α
  | .pure a => .pure a
  | .throw e => .throw e
  | .act f k => .act (fun t => L.set (f (L.get t)) t) fun t => zoom L answer (k (L.get t))
  | .await k => .await fun x => zoom L answer (k (answer x))

theorem zoom_bind (L : Part σ' σ) (answer : ι' → ι) (p : Async σ ι ε α) (g : α → Async σ ι ε β) :
    zoom L answer (p >>= g) = zoom L answer p >>= fun a => zoom L answer (g a) := by
  change zoom L answer (bind p g) = bind (zoom L answer p) _
  induction p with
  | pure a => rfl
  | throw e => rfl
  | act f k ih => exact congrArg (act _) (funext fun t => ih (L.get t))
  | await k ih => exact congrArg await (funext fun x => ih (answer x))

section Zoom

variable {L : Part σ' σ} {answer : ι' → ι} {R G : σ → σ → Prop} {Q : α → σ → σ → Prop}
  {E : ε → σ → σ → Prop} {R' G' : σ' → σ' → Prop} {Q' : α → σ' → σ' → Prop}
  {E' : ε → σ' → σ' → Prop}

/-- What a function does to its part it does as a part of the whole. `I` holds of the whole at every
await; the segment of the whole began at `t`, and its part is `w` by now. -/
theorem sat_zoom (I : σ' → Prop)
    (hG : ∀ t w, I t → G (L.get t) w → G' t (L.set w t) ∧ I (L.set w t))
    (hR : ∀ t t', I t → R' t t' → R (L.get t) (L.get t') ∧ I t')
    (hQ : ∀ a t w, I t → Q a (L.get t) w → Q' a t (L.set w t))
    (hE : ∀ e t w, I t → E e (L.get t) w → E' e t (L.set w t))
    {p : Async σ ι ε α} {t : σ'} {w : σ} (hI : I t) (h : Sat R G Q E p (L.get t) w) :
    Sat R' G' Q' E' (zoom L answer p) t (L.set w t) := by
  induction p generalizing t w with
  | pure a => exact hQ a t w hI h
  | throw e => exact hE e t w hI h
  | act f k ih =>
    rw [zoom, Sat, L.get_set, L.set_set]
    exact ih w hI h
  | await k ih =>
    obtain ⟨hg, hI'⟩ := hG t w hI h.1
    refine ⟨hg, fun u hu x => ?_⟩
    obtain ⟨hr, hIu⟩ := hR _ u hI' hu
    rw [L.get_set] at hr
    have hk := ih (answer x) hIu (h.2 _ hr (answer x))
    rwa [L.set_get] at hk

end Zoom

/-- What a call knows of the state `s` in a segment that began in `s₀`: `P` holds of it, and of
whatever the others make of it. -/
structure Holding (R G : σ → σ → Prop) (P : σ → Prop) (s₀ s : σ) : Prop where
  steps : G s₀ s
  stable : ∀ t t', R t t' → P t → P t'
  known : P s

section Holding

variable {R G : σ → σ → Prop} {P P' : σ → Prop} {E : ε → σ → σ → Prop}

theorem Holding.mono (h : Holding R G P s₀ s) (hP' : ∀ t t', R t t' → P' t → P' t')
    (hPP : P s → P' s) : Holding R G P' s₀ s := ⟨h.steps, hP', hPP h.known⟩

theorem Holding.step (h : Holding R G P s₀ s) (htrans : ∀ {s t u}, G s t → G t u → G s u)
    (hs : G s t) (hP' : ∀ t t', R t t' → P' t → P' t') (hp : P' t) : Holding R G P' s₀ t :=
  ⟨htrans h.steps hs, hP', hp⟩

theorem Holding.wait (hrefl : ∀ s, G s s) (h : Holding R G P s₀ s) :
    Sat R G (fun _ => Holding R G P) E (Async.wait : Async σ ι ε ι) s₀ s :=
  ⟨h.steps, fun t ht _ => ⟨hrefl t, h.stable, h.stable s t ht h.known⟩⟩

end Holding

end Async

end Mise
