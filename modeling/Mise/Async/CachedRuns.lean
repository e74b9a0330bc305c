import Mathlib.Data.List.Basic
import Mathlib.Tactic.ByContra
import Mise.Async.Cached

set_option autoImplicit true

namespace Mise.Cached

/-- The call that a note is about. -/
def Note.caller : Note κ φ → Option Nat
  | .called i _ | .applied i _ _ | .serialised i _ => some i
  | .loaded _ _ | .renamed _ | .failed => none

/-- What the rules below ask of a program. `Good` is an invariant of the state in memory, and `K` a
law between the operations that were applied and the text of the state that they leave. -/
structure Program.Laws (P : Program κ γ σ φ ε ρ) (Good : σ → Prop)
    (K : List (Nat × κ) → φ → Prop) : Prop where
  load : ∀ f, Good (P.load f)
  body : ∀ {s}, Good s → ∀ c g, Good (P.body c g s).state
  quiet : ∀ {s}, Good s → ∀ c g, (P.body c g s).persists = false →
    P.save (P.body c g s).state = P.save s
  save : ∀ {s}, Good s → P.save (P.load (some (P.save s))) = P.save s
  init : ∀ f, K [] (P.save (P.load f))
  step : ∀ {s l}, Good s → K l (P.save s) → ∀ i c g, P.guard c = .ok none →
    K ((i, c) :: l) (P.save (P.body c g s).state)

section Runs

variable (P : Program κ γ σ φ ε ρ) (Good : σ → Prop) (K : List (Nat × κ) → φ → Prop)

/-- The snapshot `d` is no later than the state in memory, and is that state where it is as late. -/
def Reflects (d : Snapshot φ) (w : World κ γ σ φ) : Prop :=
  d.stamp ≤ w.stamp ∧ (w.Steady → d.stamp = w.stamp →
    ∀ s, w.held = some s → P.save (P.load d.content) = P.save s)

/-- A snapshot that a persist of this process has made. -/
def Valid (d : Snapshot φ) (w : World κ γ σ φ) : Prop := w.cache ≠ none ∧ Reflects P d w

structure Sound (w : World κ γ σ φ) : Prop where
  good : ∀ s ∈ w.objects, Good s
  cache : ∀ r, w.cache = some r → r < w.objects.length
  unopened : w.cache = none → w.stamp = 0 ∧ w.temps = [] ∧ applied w.log = []
  saved : Reflects P w.file w
  temps : ∀ x ∈ w.temps, Valid P x.2 w
  latest : w.stamp = 0 ∨ ∃ i, .serialised i w.stamp ∈ w.log
  kept : w.Steady → ∀ s, w.held = some s → K (applied w.log) (P.save s)

/-- What every call does. -/
structure Grows (w w' : World κ γ σ φ) : Prop where
  log : w.log <:+ w'.log
  sound : Sound P Good K w → Sound P Good K w'
  valid : ∀ d, Sound P Good K w → Valid P d w → Valid P d w'
  saved : w'.InOrder → w.file.stamp ≤ w'.file.stamp
  unopened : w'.cache = none → w.cache = none ∧ w'.file = w.file

variable {P Good K}

theorem Grows.refl (w : World κ γ σ φ) : Grows P Good K w w where
  log := List.suffix_rfl
  sound h := h
  valid _ _ hd := hd
  saved _ := Nat.le_refl _
  unopened hn := ⟨hn, rfl⟩

theorem Grows.trans (h : Grows P Good K w w') (h' : Grows P Good K w' w'') :
    Grows P Good K w w'' where
  log := h.log.trans h'.log
  sound hs := h'.sound (h.sound hs)
  valid d hs hd := h'.valid d (h.sound hs) (h.valid d hs hd)
  saved ho := Nat.le_trans (h.saved (ho.of_suffix h'.log)) (h'.saved ho)
  unopened hn := by
    obtain ⟨hn', hf'⟩ := h'.unopened hn
    obtain ⟨hn'', hf⟩ := h.unopened hn'
    exact ⟨hn'', hf'.trans hf⟩

theorem Sound.held_some (h : Sound P Good K w) (hr : w.cache = some r) :
    ∃ s, w.objects[r]? = some s ∧ w.held = some s ∧ Good s := by
  have hlt := h.cache r hr
  refine ⟨w.objects[r], List.getElem?_eq_getElem hlt, ?_, h.good _ (List.getElem_mem hlt)⟩
  rw [World.held, hr, Option.bind_some, List.getElem?_eq_getElem hlt]

theorem Reflects.frame {w w' : World κ γ σ φ} (h : Reflects P d w) (hs : w'.stamp = w.stamp)
    (hh : w'.held = w.held) (hl : w.log <:+ w'.log) : Reflects P d w' := by
  constructor
  · rw [hs]
    exact h.1
  · intro hst he s hw
    rw [hh] at hw
    exact h.2 (hst.of_suffix hl) (he.trans hs) s hw

theorem Sound.frame {w w' : World κ γ σ φ} (h : Sound P Good K w) (ho : w'.objects = w.objects)
    (hc : w'.cache = w.cache) (hs : w'.stamp = w.stamp) (hl : w.log <:+ w'.log)
    (ha : applied w'.log = applied w.log) (hf : Reflects P w'.file w)
    (ht : ∀ x ∈ w'.temps, Valid P x.2 w) : Sound P Good K w' := by
  have hh : w'.held = w.held := by rw [World.held, World.held, ho, hc]
  constructor
  · exact ho ▸ h.good
  · rw [hc, ho]
    exact h.cache
  · intro hn
    obtain ⟨hz, -, hl⟩ := h.unopened (hc ▸ hn)
    refine ⟨hs.trans hz, ?_, ha.trans hl⟩
    cases hx : w'.temps with
    | nil => rfl
    | cons x l => exact absurd (hc ▸ hn) (ht x (hx ▸ List.mem_cons_self)).1
  · exact hf.frame hs hh hl
  · intro x hx
    obtain ⟨hn, hr⟩ := ht x hx
    exact ⟨hc ▸ hn, hr.frame hs hh hl⟩
  · rw [hs]
    exact h.latest.imp_right fun ⟨i, hm⟩ => ⟨i, hl.subset hm⟩
  · intro hst s hw
    rw [ha]
    exact h.kept (hst.of_suffix hl) s (hh ▸ hw)

theorem Grows.frame {w w' : World κ γ σ φ} (ho : w'.objects = w.objects) (hc : w'.cache = w.cache)
    (hs : w'.stamp = w.stamp) (hl : w.log <:+ w'.log) (ha : applied w'.log = applied w.log)
    (hf : Sound P Good K w → Reflects P w'.file w)
    (ht : Sound P Good K w → ∀ x ∈ w'.temps, Valid P x.2 w)
    (hst : w'.InOrder → w.file.stamp ≤ w'.file.stamp)
    (hn : w'.cache = none → w'.file = w.file) : Grows P Good K w w' := by
  have hheld : w'.held = w.held := by rw [World.held, World.held, ho, hc]
  constructor
  · exact hl
  · intro h
    exact h.frame ho hc hs hl ha (hf h) (ht h)
  · rintro d - ⟨hopen, hd⟩
    rw [← hc] at hopen
    exact ⟨hopen, hd.frame hs hheld hl⟩
  · exact hst
  · intro hnone
    refine ⟨?_, hn hnone⟩
    rw [← hc]
    exact hnone

theorem Grows.emit {w : World κ γ σ φ} (he : applied (e :: w.log) = applied w.log) :
    Grows P Good K w (w.emit e) :=
  .frame rfl rfl rfl (List.suffix_cons e w.log) he (fun h => h.saved) (fun h => h.temps)
    (fun _ => Nat.le_refl _) fun _ => rfl

theorem Grows.writeFile {w : World κ γ σ φ} (hd : Valid P d w) :
    Grows P Good K w (w.writeFile tmp d) := by
  refine .frame rfl rfl rfl List.suffix_rfl rfl ?_ ?_ ?_ ?_
  · intro h
    exact h.saved
  · intro h x hx
    obtain rfl | hx := List.mem_cons.1 hx
    · exact hd
    · exact h.temps x (List.mem_of_mem_filter hx)
  · intro _
    exact Nat.le_refl _
  · intro _
    rfl

theorem Grows.rename {w : World κ γ σ φ} (h : Sound P Good K w) :
    Grows P Good K w (w.rename tmp stamp).2 := by
  obtain he | ⟨d, hd, he⟩ := w.rename_cases tmp stamp <;> rw [he]
  · exact .emit rfl
  · have hvalid := h.temps _ hd
    refine .frame rfl rfl rfl (List.suffix_cons _ _) rfl ?_ ?_ ?_ ?_
    · intro _
      exact hvalid.2
    · intro h x hx
      exact h.temps x (List.mem_of_mem_filter hx)
    · intro ho
      by_cases hin : d.stamp = stamp ∧ w.file.stamp ≤ stamp
      · exact Nat.le_trans hin.2 (Nat.le_of_eq hin.1.symm)
      · exact absurd (by simp [World.replace, hin]) ho
    · intro hn
      exact absurd hn hvalid.1

/-- After a rename in order, the file is as late as what its call has written. -/
theorem rename_saved {w : World κ γ σ φ} (hr : (w.rename tmp stamp).1 = true)
    (ho : (w.rename tmp stamp).2.InOrder) : (w.rename tmp stamp).2.file.stamp = stamp := by
  obtain he | ⟨d, -, he⟩ := w.rename_cases tmp stamp <;> rw [he] at hr ho ⊢
  · cases hr
  · by_contra hn
    exact ho (by simp [World.replace, show d.stamp ≠ stamp from hn])

theorem rename_failed {w : World κ γ σ φ} (hr : (w.rename tmp stamp).1 = false) :
    .failed ∈ (w.rename tmp stamp).2.log := by
  obtain he | ⟨d, -, he⟩ := w.rename_cases tmp stamp <;> rw [he] at hr ⊢
  · exact List.mem_cons_self
  · cases hr

theorem Sound.apply_held (h : Sound P Good K w) (hs : (w.apply P i r c).2.Steady)
    (hw : (w.apply P i r c).2.held = some s') : ∃ s, w.held = some s ∧ Good s ∧
      (w.apply P i r c).1 = P.body c w.shared s ∧ s' = (P.body c w.shared s).state := by
  have hc : w.cache = some r := by
    by_contra hc
    exact hs.bodies i c (by simp [World.apply, hc])
  obtain ⟨s, hr, hheld, hg⟩ := h.held_some hc
  refine ⟨s, hheld, hg, by simp [World.apply, hr], ?_⟩
  have hlt := h.cache r hc
  simp only [World.apply, World.held, hc, Option.bind_some, List.getElem?_set_self hlt, hr,
    Option.getD_some, Option.some.injEq] at hw
  exact hw.symm

variable (L : P.Laws Good K)

include L

/-- A load that finds the cache empty has read the file as it still is. -/
theorem Grows.publish {w : World κ γ σ φ} (hf : w.cache = none → w.file.content = f) :
    Grows P Good K w (w.publish P f) := by
  have hl : w.log <:+ (w.publish P f).log := List.suffix_cons _ _
  have hheld : (w.publish P f).held = some (P.load f) := by
    simp [World.publish, World.emit, World.held]
  have hsame : ∀ s, w.held = some s → (w.publish P f).Steady → P.save s = P.save (P.load f) :=
    fun s hs hst => hst.loads _ _ (by simp [World.publish, World.emit, hs])
  have hr : ∀ d, Sound P Good K w → (w.cache = none → d = w.file) → Reflects P d w →
      Reflects P d (w.publish P f) := by
    intro d h hd hr
    refine ⟨hr.1, ?_⟩
    intro hst he s hs
    cases hheld.symm.trans hs
    cases hc : w.cache with
    | none => rw [hd hc, hf hc]
    | some r =>
      obtain ⟨s, -, hs, -⟩ := h.held_some hc
      exact (hr.2 (hst.of_suffix hl) he s hs).trans (hsame s hs hst)
  have hv : ∀ d, Sound P Good K w → Valid P d w → Valid P d (w.publish P f) := by
    intro d h hd
    constructor
    · simp [World.publish, World.emit]
    · exact hr d h (fun hn => absurd hn hd.1) hd.2
  constructor
  · exact hl
  · intro h
    constructor
    · intro s hs
      obtain hs | hs := List.mem_append.1 hs
      · exact h.good s hs
      · exact List.mem_singleton.1 hs ▸ L.load f
    · intro r hr
      have hr : w.objects.length = r := by simpa [World.publish, World.emit] using hr
      simp [World.publish, World.emit, ← hr]
    · intro hn
      simp [World.publish, World.emit] at hn
    · exact hr w.file h (fun _ => rfl) h.saved
    · exact fun x hx => hv x.2 h (h.temps x hx)
    · exact h.latest.imp_right fun ⟨i, hm⟩ => ⟨i, hl.subset hm⟩
    · intro hst s hs
      cases hheld.symm.trans hs
      change K (applied w.log) (P.save (P.load f))
      cases hc : w.cache with
      | none =>
        rw [(h.unopened hc).2.2]
        exact L.init f
      | some r =>
        obtain ⟨s, -, hs, -⟩ := h.held_some hc
        rw [← hsame s hs hst]
        exact h.kept (hst.of_suffix hl) s hs
  · exact hv
  · intro _
    exact Nat.le_refl _
  · intro hn
    simp [World.publish, World.emit] at hn

theorem Sound.apply_good (h : Sound P Good K w) (i r : Nat) (c : κ) :
    ∀ s ∈ (w.apply P i r c).2.objects, Good s := by
  intro s hs
  obtain hs | rfl := List.mem_or_eq_of_mem_set hs
  · exact h.good s hs
  · refine L.body ?_ c w.shared
    cases hr : w.objects[r]? with
    | none => exact L.load none
    | some s => exact h.good s (List.mem_of_getElem? hr)

theorem Sound.apply_kept (h : Sound P Good K w) (hg : P.guard c = .ok none)
    (hs : (w.apply P i r c).2.Steady) (hw : (w.apply P i r c).2.held = some s) :
    K ((i, c) :: applied w.log) (P.save s) := by
  obtain ⟨s, hheld, hgood, -, rfl⟩ := h.apply_held hs hw
  exact L.step hgood (h.kept (hs.of_suffix (List.suffix_cons _ _)) s hheld) i c w.shared hg

theorem Sound.applied {w w' : World κ γ σ φ} (h : Sound P Good K w) (hg : P.guard c = .ok none)
    (hn : w.cache ≠ none) (ho : w'.objects = (w.apply P i r c).2.objects) (hc : w'.cache = w.cache)
    (hl : (w.apply P i r c).2.log <:+ w'.log)
    (ha : Cached.applied w'.log = (i, c) :: Cached.applied w.log) (hf : Reflects P w'.file w')
    (ht : ∀ x ∈ w'.temps, Valid P x.2 w') (hs : w'.stamp = 0 ∨ ∃ i, .serialised i w'.stamp ∈ w'.log) :
    Sound P Good K w' := by
  have hheld : w'.held = (w.apply P i r c).2.held := by
    rw [World.held, World.held, ho, hc]
    rfl
  constructor
  · rw [ho]
    exact h.apply_good L i r c
  · intro r' hr'
    rw [ho]
    rw [hc] at hr'
    simpa [World.apply] using h.cache r' hr'
  · intro hn'
    exact absurd (hc ▸ hn') hn
  · exact hf
  · exact ht
  · exact hs
  · intro hst s hw
    rw [ha]
    rw [hheld] at hw
    exact h.apply_kept L hg (hst.of_suffix hl) hw

/-- An operation that does not persist has not changed what would be written. -/
theorem Sound.apply_quiet (h : Sound P Good K w) (hn : w.cache ≠ none) (hg : P.guard c = .ok none)
    (hp : (w.apply P i r c).1.persists = false) : Grows P Good K w (w.apply P i r c).2 := by
  have hl : w.log <:+ (w.apply P i r c).2.log := List.suffix_cons _ _
  have hr : ∀ d, Reflects P d w → Reflects P d (w.apply P i r c).2 := by
    intro d hd
    refine ⟨hd.1, fun hs he s hw => ?_⟩
    obtain ⟨s, hheld, hgood, hbody, rfl⟩ := h.apply_held hs hw
    rw [hd.2 (hs.of_suffix hl) he s hheld, L.quiet hgood c w.shared (hbody ▸ hp)]
  have hv : ∀ d, Valid P d w → Valid P d (w.apply P i r c).2 := by
    intro d hd
    exact ⟨hd.1, hr d hd.2⟩
  constructor
  · exact hl
  · intro _
    apply h.applied L hg hn rfl rfl List.suffix_rfl rfl
    · exact hr _ h.saved
    · intro x hx
      exact hv _ (h.temps x hx)
    · obtain hz | ⟨j, hm⟩ := h.latest
      · exact .inl hz
      · exact .inr ⟨j, hl.subset hm⟩
  · intro d _ hd
    exact hv d hd
  · intro _
    exact Nat.le_refl _
  · intro hn'
    exact absurd hn' hn

/-- An operation that persists has changed the state and serialised it by its next await. -/
theorem Sound.commit (h : Sound P Good K w) (hn : w.cache ≠ none) (hg : P.guard c = .ok none) :
    Grows P Good K w ((w.apply P i r c).2.serialise P i).2 ∧
      Valid P ((w.apply P i r c).2.serialise P i).1.2 ((w.apply P i r c).2.serialise P i).2 := by
  have hl : (w.apply P i r c).2.log <:+ ((w.apply P i r c).2.serialise P i).2.log :=
    List.suffix_cons _ _
  -- an older snapshot is now out of date
  have hr : ∀ d, Reflects P d w → Reflects P d ((w.apply P i r c).2.serialise P i).2 := by
    intro d hd
    refine ⟨Nat.le_succ_of_le hd.1, fun _ he => absurd hd.1 ?_⟩
    rw [he]
    exact Nat.not_succ_le_self _
  have hv : ∀ d, Valid P d w → Valid P d ((w.apply P i r c).2.serialise P i).2 := by
    intro d hd
    exact ⟨hd.1, hr d hd.2⟩
  constructor
  · constructor
    · exact (List.suffix_cons _ _).trans hl
    · intro _
      have ho : ((w.apply P i r c).2.serialise P i).2.objects = (w.apply P i r c).2.objects := rfl
      apply h.applied L hg hn ho rfl hl rfl
      · exact hr _ h.saved
      · intro x hx
        exact hv _ (h.temps x hx)
      · exact .inr ⟨i, List.mem_cons_self⟩
    · intro d _ hd
      exact hv d hd
    · intro _
      exact Nat.le_refl _
    · intro hn'
      exact absurd hn' hn
  · refine ⟨hn, Nat.le_refl _, fun _ _ s hw => ?_⟩
    have hw : (w.apply P i r c).2.held = some s := hw
    have hgood : Good s := by
      obtain ⟨r', hr', hs⟩ := Option.bind_eq_some_iff.1 hw
      exact h.apply_good L i r c s (List.mem_of_getElem? hs)
    simp only [World.serialise, hw, Option.map_some, L.save hgood]

end Runs

section Calls

variable {P : Program κ γ σ φ ε ρ} {Good : σ → Prop} {K : List (Nat × κ) → φ → Prop}

/-- Call `i` has left no note in between. -/
def Silent (i : Nat) (w w' : World κ γ σ φ) : Prop :=
  ∀ e ∈ w'.log, e.caller = some i → e ∈ w.log

/-- What call `i` has written has reached the file. -/
def Written (i : Nat) (w : World κ γ σ φ) : Prop :=
  w.InOrder → ∀ m, .serialised i m ∈ w.log → m ≤ w.file.stamp

variable (P) in
/-- What call `i` was asked for has been applied, unless it needs no state. -/
def Acknowledged (i : Nat) (w : World κ γ σ φ) : Prop :=
  ∀ c, .called i c ∈ w.log → P.guard c = .ok none → (i, c) ∈ applied w.log

/-- Call `i` has written nothing that might be missing in the file. -/
def Failed (i : Nat) (w : World κ γ σ φ) : Prop := .failed ∈ w.log ∨ ∀ m, .serialised i m ∉ w.log

theorem Written.grows {w w' : World κ γ σ φ} (h : Written i w) (hg : Grows P Good K w w')
    (hs : Silent i w w') : Written i w' := fun ho m hm =>
  Nat.le_trans (h (ho.of_suffix hg.log) m (hs _ hm rfl)) (hg.saved ho)

theorem applied_suffix {w w' : World κ γ σ φ} (hl : w.log <:+ w'.log) (h : x ∈ applied w.log) :
    x ∈ applied w'.log := by
  obtain ⟨i, c⟩ := x
  obtain ⟨b, hb⟩ := mem_applied.1 h
  exact mem_applied.2 ⟨b, hl.subset hb⟩

theorem Acknowledged.grows {w w' : World κ γ σ φ} (h : Acknowledged P i w)
    (hl : w.log <:+ w'.log) (hs : Silent i w w') : Acknowledged P i w' :=
  fun c hc hg => applied_suffix hl (h c (hs _ hc rfl) hg)

theorem Failed.grows {w w' : World κ γ σ φ} (h : Failed i w) (hl : w.log <:+ w'.log)
    (hs : Silent i w w') : Failed i w' :=
  h.imp (fun hf => hl.subset hf) fun hn m hm => hn m (hs _ hm rfl)

variable (P Good K) in
/-- What call `i` relies on: the others leave no notes in its name. -/
def Relies (i : Nat) (w w' : World κ γ σ φ) : Prop := Grows P Good K w w' ∧ Silent i w w'

variable (P Good K) in
def Guarantees (i : Nat) (w w' : World κ γ σ φ) : Prop :=
  Grows P Good K w w' ∧ ∀ j, j ≠ i → Silent j w w'

theorem Guarantees.note {w w' : World κ γ σ φ} (hg : Grows P Good K w w') (hl : w'.log = l ++ w.log)
    (hc : ∀ e ∈ l, ∀ j, e.caller = some j → j = i) : Guarantees P Good K i w w' := by
  refine ⟨hg, fun j hj e he hi => ?_⟩
  rw [hl] at he
  obtain he | he := List.mem_append.1 he
  · exact absurd (hc e he j hi) hj
  · exact he

theorem Guarantees.refl (w : World κ γ σ φ) : Guarantees P Good K i w w :=
  ⟨.refl w, fun _ _ _ he _ => he⟩

theorem Guarantees.failed (w : World κ γ σ φ) : Guarantees P Good K i w (w.emit .failed) :=
  .note (l := [.failed]) (.emit rfl) rfl (by simp [Note.caller])

/-- Call `i` has left the note of its start and no other. -/
structure Begun (P : Program κ γ σ φ ε ρ) (Good : σ → Prop) (K : List (Nat × κ) → φ → Prop)
    (i : Nat) (c : κ) (w : World κ γ σ φ) : Prop where
  sound : Sound P Good K w
  only : ∀ e ∈ w.log, e.caller = some i → e = .called i c

theorem Begun.relies (h : Begun P Good K i c w) (hr : Relies P Good K i w w') :
    Begun P Good K i c w' := by
  obtain ⟨hgrows, hsilent⟩ := hr
  constructor
  · exact hgrows.sound h.sound
  · intro e he hi
    exact h.only e (hsilent e he hi) hi

/-- Call `i` has applied its operation, and is on its way to put the snapshot `d` in place. -/
structure Pending (P : Program κ γ σ φ ε ρ) (Good : σ → Prop) (K : List (Nat × κ) → φ → Prop)
    (i : Nat) (d : Snapshot φ) (w : World κ γ σ φ) : Prop where
  sound : Sound P Good K w
  valid : Valid P d w
  only : ∀ m, .serialised i m ∈ w.log → m = d.stamp
  applied : Acknowledged P i w

theorem Pending.grows (h : Pending P Good K i d w) (hg : Grows P Good K w w')
    (hs : Silent i w w') : Pending P Good K i d w' where
  sound := hg.sound h.sound
  valid := hg.valid d h.sound h.valid
  only m hm := h.only m (hs _ hm rfl)
  applied := h.applied.grows hg.log hs

theorem rename_silent {w : World κ γ σ φ} (i : Nat) : Silent i w (w.rename tmp stamp).2 := by
  intro e hm hi
  obtain he | ⟨d, -, he⟩ := w.rename_cases tmp stamp <;> rw [he] at hm <;>
    obtain rfl | hm := List.mem_cons.1 hm
  · cases hi
  · exact hm
  · cases hi
  · exact hm

theorem Pending.rename (h : Pending P Good K i d w) (hr : (w.rename tmp d.stamp).1 = true) :
    Written i (w.rename tmp d.stamp).2 ∧ Acknowledged P i (w.rename tmp d.stamp).2 := by
  have hp : Pending P Good K i d (w.rename tmp d.stamp).2 :=
    h.grows (.rename h.sound) (rename_silent i)
  refine ⟨fun ho m hm => ?_, hp.applied⟩
  rw [rename_saved hr ho]
  exact Nat.le_of_eq (hp.only m hm)

open Async

theorem fileOp_sat {i : Nat} {M N : World κ γ σ φ → Prop}
    {Q : Unit → World κ γ σ φ → World κ γ σ φ → Prop}
    {E : ε → World κ γ σ φ → World κ γ σ φ → Prop}
    (h₁ : ∀ {w w'}, M w → Relies P Good K i w w' → M w')
    (h₂ : ∀ {w w'}, N w → Relies P Good K i w w' → N w')
    (hf : ∀ w, M w → Guarantees P Good K i w (f w).2 ∧ ((f w).1 = true → N (f w).2) ∧
      ((f w).1 = false → .failed ∈ (f w).2.log))
    (h : Guarantees P Good K i w₀ w) (hk : M w) (hQ : ∀ w, N w → Q () w w)
    (hE : ∀ w, .failed ∈ w.log → E P.io w w) :
    Sat (Relies P Good K i) (Guarantees P Good K i) Q E (fileOp P f) w₀ w := by
  simp only [fileOp, sat_bind, sat_wait, sat_updateGet]
  refine ⟨h, fun t ht ok => ?_⟩
  have hkt := h₁ hk ht
  cases ok with
  | false =>
    refine ⟨.failed t, fun u hu b => hE u (hu.1.log.subset ?_)⟩
    exact List.mem_cons_self
  | true =>
    obtain ⟨hstep, hdone, hfailed⟩ := hf t hkt
    refine ⟨hstep, fun u hu b => ?_⟩
    simp only [if_true]
    cases hd : (f t).1 with
    | true => exact hQ u (h₂ (hdone hd) hu)
    | false => exact hE u (hu.1.log.subset (hfailed hd))

theorem place_sat {Q : Unit → World κ γ σ φ → World κ γ σ φ → Prop}
    {E : ε → World κ γ σ φ → World κ γ σ φ → Prop} (tmp : Nat)
    (h : Guarantees P Good K i w₀ w) (hp : Pending P Good K i d w)
    (hQ : ∀ w, Written i w → Acknowledged P i w → Q () w w)
    (hE : ∀ w, .failed ∈ w.log → E P.io w w) :
    Sat (Relies P Good K i) (Guarantees P Good K i) Q E (do
      fileOp P fun w => (true, w.writeFile tmp d)
      fileOp P fun w => w.rename tmp d.stamp) w₀ w := by
  have hpending {w w'} (h : Pending P Good K i d w) (hr : Relies P Good K i w w') :
      Pending P Good K i d w' := h.grows hr.1 hr.2
  have hdone {w w'} (h : Written i w ∧ Acknowledged P i w) (hr : Relies P Good K i w w') :
      Written i w' ∧ Acknowledged P i w' := by
    obtain ⟨hgrows, hsilent⟩ := hr
    exact ⟨h.1.grows hgrows hsilent, h.2.grows hgrows.log hsilent⟩
  simp only [sat_bind]
  refine fileOp_sat hpending hpending (fun w hp => ?_) h hp (fun w hp => ?_) hE
  · -- the temporary file is written
    have hwrite : Grows P Good K w (w.writeFile tmp d) := .writeFile hp.valid
    refine ⟨.note (l := []) hwrite rfl fun _ he => (by cases he), fun _ => ?_, fun he => by cases he⟩
    exact hp.grows hwrite fun _ he _ => he
  · refine fileOp_sat hpending hdone (fun w hp => ?_) (.refl w) hp (fun w h => hQ w h.1 h.2) hE
    have hrename : Guarantees P Good K i w (w.rename tmp d.stamp).2 :=
      ⟨.rename hp.sound, fun j _ => rename_silent j⟩
    exact ⟨hrename, hp.rename, rename_failed⟩

theorem Begun.applied (hb : Begun P Good K i c w) : Acknowledged P i (w.apply P i r c).2 := by
  intro c' hc _
  obtain hc | hc := List.mem_cons.1 hc
  · cases hc
  · cases hb.only _ hc rfl
    exact mem_applied.2 ⟨_, List.mem_cons_self⟩

theorem sound_opened (shared : γ) (file : Option φ) : Sound P Good K (.opened shared file) where
  good := nofun
  cache := nofun
  unopened _ := ⟨rfl, rfl, rfl⟩
  saved := ⟨Nat.le_refl _, fun _ _ _ => nofun⟩
  temps := nofun
  latest := .inl rfl
  kept _ _ := nofun

variable (L : P.Laws Good K)

include L

theorem load_sat {Q : Nat → World κ γ σ φ → World κ γ σ φ → Prop}
    {E : ε → World κ γ σ φ → World κ γ σ φ → Prop} (h : Guarantees P Good K i w₀ w)
    (hb : Begun P Good K i c w)
    (hQ : ∀ r w₀ w, Guarantees P Good K i w₀ w → Begun P Good K i c w → w.cache ≠ none → Q r w₀ w)
    (hE : ∀ e w₀ w, Guarantees P Good K i w₀ w → .failed ∈ w.log → E e w₀ w) :
    Sat (Relies P Good K i) (Guarantees P Good K i) Q E (load P) w₀ w := by
  simp only [load, sat_bind, sat_read]
  cases hc : w.cache with
  | some r => exact hQ r w₀ w h hb (by simp [hc])
  | none =>
    simp only [sat_bind, sat_wait, sat_read]
    refine fileOp_sat (M := Begun P Good K i c) (N := Begun P Good K i c) .relies .relies
      (fun w hb => ⟨.refl w, fun _ => hb, fun he => by cases he⟩) h hb (fun t ht => ?_)
      fun w hf => hE P.io w w (.refl w) hf
    refine ⟨.refl t, fun u hu ok => ?_⟩
    have hb := ht.relies hu
    cases ok with
    | false =>
      refine hE P.io u _ (.failed u) ?_
      exact List.mem_cons_self
    | true =>
      simp only [if_true, sat_bind, sat_wait, sat_updateGet]
      refine ⟨.refl u, fun v hv b => ?_⟩
      have hb := hb.relies hv
      have hg : Grows P Good K v (v.publish P u.file.content) :=
        .publish L fun hn => congrArg Snapshot.content (hv.1.unopened hn).2
      refine hQ _ v _ (.note (l := [_]) hg rfl (by simp [Note.caller])) ?_
        (by simp [World.publish, World.emit])
      refine ⟨hg.sound hb.sound, fun e he hi => ?_⟩
      obtain rfl | he := List.mem_cons.1 he
      · cases hi
      · exact hb.only e he hi

theorem Begun.pending (hb : Begun P Good K i c w) (hn : w.cache ≠ none)
    (hg : P.guard c = .ok none) : Pending P Good K i ((w.apply P i r c).2.serialise P i).1.2
      ((w.apply P i r c).2.serialise P i).2 := by
  obtain ⟨hgrows, hv⟩ := hb.sound.commit (i := i) (r := r) L hn hg
  constructor
  · exact hgrows.sound hb.sound
  · exact hv
  · intro m hm
    obtain hm | hm := List.mem_cons.1 hm
    · cases hm
      rfl
    · obtain hm | hm := List.mem_cons.1 hm
      · cases hm
      · cases hb.only _ hm rfl
  · intro c' hc hg'
    obtain hc | hc := List.mem_cons.1 hc
    · cases hc
    · exact hb.applied c' hc hg'

theorem call_sat (i : Nat) (c : κ) (h : Sound P Good K w)
    (hno : ∀ e ∈ w.log, e.caller ≠ some i) :
    Sat (Relies P Good K i) (Guarantees P Good K i)
      (fun _ w₀ w => Guarantees P Good K i w₀ w ∧ Written i w ∧ Acknowledged P i w)
      (fun _ w₀ w => Guarantees P Good K i w₀ w ∧ Failed i w) (call P i c) w w := by
  have hg : Grows P Good K w (w.emit (.called i c)) := .emit rfl
  have hG : Guarantees P Good K i w (w.emit (.called i c)) :=
    .note (l := [_]) hg rfl (by simp [Note.caller])
  have hb : Begun P Good K i c (w.emit (.called i c)) := by
    refine ⟨hg.sound h, fun e he hi => ?_⟩
    obtain rfl | he := List.mem_cons.1 he
    · rfl
    · exact absurd hi (hno e he)
  simp only [call, sat_bind, sat_update]
  cases hc : P.guard c with
  | error e =>
    refine ⟨hG, .inr fun m hm => ?_⟩
    cases hb.only _ hm rfl
  | ok a =>
    cases a with
    | some a =>
      refine ⟨hG, ?_, ?_⟩
      · intro _ m hm
        cases hb.only _ hm rfl
      · intro c' hm hn
        cases hb.only _ hm rfl
        cases hc.symm.trans hn
    | none =>
      simp only [sat_bind, sat_wait, sat_updateGet]
      refine load_sat L hG hb (fun r w₀ w hG hb hn => ⟨hG, fun t ht _ => ?_⟩)
        fun e w₀ w hG hf => ⟨hG, .inl hf⟩
      have hb := hb.relies ht
      have hn : t.cache ≠ none := fun hn' => hn (ht.1.unopened hn').1
      cases hp : (t.apply P i r c).1.persists with
      | true =>
        simp only [if_true, sat_bind, persist, sat_updateGet, sat_pure]
        have hcommit : Guarantees P Good K i t ((t.apply P i r c).2.serialise P i).2 := by
          refine .note (l := [_, _]) (hb.sound.commit L hn hc).1 rfl ?_
          simp [Note.caller]
        refine (sat_bind (fileOp P _) _ _ _).1 (place_sat _ hcommit (hb.pending L hn hc) ?_ ?_)
        · exact fun w hw ha => ⟨.refl w, hw, ha⟩
        · exact fun w hf => ⟨.refl w, .inl hf⟩
      | false =>
        simp only [Bool.false_eq_true, if_false, sat_pure]
        have hquiet : Guarantees P Good K i t (t.apply P i r c).2 :=
          .note (l := [_]) (hb.sound.apply_quiet L hn hc hp) rfl (by simp [Note.caller])
        refine ⟨hquiet, ?_, hb.applied⟩
        intro _ m hm
        obtain hm | hm := List.mem_cons.1 hm
        · cases hm
        · cases hb.only _ hm rfl

/-- What overlapping calls rely on and guarantee. -/
def keeping : Pool.Contract (call P) fun _ => True where
  R := Relies P Good K
  G := Guarantees P Good K
  Pre i w := Sound P Good K w ∧ ∀ e ∈ w.log, e.caller ≠ some i
  Q i _ w := Written i w ∧ Acknowledged P i w
  E i _ w := Failed i w
  R_refl _ w := ⟨.refl w, fun _ he _ => he⟩
  R_trans := by
    rintro i w w' w'' ⟨hg, hs⟩ ⟨hg', hs'⟩
    exact ⟨hg.trans hg', fun e he hi => hs e (hs' e he hi) hi⟩
  rely hij h := ⟨h.1, h.2 _ hij.symm⟩
  pre_stable := by
    rintro i w w' ⟨hsound, hno⟩ ⟨hg, hs⟩
    exact ⟨hg.sound hsound, fun e he hi => hno e (hs e he hi) hi⟩
  q_stable := by
    rintro i _ w w' ⟨hw, ha⟩ ⟨hg, hs⟩
    exact ⟨hw.grows hg hs, ha.grows hg.log hs⟩
  e_stable h hr := h.grows hr.1.log hr.2
  sound i c _ _ h := call_sat L i c h.1 h.2

theorem keeping_run (shared : γ) (file : Option φ) (moves : List (Move κ Bool)) :
    (keeping L).Good (run P (.opened shared file) moves) :=
  (Pool.Contract.Good.start (keeping L) fun _ => ⟨sound_opened shared file, nofun⟩).run
    fun _ _ => trivial

/-- The law between the operations that were applied and the state in the cache holds throughout,
every operation that has returned is among them, and once every call has finished, the file holds
the state in the cache. -/
theorem runs_keep (shared : γ) (file : Option φ) (moves : List (Move κ Bool)) :
    let p := run P (.opened shared file) moves
    (∀ i c a, .called i c ∈ p.shared.log → P.guard c = .ok none → p.result i = some (.ok a) →
      (i, c) ∈ applied p.shared.log ∧ ∃ s, p.shared.held = some s) ∧
    (p.shared.Steady → ∀ s, p.shared.held = some s → Good s ∧
      K (applied p.shared.log) (P.save s) ∧
      (p.shared.InOrder → p.shared.Clean → p.Finished →
        P.save (P.load p.shared.file.content) = P.save s)) := by
  intro p
  have hgood : (keeping L).Good p := keeping_run L shared file moves
  have hs : Sound P Good K p.shared := hgood.pre.1
  refine ⟨fun i c a hc hg hr => ?_, fun hst s hw => ?_⟩
  · have ha := (hgood.returned hr).2 c hc hg
    refine ⟨ha, ?_⟩
    cases hn : p.shared.cache with
    | none => rw [(hs.unopened hn).2.2] at ha; cases ha
    | some r => exact (hs.held_some hn).imp fun _ h => h.2.1
  have hgs : Good s := by
    obtain ⟨r, hr, -⟩ := Option.bind_eq_some_iff.1 hw
    obtain ⟨s', -, hw', hgs⟩ := hs.held_some hr
    cases hw.symm.trans hw'
    exact hgs
  refine ⟨hgs, hs.kept hst s hw, ?_⟩
  intro ho hclean hfin
  refine hs.saved.2 hst (Nat.le_antisymm hs.saved.1 ?_) s hw
  obtain hz | ⟨i, hm⟩ := hs.latest
  · omega
  · have hi : i < p.calls.length := Nat.lt_of_not_le fun hle => (hgood.fresh i hle).2 _ hm rfl
    cases hr : p.result i with
    | none => exact absurd hr (hfin i hi)
    | some r =>
      cases r with
      | ok a => exact (hgood.returned hr).1 ho _ hm
      | error e =>
        obtain hf | hn := hgood.threw hr
        · exact absurd hf hclean
        · exact absurd hm (hn _)

end Calls

end Mise.Cached
