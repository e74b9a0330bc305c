import Mise.Gateway.Reissue

set_option autoImplicit true

namespace Mise.Gateway

/-- Every rename put in place what its own call had written, over nothing later. -/
def World.InOrder (w : World) : Prop := .renamed false ∉ w.log

/-- No file operation failed, and no date was out of range. -/
def World.Clean (w : World) : Prop := ∀ f, .failed f ∉ w.log

instance (w : World) : Decidable w.InOrder := inferInstanceAs (Decidable (¬ _))

theorem World.clean_iff (w : World) :
    w.Clean ↔ ∀ e ∈ w.log, e ≠ .failed .io ∧ e ≠ .failed .rangeError := by
  constructor
  · intro h e he
    exact ⟨fun hf => h .io (hf ▸ he), fun hf => h .rangeError (hf ▸ he)⟩
  · intro h f hf
    cases f with
    | io => exact (h _ hf).1 rfl
    | rangeError => exact (h _ hf).2 rfl

instance (w : World) : Decidable w.Clean := decidable_of_iff _ w.clean_iff.symm

theorem World.InOrder.of_suffix {w w' : World} (h : w'.InOrder) (hl : w.log <:+ w'.log) :
    w.InOrder := fun hm => h (hl.subset hm)

theorem World.Clean.of_suffix {w w' : World} (h : w'.Clean) (hl : w.log <:+ w'.log) :
    w.Clean := fun f hm => h f (hl.subset hm)

/-- `past` is the history that the snapshot `d` reflects: all of it up to the stamp of `d`. -/
structure Captures (q : Int) (d : Snapshot) (log past : List Trace) : Prop where
  suffix : past <:+ log
  accounted : Accounted q d.state past
  issued : ∀ i n t m, .issued i n t m ∈ log → m ≤ d.stamp → .issued i n t m ∈ past

/-- A snapshot that a persist of this store has made, or the file it began with. -/
structure Valid (q : Int) (d : Snapshot) (w : World) : Prop where
  le : d.stamp ≤ w.stamp
  captures : ∃ past, Captures q d w.log past
  current : w.Clean → d.stamp = w.stamp → d.state = w.held

/-- The loaded store and its directory. -/
structure Sound (q : Int) (w : World) : Prop where
  state : w.state = some 0
  object : w.objects = [w.held]
  accounted : Accounted q w.held w.log
  saved : Valid q w.saved w
  temps : ∀ x ∈ w.temps, Valid q x.2 w
  latest : w.stamp = 0 ∨ ∃ i, .serialised i w.stamp ∈ w.log

/-- What every call does to a loaded store. -/
structure Grows (q : Int) (w w' : World) : Prop where
  log : w.log <:+ w'.log
  sound : Sound q w → Sound q w'
  valid : ∀ d, Sound q w → Valid q d w → Valid q d w'
  saved : w'.InOrder → w.saved.stamp ≤ w'.saved.stamp

theorem Grows.refl (q : Int) (w : World) : Grows q w w :=
  ⟨List.suffix_rfl, fun h => h, fun _ _ h => h, fun _ => Nat.le_refl _⟩

theorem Grows.trans (h : Grows q w w') (h' : Grows q w' w'') : Grows q w w'' where
  log := h.log.trans h'.log
  sound hs := h'.sound (h.sound hs)
  valid d hs hd := h'.valid d (h.sound hs) (h.valid d hs hd)
  saved ho := Nat.le_trans (h.saved (ho.of_suffix h'.log)) (h'.saved ho)

/-- Nothing but the temporary files and the history has changed, and no index was issued. -/
theorem Valid.quiet {w w' : World} (h : Valid q d w) (hs : w'.stamp = w.stamp)
    (hh : w'.held = w.held) (hl : w.log <:+ w'.log)
    (hi : ∀ i n t m, .issued i n t m ∈ w'.log → .issued i n t m ∈ w.log) : Valid q d w' where
  le := hs ▸ h.le
  captures := by
    obtain ⟨past, hp⟩ := h.captures
    exact ⟨past, hp.suffix.trans hl, hp.accounted,
      fun i n t m hm hle => hp.issued i n t m (hi i n t m hm) hle⟩
  current hc he := (h.current (hc.of_suffix hl) (he.trans hs)).trans hh.symm

theorem Grows.emit (he : ¬ e.IsIssue) : Grows q w (w.emit e) := by
  have hl : w.log <:+ (w.emit e).log := List.suffix_cons e w.log
  have hi : ∀ i n t m, .issued i n t m ∈ (w.emit e).log → .issued i n t m ∈ w.log := by
    intro i n t m hm
    obtain rfl | hm := List.mem_cons.1 hm
    · exact absurd trivial he
    · exact hm
  have hv : ∀ d, Valid q d w → Valid q d (w.emit e) := fun d hd => hd.quiet rfl rfl hl hi
  exact ⟨hl, fun h => ⟨h.state, h.object, h.accounted.cons he, hv _ h.saved,
    fun x hx => hv _ (h.temps x hx), h.latest.imp_right fun ⟨i, hm⟩ => ⟨i, hl.subset hm⟩⟩,
    fun d _ => hv d, fun _ => Nat.le_refl _⟩

theorem Grows.writeFile (hd : Valid q d w) : Grows q w (w.writeFile tmp d) := by
  have hv : ∀ d', Valid q d' w → Valid q d' (w.writeFile tmp d) := fun d' hd' =>
    hd'.quiet rfl rfl List.suffix_rfl fun _ _ _ _ hm => hm
  have ht : Sound q w → ∀ x ∈ (w.writeFile tmp d).temps, Valid q x.2 (w.writeFile tmp d) := by
    intro h x hx
    obtain rfl | hx := List.mem_cons.1 hx
    · exact hv d hd
    · exact hv _ (h.temps x (List.mem_of_mem_filter hx))
  exact ⟨List.suffix_rfl, fun h => ⟨h.state, h.object, h.accounted, hv _ h.saved, ht h, h.latest⟩,
    fun d' _ => hv d', fun _ => Nat.le_refl _⟩

theorem Grows.replace (hd : Sound q w → Valid q d w)
    (ho : inOrder = true → w.saved.stamp ≤ d.stamp) : Grows q w (w.replace tmp d inOrder) := by
  have hl : w.log <:+ (w.replace tmp d inOrder).log := List.suffix_cons _ _
  have hv : ∀ d', Valid q d' w → Valid q d' (w.replace tmp d inOrder) := fun d' hd' =>
    hd'.quiet rfl rfl hl fun i n t m hm => by simpa [World.replace] using hm
  constructor
  · exact hl
  · intro h
    exact ⟨h.state, h.object, h.accounted.cons (by simp [Trace.IsIssue]), hv d (hd h),
      fun x hx => hv _ (h.temps x (List.mem_of_mem_filter hx)),
      h.latest.imp_right fun ⟨i, hm⟩ => ⟨i, hl.subset hm⟩⟩
  · exact fun d' _ => hv d'
  · intro hin
    cases inOrder with
    | true => exact ho rfl
    | false => exact absurd List.mem_cons_self hin

theorem Grows.rename {w : World} : Grows q w (w.rename tmp stamp).2 := by
  obtain he | ⟨d, hd, he⟩ := w.rename_cases tmp stamp <;> rw [he]
  · exact .emit (by simp [Trace.IsIssue])
  · exact .replace (fun h => h.temps _ hd) fun ho => by
      have ho := of_decide_eq_true ho
      omega

theorem rename_saved {w : World} (hr : (w.rename tmp stamp).1 = true)
    (ho : (w.rename tmp stamp).2.InOrder) : (w.rename tmp stamp).2.saved.stamp = stamp := by
  obtain he | ⟨d, -, he⟩ := w.rename_cases tmp stamp <;> rw [he] at hr ho ⊢
  · cases hr
  · by_contra hn
    exact ho (by simp [World.replace, show d.stamp ≠ stamp from hn])

theorem rename_failed {w : World} (hr : (w.rename tmp stamp).1 = false) :
    .failed .io ∈ (w.rename tmp stamp).2.log := by
  obtain he | ⟨d, -, he⟩ := w.rename_cases tmp stamp <;> rw [he] at hr ⊢
  · exact List.mem_cons_self
  · cases hr

theorem issued_ofCall (h : .issued j n t m ∈ Trace.ofCall i stamp k a) : m = stamp := by
  unfold Trace.ofCall at h
  split at h <;> simp at h
  exact h.2.2.2

theorem serialised_ofCall : .serialised j m ∉ Trace.ofCall i stamp k a := by
  unfold Trace.ofCall
  split <;> simp

theorem apply_idle (h : (IndexState.apply q s k).1 = .ok a) (hp : persists (.ok a) = false) :
    (s.apply q k).2 = s ∧ Trace.ofCall i m k (.ok a) = [] := by
  cases k with
  | allocate now => cases h; cases hp
  | release index now =>
    obtain ⟨-, hr⟩ | ⟨-, -, hr⟩ | ⟨-, -, -, hr⟩ | ⟨-, -, -, hr⟩ := s.release_cases index now <;>
      simp only [IndexState.apply, hr] at h ⊢ <;> cases h
    · exact ⟨by simp, rfl⟩
    · cases hp
    · cases hp
  | settle index =>
    obtain ⟨-, hr⟩ | ⟨-, hr⟩ := s.settle_cases index <;>
      simp only [IndexState.apply, hr] at h ⊢ <;> cases h
    · exact ⟨by simp, rfl⟩
    · cases hp

theorem Sound.mutate (h : Sound q w) (i : Nat) (k : Call) :
    w.mutate q i 0 k = ((w.held.apply q k).1, { w with
      objects := [(w.held.apply q k).2]
      log := Trace.ofCall i (w.stamp + 1) k (w.held.apply q k).1 ++ w.log }) := by
  simp [World.mutate, h.object]

theorem Sound.idle (h : Sound q w) (ha : (w.mutate q i 0 k).1 = .ok a)
    (hp : persists (.ok a) = false) : (w.mutate q i 0 k).2 = w := by
  rw [h.mutate] at ha ⊢
  obtain ⟨hs, hl⟩ := apply_idle (i := i) (m := w.stamp + 1) ha hp
  simp only [hs, show (w.held.apply q k).1 = .ok a from ha, hl, List.nil_append, ← h.object]

/-- Whatever happens to the state object, a snapshot made before still reflects its own past. -/
theorem Captures.later (h : Captures q d log past)
    (hi : ∀ i n t m, .issued i n t m ∈ l → d.stamp < m) : Captures q d (l ++ log) past where
  suffix := h.suffix.trans (List.suffix_append l log)
  accounted := h.accounted
  issued i n t m hm hle := by
    obtain hm | hm := List.mem_append.1 hm
    · have := hi i n t m hm
      omega
    · exact h.issued i n t m hm hle

theorem Sound.change {w w' : World} (h : Sound q w) (hs : w'.state = w.state)
    (ho : w'.objects = [w'.held]) (hf : w'.file = w.file) (ht : w'.temps = w.temps)
    (hl : w'.log = l ++ w.log) (ha : Accounted q w'.held w'.log)
    (hi : ∀ i n t m, .issued i n t m ∈ l → w.stamp < m)
    (hst : w.stamp < w'.stamp ∧ (∃ i, .serialised i w'.stamp ∈ w'.log) ∨
      w'.stamp = w.stamp ∧ ¬ w'.Clean) : Grows q w w' := by
  have hsuf : w.log <:+ w'.log := hl ▸ List.suffix_append l w.log
  have hsaved : w'.saved = w.saved := by simp only [World.saved, hf]
  have hv : ∀ d, Valid q d w → Valid q d w' := by
    intro d hd
    have hle := hd.le
    obtain ⟨past, hp⟩ := hd.captures
    refine ⟨by omega, ⟨past, hl ▸ hp.later fun i n t m hm => ?_⟩, fun hc he => ?_⟩
    · have := hi i n t m hm
      omega
    · obtain ⟨hlt, -⟩ | ⟨-, hno⟩ := hst
      · omega
      · exact absurd hc hno
  refine ⟨hsuf, fun _ => ⟨hs.trans h.state, ho, ha, hsaved ▸ hv _ h.saved, ?_, ?_⟩,
    fun d _ => hv d, fun _ => hsaved ▸ Nat.le_refl _⟩
  · rw [ht]
    exact fun x hx => hv _ (h.temps x hx)
  · obtain ⟨-, hm⟩ | ⟨he, -⟩ := hst
    · exact .inr hm
    · rw [he]
      exact h.latest.imp_right fun ⟨i, hm⟩ => ⟨i, hsuf.subset hm⟩

theorem Sound.fault (h : Sound q w) (ha : (w.mutate q i 0 k).1 = .error f) :
    Grows q w (w.mutate q i 0 k).2 ∧ .failed f ∈ (w.mutate q i 0 k).2.log := by
  have hacc := h.accounted.apply k i (w.stamp + 1)
  rw [h.mutate] at ha ⊢
  rw [show (w.held.apply q k).1 = .error f from ha] at hacc ⊢
  have hm : .failed f ∈ Trace.ofCall i (w.stamp + 1) k (.error f) ++ w.log := by
    simp [Trace.ofCall]
  exact ⟨h.change rfl (by simp [World.held, h.state]) rfl rfl rfl
    (by simpa [World.held, h.state] using hacc) (fun j n t m hj => by cases k <;> simp [Trace.ofCall] at hj)
    (.inr ⟨rfl, fun hc => hc f hm⟩), hm⟩

theorem Sound.serialise (h : Sound q w) (i : Nat) (k : Call) (clock : Int) :
    (w.mutate q i 0 k).2.serialise i clock =
      (((w.tmpSeq + 1) % 1000000,
        ⟨{ (w.held.apply q k).2 with updatedAt := some clock }, w.stamp + 1⟩), { w with
        tmpSeq := (w.tmpSeq + 1) % 1000000
        stamp := w.stamp + 1
        objects := [{ (w.held.apply q k).2 with updatedAt := some clock }]
        log := (.serialised i (w.stamp + 1) ::
          Trace.ofCall i (w.stamp + 1) k (w.held.apply q k).1) ++ w.log }) := by
  simp [h.mutate, World.serialise, World.held, h.state]

theorem Sound.commit (h : Sound q w) (i : Nat) (k : Call) (clock : Int) :
    Grows q w ((w.mutate q i 0 k).2.serialise i clock).2 ∧
      Valid q ((w.mutate q i 0 k).2.serialise i clock).1.2
        ((w.mutate q i 0 k).2.serialise i clock).2 := by
  have hacc := ((h.accounted.apply k i (w.stamp + 1)).updatedAt (some clock)).cons
    (e := .serialised i (w.stamp + 1)) (by simp [Trace.IsIssue])
  have hi : ∀ j n t m, .issued j n t m ∈ Trace.serialised i (w.stamp + 1) ::
      Trace.ofCall i (w.stamp + 1) k (w.held.apply q k).1 → w.stamp < m := by
    intro j n t m hm
    have := issued_ofCall ((List.mem_cons.1 hm).resolve_left (by simp))
    omega
  rw [h.serialise]
  have hheld : ∀ s l t n, World.held { w with tmpSeq := t, stamp := n, objects := [s], log := l } = s :=
    fun _ _ _ _ => by simp [World.held, h.state]
  refine ⟨h.change rfl (by rw [hheld]) rfl rfl rfl (by rw [hheld]; exact hacc) hi
    (.inl ⟨Nat.lt_succ_self _, i, List.mem_cons_self⟩), Nat.le_refl _,
    ⟨_, List.suffix_rfl, hacc, fun _ _ _ _ hm _ => hm⟩, fun _ _ => by rw [hheld]⟩

/-- What call `i` has written has reached the file. -/
def Written (i : Nat) (w : World) : Prop :=
  w.InOrder → ∀ m, .serialised i m ∈ w.log → m ≤ w.saved.stamp

/-- The index that call `i` is about to return was issued in a state that it has serialised. -/
def Issued (i : Nat) (a : Reply) (w : World) : Prop :=
  ∀ n, a = .index n → ∃ t m, .issued i n t m ∈ w.log ∧ .serialised i m ∈ w.log

theorem Issued.suffix (h : Issued i a w) (hl : w.log <:+ w'.log) : Issued i a w' := by
  intro n hn
  obtain ⟨t, m, hm, hs⟩ := h n hn
  exact ⟨t, m, hl.subset hm, hl.subset hs⟩

/-- Call `i` has serialised nothing in between. -/
def Silent (i : Nat) (w w' : World) : Prop := ∀ m, .serialised i m ∈ w'.log → .serialised i m ∈ w.log

theorem Written.grows (h : Written i w) (hg : Grows q w w') (hi : Silent i w w') : Written i w' := by
  intro ho m hm
  exact Nat.le_trans (h (ho.of_suffix hg.log) m (hi m hm)) (hg.saved ho)

/-- Call `i` is on its way to put the snapshot `d` in place. -/
structure Pending (q : Int) (i : Nat) (a : Reply) (d : Snapshot) (w : World) : Prop where
  sound : Sound q w
  valid : Valid q d w
  only : ∀ m, .serialised i m ∈ w.log → m = d.stamp
  issued : Issued i a w

theorem Pending.grows (h : Pending q i a d w) (hg : Grows q w w') (hi : Silent i w w') :
    Pending q i a d w' where
  sound := hg.sound h.sound
  valid := hg.valid d h.sound h.valid
  only m hm := h.only m (hi m hm)
  issued := h.issued.suffix hg.log

theorem issued_of_reply (q : Int) (s : IndexState) (i m : Nat) (k : Call)
    (h : (s.apply q k).1 = .ok (.index n)) :
    persists (.ok (.index n)) = true ∧ ∃ t, .issued i n t m ∈ Trace.ofCall i m k (s.apply q k).1 := by
  cases k with
  | allocate now =>
    rw [h]
    exact ⟨rfl, now, by simp [Trace.ofCall]⟩
  | release index now =>
    obtain ⟨-, hr⟩ | ⟨-, -, hr⟩ | ⟨-, -, -, hr⟩ | ⟨-, -, -, hr⟩ := s.release_cases index now <;>
      simp [IndexState.apply, hr, Except.map] at h
  | settle index => simp [IndexState.apply] at h

theorem Sound.serialised (h : Sound q w) (i : Nat) (k : Call) (clock : Int)
    (hm : .serialised j m ∈ ((w.mutate q i 0 k).2.serialise i clock).2.log) :
    (j = i ∧ m = w.stamp + 1) ∨ .serialised j m ∈ w.log := by
  rw [h.serialise] at hm
  obtain hm | hm := List.mem_cons.1 hm
  · cases hm
    exact .inl ⟨rfl, rfl⟩
  · exact .inr ((List.mem_append.1 hm).resolve_left serialised_ofCall)

theorem Sound.pending (h : Sound q w) (hno : ∀ m, .serialised i m ∉ w.log) (k : Call) (clock : Int)
    (ha : (w.mutate q i 0 k).1 = .ok a) :
    Pending q i a ((w.mutate q i 0 k).2.serialise i clock).1.2
      ((w.mutate q i 0 k).2.serialise i clock).2 := by
  obtain ⟨hg, hv⟩ := h.commit i k clock
  rw [h.mutate] at ha
  refine ⟨hg.sound h, hv, fun m hm => ?_, ?_⟩
  · obtain ⟨-, rfl⟩ | hm := h.serialised i k clock hm
    · rw [h.serialise]
    · exact absurd hm (hno m)
  · rintro n rfl
    obtain ⟨-, t, ht⟩ := issued_of_reply q w.held i (w.stamp + 1) k ha
    rw [h.serialise]
    exact ⟨t, w.stamp + 1, by simp [ht], by simp⟩

/-- What call `i` relies on: the others write nothing in its name. -/
def Relies (q : Int) (i : Nat) (w w' : World) : Prop := Grows q w w' ∧ Silent i w w'

def Guarantees (q : Int) (i : Nat) (w w' : World) : Prop :=
  Grows q w w' ∧ ∀ j, j ≠ i → Silent j w w'

theorem Guarantees.quiet (hg : Grows q w w')
    (hs : ∀ j m, .serialised j m ∈ w'.log → .serialised j m ∈ w.log) : Guarantees q i w w' :=
  ⟨hg, fun j _ => hs j⟩

theorem Guarantees.failed : Guarantees q i w (w.emit (.failed f)) :=
  .quiet (.emit (by simp [Trace.IsIssue])) fun j m hm => by simpa [World.emit] using hm

theorem rename_silent {w : World} (j : Nat) : Silent j w (w.rename tmp stamp).2 := by
  intro m hm
  obtain he | ⟨d, -, he⟩ := w.rename_cases tmp stamp <;> rw [he] at hm
  · simpa [World.emit] using hm
  · simpa [World.replace] using hm

theorem Guarantees.rename {w : World} : Guarantees q i w (w.rename tmp stamp).2 :=
  .quiet .rename fun j => rename_silent j

theorem Pending.rename (h : Pending q i a d w) (hr : (w.rename tmp d.stamp).1 = true) :
    Written i (w.rename tmp d.stamp).2 ∧ Issued i a (w.rename tmp d.stamp).2 := by
  have hg : Grows q w (w.rename tmp d.stamp).2 := .rename
  have hp := h.grows hg (rename_silent i)
  refine ⟨fun ho m hm => ?_, hp.issued⟩
  rw [rename_saved hr ho]
  exact Nat.le_of_eq (hp.only m hm)

theorem Guarantees.commit (h : Sound q w) (i : Nat) (k : Call) (clock : Int) :
    Guarantees q i w ((w.mutate q i 0 k).2.serialise i clock).2 :=
  ⟨(h.commit i k clock).1, fun _ hj _ hm =>
    (h.serialised i k clock hm).resolve_left fun he => hj he.1⟩

def Failed (w : World) : Prop := ∃ f, .failed f ∈ w.log

theorem Failed.suffix (h : Failed w) (hl : w.log <:+ w'.log) : Failed w' :=
  h.imp fun _ hf => hl.subset hf

section Calls

open Async

variable {Q : Unit → World → World → Prop} {E : Fault → World → World → Prop}

theorem place_sat (tmp : Nat) (h : Guarantees q i w₀ w) (hp : Pending q i a d w)
    (hQ : ∀ w, Written i w → Issued i a w → Q () w w) (hE : ∀ w, Failed w → E .io w w) :
    Sat (Relies q i) (Guarantees q i) Q E (do
      IndexStore.fileOp fun w => (true, w.writeFile tmp d)
      IndexStore.fileOp fun w => w.rename tmp d.stamp) w₀ w := by
  have hK : ∀ {w w'}, Pending q i a d w → Relies q i w w' → Pending q i a d w' :=
    fun h hr => h.grows hr.1 hr.2
  have hF : ∀ {w w'}, Failed w → Relies q i w w' → Failed w' := fun h hr => h.suffix hr.1.log
  have hfail : ∀ w, Pending q i a d w →
      Guarantees q i w (w.emit (.failed .io)) ∧ Failed (w.emit (.failed .io)) :=
    fun _ _ => ⟨.failed, .io, List.mem_cons_self⟩
  simp only [sat_bind]
  refine IndexStore.fileOp_sat hK hK hF (fun w hp => ⟨.quiet (.writeFile hp.valid) fun _ _ hm => hm,
    fun _ => hp.grows (.writeFile hp.valid) fun _ hm => hm, fun he => by cases he⟩) hfail h hp
    (fun w hp => ?_) hE
  have hK' : ∀ {w w'}, Written i w ∧ Issued i a w → Relies q i w w' →
      Written i w' ∧ Issued i a w' := fun h hr => ⟨h.1.grows hr.1 hr.2, h.2.suffix hr.1.log⟩
  refine IndexStore.fileOp_sat hK hK' hF (fun w hp => ⟨.rename, hp.rename,
      fun hr => ⟨.io, rename_failed hr⟩⟩) hfail (.quiet (.refl q w) fun _ _ hm => hm) hp
      (fun w h => hQ w h.1 h.2) hE

theorem call_durable (h : Sound q w) (hno : ∀ m, .serialised i m ∉ w.log) (k : Call) :
    Sat (Relies q i) (Guarantees q i)
      (fun a w₀ w => Guarantees q i w₀ w ∧ Written i w ∧ Issued i a w)
      (fun _ w₀ w => Guarantees q i w₀ w ∧ Failed w) (IndexStore.call q i k) w w := by
  have hrefl : ∀ w, Guarantees q i w w := fun w => .quiet (.refl q w) fun _ _ hm => hm
  simp only [IndexStore.call, IndexStore.load, sat_bind, sat_read, h.state, sat_pure, sat_wait,
    sat_updateGet]
  refine ⟨hrefl w, fun t ht b => ?_⟩
  have hs := ht.1.sound h
  have hno : ∀ m, .serialised i m ∉ t.log := fun m hm => hno m (ht.2 m hm)
  cases ha : (t.mutate q i 0 k).1 with
  | error f =>
    obtain ⟨hg, hf⟩ := hs.fault ha
    refine ⟨.quiet hg fun j m hm => ?_, f, hf⟩
    rw [hs.mutate] at hm
    exact (List.mem_append.1 hm).resolve_left serialised_ofCall
  | ok a =>
    cases hp : persists (.ok a) with
    | true =>
      simp only [hp, if_true, sat_bind, IndexStore.persist, sat_updateGet]
      have hplace := place_sat ((t.mutate q i 0 k).2.serialise i b.clock).1.1
        (Q := fun _ w₀ w => Guarantees q i w₀ w ∧ Written i w ∧ Issued i a w)
        (E := fun _ w₀ w => Guarantees q i w₀ w ∧ Failed w)
        (.commit hs i k b.clock) (hs.pending hno k b.clock ha)
        (fun w hw hi => ⟨hrefl w, hw, hi⟩) (fun w hf => ⟨hrefl w, hf⟩)
      simpa only [sat_bind, sat_pure] using hplace
    | false =>
      rw [hs.idle ha hp]
      simp only [hp, Bool.false_eq_true, if_false, sat_pure]
      refine ⟨hrefl t, fun _ m hm => absurd hm (hno m), ?_⟩
      rintro n rfl
      cases hp

/-- What overlapping calls on a loaded store rely on and guarantee. -/
def durability (q : Int) : Pool.Contract (IndexStore.call q) fun _ => True where
  R := Relies q
  G := Guarantees q
  Pre i w := Sound q w ∧ ∀ m, .serialised i m ∉ w.log
  Q i a w := Written i w ∧ Issued i a w
  E _ _ w := Failed w
  R_refl _ w := ⟨.refl q w, fun _ hm => hm⟩
  R_trans h h' := ⟨h.1.trans h'.1, fun m hm => h.2 m (h'.2 m hm)⟩
  rely hij h := ⟨h.1, h.2 _ hij.symm⟩
  pre_stable h hr := ⟨hr.1.sound h.1, fun m hm => h.2 m (hr.2 m hm)⟩
  q_stable h hr := ⟨h.1.grows hr.1 hr.2, h.2.suffix hr.1.log⟩
  e_stable h hr := h.suffix hr.1.log
  sound _ k _ _ h := call_durable h.1 h.2 k

end Calls

end Mise.Gateway
