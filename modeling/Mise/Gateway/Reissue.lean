import Mise.Gateway.IndexStore

set_option autoImplicit true

namespace Mise.Gateway

/-- No load has assigned `this.state` over the state of an earlier load. -/
def World.LoadedOnce (w : World) : Prop := .loaded true ∉ w.log

instance (w : World) : Decidable w.LoadedOnce := inferInstanceAs (Decidable (¬ _))

/-- Call `j` took index `n` after call `i` had taken it, and a release of it lies in between,
by at least the quarantine `q`. -/
def Separated (q : Int) (i j : Nat) (n : Int) (log : List Trace) : Prop :=
  ∃ l₁ l₂ l₃ t t' m m' k r, log = l₁ ++ .issued j n t' m' :: (l₂ ++ .issued i n t m :: l₃) ∧
    .released k n r ∈ l₂ ∧ q ≤ t' - r

/-- No two calls of `allocate` return one index, unless it was released in between. -/
def NeverReissued (q : Int) (p : Pool World Answer Fault Reply) : Prop :=
  ∀ i j n, i ≠ j → p.result i = some (.ok (.index n)) → p.result j = some (.ok (.index n)) →
    Separated q i j n p.shared.log ∨ Separated q j i n p.shared.log

/-- Since index `r.index` was last issued, it was released at the time that `r` records. -/
def ReleasedSince (r : Reclaimed) (log : List Trace) : Prop :=
  ∀ l₁ l₂ i t m, log = l₁ ++ .issued i r.index t m :: l₂ → ∃ k, .released k r.index r.releasedAt ∈ l₁

/-- Between two issues of one index lies a release of it, by at least the quarantine. -/
def Spaced (q : Int) (log : List Trace) : Prop :=
  ∀ l₁ l₂ l₃ i j n t t' m m', log = l₁ ++ .issued j n t' m' :: (l₂ ++ .issued i n t m :: l₃) →
    ∃ k r, .released k n r ∈ l₂ ∧ q ≤ t' - r

/-- The state object agrees with everything that has happened to it. -/
structure Accounted (q : Int) (s : IndexState) (log : List Trace) : Prop where
  wellFormed : s.WellFormed
  issued_lt : ∀ i n t m, .issued i n t m ∈ log → n < s.next
  reclaimed : ∀ r ∈ s.reclaimed, ReleasedSince r log
  spaced : Spaced q log

def Trace.IsIssue : Trace → Prop
  | .issued .. => True
  | _ => False

theorem ReleasedSince.cons (h : ReleasedSince r log) (he : ¬ e.IsIssue) :
    ReleasedSince r (e :: log) := by
  intro l₁ l₂ i t m hs
  cases l₁ with
  | nil => cases hs; exact absurd trivial he
  | cons x l₁ =>
    cases hs
    obtain ⟨k, hk⟩ := h _ _ _ _ _ rfl
    exact ⟨k, List.mem_cons_of_mem _ hk⟩

theorem Spaced.cons (h : Spaced q log) (he : ¬ e.IsIssue) : Spaced q (e :: log) := by
  intro l₁ l₂ l₃ i j n t t' m m' hs
  cases l₁ with
  | nil => cases hs; exact absurd trivial he
  | cons x l₁ => cases hs; exact h _ _ _ _ _ _ _ _ _ _ rfl

theorem Accounted.cons (h : Accounted q s log) (he : ¬ e.IsIssue) : Accounted q s (e :: log) where
  wellFormed := h.wellFormed
  issued_lt i n t m hm := by
    rcases List.mem_cons.1 hm with rfl | hm
    · exact absurd trivial he
    · exact h.issued_lt i n t m hm
  reclaimed r hr := (h.reclaimed r hr).cons he
  spaced := h.spaced.cons he

theorem Accounted.updatedAt (h : Accounted q s log) (t : Option Int) :
    Accounted q { s with updatedAt := t } log :=
  ⟨h.wellFormed.updatedAt t, h.issued_lt, h.reclaimed, h.spaced⟩

theorem Accounted.erase (h : Accounted q s log) :
    Accounted q { s with issued := s.issued.erase i } log :=
  ⟨h.wellFormed.erase, h.issued_lt, h.reclaimed, h.spaced⟩

/-- Every index that was handed out before is either live, in quarantine or gone, so the one
that `allocate` hands out now keeps its distance. -/
theorem Accounted.allocate (h : Accounted q s log) (now : Int) (i m : Nat) :
    Accounted q (s.allocate q now).2 (.issued i (s.allocate q now).1 now m :: log) := by
  have hw := h.wellFormed.allocate q now
  rcases s.allocate_cases q now with ⟨r, l₁, l₂, he, -, hready, ha⟩ | ⟨-, ha⟩ <;> rw [ha] at hw ⊢
  · obtain ⟨-, hlt, h₁, h₂⟩ := h.wellFormed.reclaimed_split he
    have hr : r ∈ s.reclaimed := by simp [he]
    have hsub : ∀ x ∈ l₁ ++ l₂, x ∈ s.reclaimed ∧ x.index ≠ r.index := by
      intro x hx
      rcases List.mem_append.1 hx with hx | hx
      · exact ⟨by simp [he, hx], fun e => h₁ (List.mem_map.2 ⟨x, hx, e⟩)⟩
      · exact ⟨by simp [he, hx], fun e => h₂ (List.mem_map.2 ⟨x, hx, e⟩)⟩
    refine ⟨hw, ?_, ?_, ?_⟩
    · intro j n t m' hm
      rcases List.mem_cons.1 hm with hm | hm
      · cases hm; exact hlt
      · exact h.issued_lt j n t m' hm
    · intro x hx l₃ l₄ j t m' hs
      cases l₃ with
      | nil =>
        simp only [List.nil_append, List.cons.injEq, Trace.issued.injEq] at hs
        exact absurd hs.1.2.1.symm (hsub x hx).2
      | cons y l₃ =>
        cases hs
        obtain ⟨k, hk⟩ := h.reclaimed x (hsub x hx).1 _ _ _ _ _ rfl
        exact ⟨k, List.mem_cons_of_mem _ hk⟩
    · intro l₃ l₄ l₅ j j' n t t' m₁ m₂ hs
      cases l₃ with
      | nil =>
        cases hs
        obtain ⟨k, hk⟩ := h.reclaimed r hr _ _ _ _ _ rfl
        exact ⟨k, r.releasedAt, hk, hready⟩
      | cons y l₃ => cases hs; exact h.spaced _ _ _ _ _ _ _ _ _ _ rfl
  · refine ⟨hw, ?_, ?_, ?_⟩
    · intro j n t m' hm
      change n < s.next + 1
      rcases List.mem_cons.1 hm with hm | hm
      · cases hm; omega
      · have := h.issued_lt j n t m' hm
        omega
    · intro x hx l₃ l₄ j t m' hs
      cases l₃ with
      | nil =>
        have hlt := h.wellFormed.released_lt x.index (List.mem_map.2 ⟨x, hx, rfl⟩)
        simp only [List.nil_append, List.cons.injEq, Trace.issued.injEq] at hs
        omega
      | cons y l₃ =>
        cases hs
        obtain ⟨k, hk⟩ := h.reclaimed x hx _ _ _ _ _ rfl
        exact ⟨k, List.mem_cons_of_mem _ hk⟩
    · intro l₃ l₄ l₅ j j' n t t' m₁ m₂ hs
      cases l₃ with
      | nil =>
        cases hs
        have hlt := h.issued_lt j s.next t m₁ (by simp)
        omega
      | cons y l₃ => cases hs; exact h.spaced _ _ _ _ _ _ _ _ _ _ rfl

theorem Accounted.release (h : Accounted q s log) (index now : Int) (i : Nat)
    (hr : s.release index now = (.ok true, { s with
      issued := s.issued.erase index
      reclaimed := s.reclaimed ++ [⟨index, now⟩] })) :
    Accounted q (s.release index now).2 (.released i index now :: log) := by
  have hw := h.wellFormed.release index now
  have h' := h.cons (e := .released i index now) (by simp [Trace.IsIssue])
  rw [hr] at hw ⊢
  refine ⟨hw, h'.issued_lt, ?_, h'.spaced⟩
  intro r hm
  rcases List.mem_append.1 hm with hm | hm
  · exact h'.reclaimed r hm
  · rw [List.mem_singleton.1 hm]
    intro l₁ l₂ j t m hs
    cases l₁ with
    | nil => cases hs
    | cons x l₁ => cases hs; exact ⟨i, List.mem_cons_self⟩

/-- Every call leaves the state object in agreement with the history. -/
theorem Accounted.apply (h : Accounted q s log) (k : Call) (i m : Nat) :
    Accounted q (s.apply q k).2 (Trace.ofCall i m k (s.apply q k).1 ++ log) := by
  cases k with
  | allocate now => exact h.allocate now i m
  | release index now =>
    rcases s.release_cases index now with ⟨-, hr⟩ | ⟨-, -, hr⟩ | ⟨-, -, -, hr⟩ | ⟨-, -, -, hr⟩
    · simpa [IndexState.apply, hr, Except.map, Trace.ofCall] using h
    · have h' := (h.erase (i := index)).cons (e := .released i index now) (by simp [Trace.IsIssue])
      simpa [IndexState.apply, hr, Except.map, Trace.ofCall] using h'
    · have h' := h.release index now i hr
      rw [hr] at h'
      simpa [IndexState.apply, hr, Except.map, Trace.ofCall] using h'
    · have h' := (h.erase (i := index)).cons (e := .failed .rangeError) (by simp [Trace.IsIssue])
      simpa [IndexState.apply, hr, Except.map, Trace.ofCall] using h'
  | settle index =>
    rcases s.settle_cases index with ⟨-, hr⟩ | ⟨-, hr⟩
    · simpa [IndexState.apply, hr, Trace.ofCall] using h
    · simpa [IndexState.apply, hr, Trace.ofCall] using h.erase (i := index)

/-- Before the first load has published its object, and after. -/
inductive Phase (q : Int) (w : World) : Prop where
  | unloaded (hs : w.state = none) (ho : w.objects = []) (hf : w.onDisk.WellFormed)
      (hl : ∀ e ∈ w.log, ¬ e.IsIssue)
  | loaded (s : IndexState) (hs : w.state = some 0) (ho : w.objects = [s])
      (ha : Accounted q s w.log)

/-- What any call may do to the shared state while no load has overwritten another. -/
structure Rely (q : Int) (w w' : World) : Prop where
  log : w.log <:+ w'.log
  phase : w'.LoadedOnce → Phase q w → Phase q w'
  state : w'.LoadedOnce → ∀ r, w.state = some r → w'.state = some r

theorem World.LoadedOnce.of_suffix {w w' : World} (h : w'.LoadedOnce) (hl : w.log <:+ w'.log) :
    w.LoadedOnce := fun hm => h (hl.subset hm)

theorem Rely.refl (q : Int) (w : World) : Rely q w w :=
  ⟨List.suffix_rfl, fun _ h => h, fun _ _ h => h⟩

theorem Rely.trans (h : Rely q w w') (h' : Rely q w' w'') : Rely q w w'' where
  log := h.log.trans h'.log
  phase hc hp := h'.phase hc (h.phase (hc.of_suffix h'.log) hp)
  state hc r hr := h'.state hc r (h.state (hc.of_suffix h'.log) r hr)

/-- The invariant, for as long as it lasts. -/
def Ok (q : Int) (w : World) : Prop := w.LoadedOnce → Phase q w

theorem Rely.ok (h : Rely q w w') (hw : Ok q w) : Ok q w' :=
  fun hc => h.phase hc (hw (hc.of_suffix h.log))

/-- The object `r` that a call holds is still the one that `this.state` refers to. -/
def Holds (r : Nat) (w : World) : Prop := w.LoadedOnce → w.state = some r

theorem Rely.holds (h : Rely q w w') (hw : Holds r w) : Holds r w' :=
  fun hc => h.state hc r (hw (hc.of_suffix h.log))

theorem Rely.quiet {w w' : World} (hs : w'.state = w.state) (ho : w'.objects = w.objects)
    (hf : w.LoadedOnce → w'.onDisk = w.onDisk ∨ w.state ≠ none)
    (hl : w'.log = w.log ∨ ∃ e, w'.log = e :: w.log ∧ ¬ e.IsIssue) : Rely q w w' := by
  have hsuf : w.log <:+ w'.log := by
    rcases hl with hl | ⟨e, hl, -⟩
    · exact hl ▸ List.suffix_rfl
    · exact hl ▸ List.suffix_cons e w.log
  refine ⟨hsuf, ?_, fun _ r hr => hs.trans hr⟩
  intro hc hp
  cases hp with
  | unloaded hs₀ ho₀ hf₀ hl₀ =>
    refine .unloaded (hs.trans hs₀) (ho.trans ho₀) ?_ ?_
    · exact ((hf (hc.of_suffix hsuf)).resolve_right (not_not.2 hs₀)).symm ▸ hf₀
    · rcases hl with hl | ⟨e, hl, he⟩ <;> rw [hl]
      · exact hl₀
      · exact List.forall_mem_cons.2 ⟨he, hl₀⟩
  | loaded s hs₀ ho₀ ha =>
    refine .loaded s (hs.trans hs₀) (ho.trans ho₀) ?_
    rcases hl with hl | ⟨e, hl, he⟩ <;> rw [hl]
    · exact ha
    · exact ha.cons he

theorem Rely.emit (he : ¬ e.IsIssue) : Rely q w (w.emit e) :=
  .quiet rfl rfl (fun _ => .inl rfl) (.inr ⟨e, rfl, he⟩)

/-- The load that makes the state is the only one that may publish. -/
theorem Rely.publish {w : World} (h : w.state = none → w.LoadedOnce → s.WellFormed) :
    Rely q w (w.publish s) := by
  have hsuf : w.log <:+ (w.publish s).log := List.suffix_cons _ _
  cases hw : w.state with
  | some r =>
    have hno : ¬ (w.publish s).LoadedOnce := fun hc => hc (by simp [World.publish, World.emit, hw])
    exact ⟨hsuf, fun hc => absurd hc hno, fun hc => absurd hc hno⟩
  | none =>
    refine ⟨hsuf, fun hc hp => ?_, fun _ r hr => by simp [hw] at hr⟩
    cases hp with
    | loaded s' hs₀ => rw [hw] at hs₀; cases hs₀
    | unloaded hs₀ ho₀ hf₀ hl₀ =>
      refine .loaded s ?_ ?_ ⟨h hw (hc.of_suffix hsuf), ?_, ?_, ?_⟩
      · simp [World.publish, World.emit, ho₀]
      · simp [World.publish, World.emit, ho₀]
      · intro i n t m hm
        rcases List.mem_cons.1 hm with hm | hm
        · cases hm
        · exact absurd trivial (hl₀ _ hm)
      · intro r hr l₁ l₂ i t m hs
        have hm : Trace.issued i r.index t m ∈ (w.publish s).log := by rw [hs]; simp
        rcases List.mem_cons.1 hm with hm | hm
        · cases hm
        · exact absurd trivial (hl₀ _ hm)
      · intro l₁ l₂ l₃ i j n t t' m m' hs
        have hm : Trace.issued i n t m ∈ (w.publish s).log := by rw [hs]; simp
        rcases List.mem_cons.1 hm with hm | hm
        · cases hm
        · exact absurd trivial (hl₀ _ hm)

theorem Rely.mutate {w : World} (hr : Holds r w) : Rely q w (w.mutate q i r k).2 := by
  refine ⟨List.suffix_append _ _, ?_, fun _ r' hr' => hr'⟩
  intro hc hp
  have hst := hr (hc.of_suffix (List.suffix_append _ _))
  cases hp with
  | unloaded hs₀ => rw [hst] at hs₀; cases hs₀
  | loaded s hs₀ ho₀ ha =>
    obtain rfl : r = 0 := by rw [hst] at hs₀; exact Option.some.inj hs₀
    refine .loaded (s.apply q k).2 hs₀ ?_ ?_
    · simp [World.mutate, ho₀]
    · simpa [World.mutate, ho₀] using ha.apply k i (w.stamp + 1)

theorem Rely.serialise {w : World} : Rely q w (w.serialise i clock).2 := by
  refine ⟨List.suffix_cons _ _, ?_, fun _ r' hr' => hr'⟩
  intro hc hp
  cases hp with
  | unloaded hs₀ ho₀ hf₀ hl₀ =>
    refine .unloaded hs₀ (by simp [World.serialise, ho₀]) hf₀ ?_
    exact List.forall_mem_cons.2 ⟨by simp [Trace.IsIssue], hl₀⟩
  | loaded s hs₀ ho₀ ha =>
    refine .loaded { s with updatedAt := some clock } hs₀ ?_ ?_
    · simp [World.serialise, World.held, hs₀, ho₀]
    · exact (ha.updatedAt _).cons (by simp [Trace.IsIssue])

theorem Rely.rename {w : World} (hr : Holds r w) : Rely q w (w.rename tmp stamp).2 := by
  obtain he | ⟨s, -, he⟩ := w.rename_cases tmp stamp <;> rw [he]
  · exact .emit (by simp [Trace.IsIssue])
  · refine .quiet rfl rfl (fun hc => .inr ?_) (.inr ⟨_, rfl, by simp [Trace.IsIssue]⟩)
    rw [hr hc]
    simp

section Calls

open Async

variable {K : World → Prop} (hK : ∀ {w w'}, K w → Rely q w w' → K w')

include hK

theorem quiet_sat {Q : Unit → World → World → Prop} {E : Fault → World → World → Prop}
    (hf : ∀ w, K w → Rely q w (f w).2) (h : Rely q w₀ w) (hk : K w)
    (hQ : ∀ w, K w → Q () w w) (hE : ∀ e w, E e w w) :
    Sat (Rely q) (Rely q) Q E (IndexStore.fileOp f) w₀ w :=
  IndexStore.fileOp_sat (F := fun _ => True) hK hK (fun _ _ => trivial)
    (fun w hk => ⟨hf w hk, fun _ => hK hk (hf w hk), fun _ => trivial⟩)
    (fun _ _ => ⟨.emit (by simp [Trace.IsIssue]), trivial⟩) h hk hQ fun w _ => hE .io w

theorem persist_sat {Q : Unit → World → World → Prop} {E : Fault → World → World → Prop}
    (hr : ∀ w, K w → Holds r w) (h : Rely q w₀ w) (hk : K w)
    (hQ : ∀ w, K w → Q () w w) (hE : ∀ e w, E e w w) :
    Sat (Rely q) (Rely q) Q E (IndexStore.persist i clock) w₀ w := by
  have hs : Rely q w (w.serialise i clock).2 := .serialise
  simp only [IndexStore.persist, sat_bind, sat_updateGet]
  refine quiet_sat hK (fun u _ => .quiet rfl rfl (fun _ => .inl rfl) (.inl rfl)) (h.trans hs)
    (hK hk hs) (fun u hku => ?_) hE
  exact quiet_sat hK (fun v hkv => .rename (hr v hkv)) (.refl q u) hku hQ hE

theorem load_sat {Q : Nat → World → World → Prop} {E : Fault → World → World → Prop}
    (hok : ∀ w, K w → Ok q w) (hk : K w)
    (hQ : ∀ r w₀ w, Rely q w₀ w → K w → Holds r w → Q r w₀ w)
    (hE : ∀ e w₀ w, Rely q w₀ w → E e w₀ w) :
    Sat (Rely q) (Rely q) Q E IndexStore.load w w := by
  simp only [IndexStore.load, sat_bind, sat_read]
  cases hs : w.state with
  | some r => exact hQ r w w (.refl q w) hk fun _ => hs
  | none =>
    simp only [sat_bind, sat_wait, sat_read]
    refine quiet_sat hK (fun u _ => .refl q u) (.refl q w) hk (fun u hku => ?_)
      fun e u => hE e u u (.refl q u)
    refine ⟨.refl q u, fun v hv a => ?_⟩
    have hkv := hK hku hv
    split
    · simp only [sat_bind, sat_wait, sat_updateGet]
      refine ⟨.refl q v, fun x hx b => ?_⟩
      have hpub : Rely q x (x.publish v.onDisk) := by
        refine .publish fun hn hc => ?_
        have hvn : v.state = none := by
          cases hvs : v.state with
          | none => rfl
          | some r => rw [hx.state hc r hvs] at hn; cases hn
        cases hok v hkv (hc.of_suffix hx.log) with
        | unloaded _ _ hf => exact hf
        | loaded s hs₀ => rw [hvn] at hs₀; cases hs₀
      exact hQ _ _ _ hpub (hK (hK hkv hx) hpub) fun _ => rfl
    · simp only [sat_bind, sat_update]
      exact hE _ _ _ (.emit (by simp [Trace.IsIssue]))

end Calls

/-- What call `i` leaves in the history when it returns an index. -/
def Logged (i : Nat) (a : Reply) (w : World) : Prop :=
  ∀ n, a = .index n → ∃ t m, .issued i n t m ∈ w.log

theorem Logged.suffix (h : Logged i a w) (hl : w.log <:+ w'.log) : Logged i a w' := by
  intro n hn
  obtain ⟨t, m, hm⟩ := h n hn
  exact ⟨t, m, hl.subset hm⟩

theorem logged_mutate (q : Int) (i r : Nat) (k : Call) (w : World) (a : Reply)
    (ha : (w.mutate q i r k).1 = .ok a) : Logged i a (w.mutate q i r k).2 := by
  rintro n rfl
  cases k with
  | allocate now =>
    simp only [World.mutate, IndexState.apply, Except.ok.injEq, Reply.index.injEq] at ha
    refine ⟨now, w.stamp + 1, ?_⟩
    simp [World.mutate, IndexState.apply, Trace.ofCall, ha]
  | release index now =>
    simp only [World.mutate, IndexState.apply] at ha
    cases h : ((w.objects[r]?.getD .empty).release index now).1 <;> simp [h, Except.map] at ha
  | settle index => simp [World.mutate, IndexState.apply] at ha

theorem call_sat (q : Int) (i : Nat) (k : Call) (hw : Ok q w) :
    Async.Sat (Rely q) (Rely q) (fun a w₀ w => Rely q w₀ w ∧ Logged i a w)
      (fun _ w₀ w => Rely q w₀ w ∧ True) (IndexStore.call q i k) w w := by
  simp only [IndexStore.call, Async.sat_bind, Async.sat_wait, Async.sat_updateGet]
  refine load_sat (fun hw h => h.ok hw) (fun w h => h) hw (fun r w₀ w h hok hr => ?_)
    fun e w₀ w h => ⟨h, trivial⟩
  refine ⟨h, fun t ht a => ?_⟩
  have hm : Rely q t (t.mutate q i r k).2 := .mutate (ht.holds hr)
  have hlog := logged_mutate q i r k t
  revert hm hlog
  generalize t.mutate q i r k = d
  intro hm hlog
  have hok' := hm.ok (ht.ok hok)
  have hr' := hm.holds (ht.holds hr)
  cases hd : d.1 with
  | error f => exact ⟨hm, trivial⟩
  | ok reply =>
    have hl := hlog reply hd
    dsimp only
    split
    · simp only [Async.sat_bind]
      refine persist_sat (K := fun w => Ok q w ∧ Holds r w ∧ Logged i reply w) ?_
        (fun w hk => hk.2.1) hm ⟨hok', hr', hl⟩ (fun w hk => ⟨.refl q w, hk.2.2⟩)
        fun e w => ⟨.refl q w, trivial⟩
      rintro w w' ⟨hw, hh, hlg⟩ h
      exact ⟨h.ok hw, h.holds hh, hlg.suffix h.log⟩
    · exact ⟨hm, hl⟩

/-- What calls on one store object rely on and guarantee. -/
def contract (q : Int) : Pool.Contract (IndexStore.call q) fun _ => True where
  R _ := Rely q
  G _ := Rely q
  Pre _ := Ok q
  Q i := Logged i
  E _ _ _ := True
  R_refl _ := .refl q
  R_trans := .trans
  rely _ h := h
  pre_stable h hr := hr.ok h
  q_stable h hr := h.suffix hr.log
  e_stable _ _ := trivial
  sound i k _ _ hw := call_sat q i k hw

theorem pair_split {x y : α} {l : List α} (hx : x ∈ l) (hy : y ∈ l) (hne : x ≠ y) :
    (∃ l₁ l₂ l₃, l = l₁ ++ x :: (l₂ ++ y :: l₃)) ∨
      ∃ l₁ l₂ l₃, l = l₁ ++ y :: (l₂ ++ x :: l₃) := by
  obtain ⟨l₁, l₂, rfl⟩ := List.append_of_mem hx
  rcases List.mem_append.1 hy with hy | hy
  · obtain ⟨m₁, m₂, rfl⟩ := List.append_of_mem hy
    exact .inr ⟨m₁, m₂, l₂, by simp⟩
  · obtain ⟨m₁, m₂, rfl⟩ := List.append_of_mem (List.mem_of_ne_of_mem hne.symm hy)
    exact .inl ⟨l₁, m₁, m₂, rfl⟩

theorem Phase.spaced (h : Phase q w) : Spaced q w.log := by
  cases h with
  | unloaded _ _ _ hl =>
    intro l₁ l₂ l₃ i j n t t' m m' hs
    exact absurd trivial (hl (.issued j n t' m') (by rw [hs]; simp))
  | loaded s _ _ ha => exact ha.spaced

/-- While no load overwrites the state of another, no schedule of overlapping calls hands out
an index twice. -/
theorem never_reissued (q : Int) (file : Option IndexState) (moves : List (Move Call Answer))
    (hf : (World.opened file).onDisk.WellFormed)
    (h : (IndexStore.run q (.opened file) moves).shared.LoadedOnce) :
    NeverReissued q (IndexStore.run q (.opened file) moves) := by
  have hw : Ok q (.opened file) := fun _ => .unloaded rfl rfl hf (by simp [World.opened])
  have hgood : (contract q).Good (IndexStore.run q (.opened file) moves) :=
    (Pool.Contract.Good.start (contract q) fun _ => hw).run fun _ _ => trivial
  intro i j n hij hi hj
  have hphase : Phase q (IndexStore.run q (.opened file) moves).shared := hgood.pre h
  obtain ⟨t, m, hit⟩ := hgood.returned hi n rfl
  obtain ⟨t', m', hjt⟩ := hgood.returned hj n rfl
  have hne : Trace.issued i n t m ≠ .issued j n t' m' := by
    intro he
    cases he
    exact hij rfl
  obtain ⟨l₁, l₂, l₃, he⟩ | ⟨l₁, l₂, l₃, he⟩ := pair_split hit hjt hne
  · obtain ⟨k, r, hk, hq⟩ := hphase.spaced l₁ l₂ l₃ j i n t' t m' m he
    exact .inr ⟨l₁, l₂, l₃, t', t, m', m, k, r, he, hk, hq⟩
  · obtain ⟨k, r, hk, hq⟩ := hphase.spaced l₁ l₂ l₃ i j n t t' m m' he
    exact .inl ⟨l₁, l₂, l₃, t, t', m, m', k, r, he, hk, hq⟩

/-- A call that gets its next `n` answers in a row, with every file operation done. -/
def drain (i n : Nat) : List (Move Call Answer) := List.replicate n (.resume i {})

/-- Two calls overlap, and the first of them has loaded the store before the second begins. -/
theorem never_reissued_overlapping :
    NeverReissued 10 (IndexStore.run 10 (.opened none)
      (.call (.allocate 0) :: drain 0 4 ++ .call (.allocate 0) :: drain 1 5 ++ drain 0 5)) :=
  never_reissued 10 none _ IndexState.wellFormed_empty (by decide)

/-- Two calls load a fresh store at once, and both of them return index 0. -/
theorem concurrent_first_loads_reissue :
    ¬ ∀ (q : Int) (file : Option IndexState) (moves : List (Move Call Answer)),
      (World.opened file).onDisk.WellFormed →
        NeverReissued q (IndexStore.run q (.opened file) moves) := by
  intro h
  let moves : List (Move Call Answer) :=
    .call (.allocate 0) :: .call (.allocate 0) :: (drain 0 4 ++ drain 1 4 ++ drain 0 5 ++ drain 1 5)
  have hlog : (IndexStore.run 86400000 (.opened none) moves).shared.log =
      [.renamed true, .serialised 1 2, .issued 1 0 0 2, .renamed true, .serialised 0 1,
        .issued 0 0 0 1, .loaded true, .loaded false] := by decide
  have hsep : ∀ i j, ¬ Separated 86400000 i j 0
      (IndexStore.run 86400000 (.opened none) moves).shared.log := by
    rintro i j ⟨l₁, l₂, l₃, t, t', m, m', k, r, he, hk, -⟩
    have hm : Trace.released k 0 r ∈
        (IndexStore.run 86400000 (.opened none) moves).shared.log := by
      rw [he]
      simp [hk]
    simp [hlog] at hm
  obtain hs | hs := h 86400000 none moves IndexState.wellFormed_empty 0 1 0 (by decide)
    (by decide) (by decide)
  · exact hsep _ _ hs
  · exact hsep _ _ hs

end Mise.Gateway
