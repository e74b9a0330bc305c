import Mise.Gateway.Durable

set_option autoImplicit true

namespace Mise.Gateway

/-- A copy of the state knows that index `n` has been handed out: it is below `next`, and where
it waits in `reclaimed` the history holds its release. -/
structure Guarded (n : Int) (log : List Trace) (s : IndexState) : Prop where
  lt : n < s.next
  reclaimed : ∀ r ∈ s.reclaimed, r.index = n → ∃ k, .released k n r.releasedAt ∈ log

theorem Guarded.suffix (h : Guarded n log s) (hl : log <:+ log') : Guarded n log' s where
  lt := h.lt
  reclaimed r hr he := (h.reclaimed r hr he).imp fun _ hk => hl.subset hk

theorem Guarded.updatedAt (h : Guarded n log s) (t : Option Int) :
    Guarded n log { s with updatedAt := t } := ⟨h.lt, h.reclaimed⟩

/-- No call forgets index `n`, and `allocate` hands it out only after a release. -/
theorem Guarded.apply (h : Guarded n log s) (q : Int) (i m : Nat) (k : Call) :
    Guarded n (Trace.ofCall i m k (s.apply q k).1 ++ log) (s.apply q k).2 ∧
      ∀ j t m', .issued j n t m' ∈ Trace.ofCall i m k (s.apply q k).1 →
        ∃ k r, .released k n r ∈ log ∧ q ≤ t - r := by
  have hlog : ∀ l, log <:+ l ++ log := fun l => List.suffix_append l log
  cases k with
  | allocate now =>
    obtain ⟨r, l₁, l₂, he, -, hready, ha⟩ | ⟨-, ha⟩ := s.allocate_cases q now <;>
      simp only [IndexState.apply, ha, Trace.ofCall, List.mem_singleton, Trace.issued.injEq]
    · refine ⟨⟨h.lt, fun x hx he' => ?_⟩, ?_⟩
      · have hx : x ∈ s.reclaimed := by
          simp only [he, List.mem_append, List.mem_cons] at hx ⊢
          tauto
        exact (h.reclaimed x hx he').imp fun _ hk => (hlog _).subset hk
      · rintro j t m' ⟨-, rfl, rfl, -⟩
        obtain ⟨k, hk⟩ := h.reclaimed r (by simp [he]) rfl
        exact ⟨k, r.releasedAt, hk, hready⟩
    · have hlt := h.lt
      refine ⟨⟨Int.lt_trans h.lt (Int.lt_succ s.next), fun x hx he' => ?_⟩, ?_⟩
      · exact (h.reclaimed x hx he').imp fun _ hk => (hlog _).subset hk
      · rintro j t m' ⟨-, rfl, -⟩
        omega
  | release index now =>
    obtain ⟨-, hr⟩ | ⟨-, -, hr⟩ | ⟨-, -, -, hr⟩ | ⟨-, -, -, hr⟩ := s.release_cases index now <;>
      simp only [IndexState.apply, hr, Except.map, Trace.ofCall]
    · exact ⟨h, by simp⟩
    · exact ⟨⟨h.lt, (h.suffix (hlog _)).reclaimed⟩, by simp⟩
    · refine ⟨⟨h.lt, fun x hx he => ?_⟩, by simp⟩
      obtain hx | hx := List.mem_append.1 hx
      · exact (h.suffix (hlog _)).reclaimed x hx he
      · cases List.mem_singleton.1 hx
        exact ⟨i, he ▸ List.mem_cons_self⟩
    · exact ⟨⟨h.lt, (h.suffix (hlog _)).reclaimed⟩, by simp⟩
  | settle index =>
    obtain ⟨-, hr⟩ | ⟨-, hr⟩ := s.settle_cases index <;>
      simp only [IndexState.apply, hr, Trace.ofCall]
    · exact ⟨h, by simp⟩
    · exact ⟨⟨h.lt, h.reclaimed⟩, by simp⟩

theorem append_suffix_append {l l' : List α} (h : l <:+ l') (past : List α) :
    l ++ past <:+ l' ++ past := by
  obtain ⟨t, rfl⟩ := h
  exact ⟨t, (List.append_assoc t l past).symm⟩

/-- After the crash every copy of the state knows of index `n`. `past` is the history before the
crash, since `n` was handed out. -/
structure Intact (q n : Int) (past : List Trace) (w : World) : Prop where
  saved : Guarded n (w.log ++ past) w.saved.state
  temps : ∀ x ∈ w.temps, Guarded n (w.log ++ past) x.2.state
  objects : ∀ s ∈ w.objects, Guarded n (w.log ++ past) s
  state : ∀ r, w.state = some r → r < w.objects.length
  issued : ∀ l₁ l₂ i t m, w.log = l₁ ++ .issued i n t m :: l₂ →
    ∃ k r, .released k n r ∈ l₂ ++ past ∧ q ≤ t - r

/-- What any call of the reopened store may do. -/
structure Keeps (q n : Int) (past : List Trace) (w w' : World) : Prop where
  log : w.log <:+ w'.log
  intact : Intact q n past w → Intact q n past w'
  objects : w.objects.length ≤ w'.objects.length
  state : w.state ≠ none → w'.state ≠ none

theorem Keeps.refl : Keeps q n past w w := ⟨List.suffix_rfl, fun h => h, Nat.le_refl _, fun h => h⟩

theorem Keeps.trans (h : Keeps q n past w w') (h' : Keeps q n past w' w'') :
    Keeps q n past w w'' where
  log := h.log.trans h'.log
  intact hi := h'.intact (h.intact hi)
  objects := Nat.le_trans h.objects h'.objects
  state hs := h'.state (h.state hs)

theorem Intact.issued_append {w : World} (h : Intact q n past w)
    (hi : ∀ j t m, .issued j n t m ∈ l → ∃ k r, .released k n r ∈ w.log ++ past ∧ q ≤ t - r)
    (hs : l ++ w.log = l₁ ++ .issued i n t m :: l₂) :
    ∃ k r, .released k n r ∈ l₂ ++ past ∧ q ≤ t - r := by
  obtain ⟨l₃, -, hw⟩ | ⟨l₃, rfl, hw⟩ := List.append_eq_append_iff.1 hs
  · exact h.issued l₃ l₂ i t m hw
  · cases l₃ with
    | nil => exact h.issued [] l₂ i t m hw.symm
    | cons e l₃ =>
      cases hw
      obtain ⟨k, r, hk, hq⟩ := hi i t m (by simp)
      exact ⟨k, r, by simpa using .inr (by simpa using hk), hq⟩

/-- The history grows by `l`, and every copy of the state keeps its knowledge of `n`. -/
theorem Intact.grow {w w' : World} (h : Intact q n past w) (hl : w'.log = l ++ w.log)
    (hi : ∀ j t m, .issued j n t m ∈ l → ∃ k r, .released k n r ∈ w.log ++ past ∧ q ≤ t - r)
    (hsaved : Guarded n (w'.log ++ past) w'.saved.state)
    (htemps : ∀ x ∈ w'.temps, x ∈ w.temps ∨ Guarded n (w'.log ++ past) x.2.state)
    (hobj : ∀ s ∈ w'.objects, s ∈ w.objects ∨ Guarded n (w'.log ++ past) s)
    (hst : ∀ r, w'.state = some r → r < w'.objects.length) : Intact q n past w' := by
  have hsuf : w.log ++ past <:+ w'.log ++ past :=
    append_suffix_append (hl ▸ List.suffix_append l w.log) past
  exact ⟨hsaved, fun x hx => (htemps x hx).elim (fun hx => (h.temps x hx).suffix hsuf) id,
    fun s hs => (hobj s hs).elim (fun hs => (h.objects s hs).suffix hsuf) id, hst,
    fun l₁ l₂ i t m hs => h.issued_append hi (hl ▸ hs)⟩

theorem Intact.saved_cons (h : Intact q n past w) (e : Trace) :
    Guarded n (e :: w.log ++ past) w.saved.state :=
  h.saved.suffix (List.suffix_cons e _)

theorem Keeps.emit (he : ¬ e.IsIssue) : Keeps q n past w (w.emit e) where
  log := List.suffix_cons e w.log
  intact h := h.grow (l := [e]) rfl (fun j t m hm => by
    cases List.mem_singleton.1 hm
    exact absurd trivial he) (h.saved_cons e) (fun _ hx => .inl hx) (fun _ hs => .inl hs) h.state
  objects := Nat.le_refl _
  state hs := hs

theorem Keeps.publish {w : World} (hs : Guarded n (w.log ++ past) s) :
    Keeps q n past w (w.publish s) where
  log := List.suffix_cons _ _
  intact h := by
    refine h.grow (l := [.loaded w.state.isSome]) rfl (by simp) (h.saved_cons _)
      (fun _ hx => .inl hx) (fun x hx => ?_) (fun r hr => ?_)
    · obtain hx | hx := List.mem_append.1 hx
      · exact .inl hx
      · rw [List.mem_singleton.1 hx]
        exact .inr (hs.suffix (List.suffix_cons _ _))
    · cases hr
      simp [World.publish, World.emit]
  objects := by simp [World.publish, World.emit]
  state _ := by simp [World.publish, World.emit]

theorem Keeps.mutate {w : World} (hr : r < w.objects.length) :
    Keeps q n past w (w.mutate q i r k).2 where
  log := List.suffix_append _ _
  intact h := by
    have hobj : Guarded n (w.log ++ past) (w.objects[r]?.getD .empty) := by
      rw [List.getElem?_eq_getElem hr]
      exact h.objects _ (List.getElem_mem hr)
    obtain ⟨hg, hi⟩ := hobj.apply q i (w.stamp + 1) k
    refine h.grow (l := Trace.ofCall i (w.stamp + 1) k
      ((w.objects[r]?.getD .empty).apply q k).1) rfl hi
      (h.saved.suffix (append_suffix_append (List.suffix_append _ _) past)) (fun _ hx => .inl hx)
      (fun s hs => ?_) ?_
    · obtain hs | rfl := List.mem_or_eq_of_mem_set hs
      · exact .inl hs
      · exact .inr (by simpa only [World.mutate, List.append_assoc] using hg)
    · simpa [World.mutate] using h.state
  objects := by simp [World.mutate]
  state hs := hs

theorem Intact.held (h : Intact q n past w) (hs : w.state ≠ none) :
    Guarded n (w.log ++ past) w.held := by
  obtain ⟨r, hr⟩ := Option.ne_none_iff_exists'.1 hs
  have hlt := h.state r hr
  rw [World.held, hr, Option.bind_some, List.getElem?_eq_getElem hlt]
  exact h.objects _ (List.getElem_mem hlt)

theorem Keeps.serialise {w : World} (hs : w.state ≠ none) :
    Keeps q n past w (w.serialise i clock).2 where
  log := List.suffix_cons _ _
  intact h := by
    refine h.grow (l := [.serialised i (w.stamp + 1)]) rfl (by simp) (h.saved_cons _)
      (fun _ hx => .inl hx) (fun s hs' => ?_) (by simpa [World.serialise] using h.state)
    obtain hs' | rfl := List.mem_or_eq_of_mem_set hs'
    · exact .inl hs'
    · exact .inr (((h.held hs).updatedAt _).suffix (List.suffix_cons _ _))
  objects := by simp [World.serialise]
  state hs := hs

theorem Keeps.writeFile {w : World} (hd : Guarded n (w.log ++ past) d.state) :
    Keeps q n past w (w.writeFile tmp d) where
  log := List.suffix_rfl
  intact h := by
    refine h.grow (l := []) rfl (by simp) h.saved (fun x hx => ?_) (fun _ hs => .inl hs) h.state
    obtain rfl | hx := List.mem_cons.1 hx
    · exact .inr hd
    · exact .inl (List.mem_of_mem_filter hx)
  objects := Nat.le_refl _
  state hs := hs

theorem Keeps.rename {w : World} : Keeps q n past w (w.rename tmp stamp).2 := by
  obtain he | ⟨d, hd, he⟩ := w.rename_cases tmp stamp <;> rw [he]
  · exact .emit (by simp [Trace.IsIssue])
  · refine ⟨List.suffix_cons _ _, fun h => ?_, Nat.le_refl _, fun hs => hs⟩
    exact h.grow (l := [_]) rfl (by simp) ((h.temps _ hd).suffix (List.suffix_cons _ _))
      (fun x hx => .inl (List.mem_of_mem_filter hx)) (fun _ hs => .inl hs) h.state

/-- A call of the reopened store that has loaded the object `r`. -/
structure HasLoaded (q n : Int) (past : List Trace) (r : Nat) (w : World) : Prop where
  intact : Intact q n past w
  state : w.state ≠ none
  lt : r < w.objects.length

theorem HasLoaded.keeps (h : HasLoaded q n past r w) (hk : Keeps q n past w w') :
    HasLoaded q n past r w' :=
  ⟨hk.intact h.intact, hk.state h.state, Nat.lt_of_lt_of_le h.lt hk.objects⟩

section Calls

open Async

variable {K : World → Prop} (hK : ∀ {w w'}, K w → Keeps q n past w w' → K w')

include hK

theorem keeps_sat {Q : Unit → World → World → Prop} {E : Fault → World → World → Prop}
    (hf : ∀ w, K w → Keeps q n past w (f w).2) (h : Keeps q n past w₀ w) (hk : K w)
    (hQ : ∀ w, K w → Q () w w) (hE : ∀ e w, E e w w) :
    Sat (Keeps q n past) (Keeps q n past) Q E (IndexStore.fileOp f) w₀ w :=
  IndexStore.fileOp_sat (F := fun _ => True) hK hK (fun _ _ => trivial)
    (fun w hk => ⟨hf w hk, fun _ => hK hk (hf w hk), fun _ => trivial⟩)
    (fun _ _ => ⟨.emit (by simp [Trace.IsIssue]), trivial⟩) h hk hQ fun w _ => hE .io w

theorem persist_keeps {Q : Unit → World → World → Prop} {E : Fault → World → World → Prop}
    (hl : ∀ w, K w → HasLoaded q n past r w) (h : Keeps q n past w₀ w) (hk : K w)
    (hQ : ∀ w, K w → Q () w w) (hE : ∀ e w, E e w w) :
    Sat (Keeps q n past) (Keeps q n past) Q E (IndexStore.persist i clock) w₀ w := by
  have hs : Keeps q n past w (w.serialise i clock).2 := .serialise (hl w hk).state
  have hd : Guarded n ((w.serialise i clock).2.log ++ past) (w.serialise i clock).1.2.state :=
    (((hl w hk).intact.held (hl w hk).state).updatedAt _).suffix
      (append_suffix_append hs.log past)
  simp only [IndexStore.persist, sat_bind, sat_updateGet]
  refine keeps_sat (K := fun u => K u ∧ Guarded n (u.log ++ past) (w.serialise i clock).1.2.state)
    (fun hu hk => ⟨hK hu.1 hk, hu.2.suffix (append_suffix_append hk.log past)⟩)
    (fun u hu => .writeFile hu.2) (h.trans hs) ⟨hK hk hs, hd⟩ (fun u hu => ?_) hE
  exact keeps_sat hK (fun _ _ => .rename) .refl hu.1 hQ hE

theorem load_keeps {Q : Nat → World → World → Prop} {E : Fault → World → World → Prop}
    (hi : ∀ w, K w → Intact q n past w) (hk : K w)
    (hQ : ∀ r w₀ w, Keeps q n past w₀ w → K w → HasLoaded q n past r w → Q r w₀ w)
    (hE : ∀ e w₀ w, Keeps q n past w₀ w → E e w₀ w) :
    Sat (Keeps q n past) (Keeps q n past) Q E IndexStore.load w w := by
  simp only [IndexStore.load, sat_bind, sat_read]
  cases hs : w.state with
  | some r => exact hQ r w w .refl hk ⟨hi w hk, by simp [hs], (hi w hk).state r hs⟩
  | none =>
    simp only [sat_bind, sat_wait, sat_read]
    refine keeps_sat hK (fun _ _ => .refl) .refl hk (fun u hku => ?_) fun e u => hE e u u .refl
    refine ⟨.refl, fun v hv a => ?_⟩
    have hkv := hK hku hv
    split
    · simp only [sat_bind, sat_wait, sat_updateGet]
      refine ⟨.refl, fun x hx b => ?_⟩
      have hpub : Keeps q n past x (x.publish v.onDisk) :=
        .publish ((hi v hkv).saved.suffix (append_suffix_append hx.log past))
      have hkx := hK hkv hx
      refine hQ _ _ _ hpub (hK hkx hpub) ⟨hpub.intact (hi x hkx), by simp [World.publish, World.emit], ?_⟩
      simp [World.publish, World.emit]
    · simp only [sat_bind, sat_update]
      exact hE _ _ _ (.emit (by simp [Trace.IsIssue]))

end Calls

theorem call_keeps (i : Nat) (k : Call) (hi : Intact q n past w) :
    Async.Sat (Keeps q n past) (Keeps q n past) (fun a w₀ w => Keeps q n past w₀ w ∧ Logged i a w)
      (fun _ w₀ w => Keeps q n past w₀ w ∧ True) (IndexStore.call q i k) w w := by
  simp only [IndexStore.call, Async.sat_bind, Async.sat_wait, Async.sat_updateGet]
  refine load_keeps (fun h hk => hk.intact h) (fun _ h => h) hi (fun r w₀ w h _ hl => ?_)
    fun _ _ _ h => ⟨h, trivial⟩
  refine ⟨h, fun t ht a => ?_⟩
  have hlt := hl.keeps ht
  have hm : Keeps q n past t (t.mutate q i r k).2 := .mutate hlt.lt
  have hl' := hlt.keeps hm
  cases hd : (t.mutate q i r k).1 with
  | error f => exact ⟨hm, trivial⟩
  | ok reply =>
    have hlog := logged_mutate q i r k t reply hd
    dsimp only
    split
    · simp only [Async.sat_bind]
      refine persist_keeps (K := fun w => HasLoaded q n past r w ∧ Logged i reply w)
        (fun h hk => ⟨h.1.keeps hk, h.2.suffix hk.log⟩) (fun _ h => h.1) hm ⟨hl', hlog⟩
        (fun w h => ⟨.refl, h.2⟩) fun _ _ => ⟨.refl, trivial⟩
    · exact ⟨hm, hlog⟩

/-- What overlapping calls on the reopened store rely on and guarantee. -/
def recovery (q n : Int) (past : List Trace) : Pool.Contract (IndexStore.call q) fun _ => True where
  R _ := Keeps q n past
  G _ := Keeps q n past
  Pre _ := Intact q n past
  Q i := Logged i
  E _ _ _ := True
  R_refl _ _ := .refl
  R_trans := .trans
  rely _ h := h
  pre_stable h hr := hr.intact h
  q_stable h hr := h.suffix hr.log
  e_stable _ _ := trivial
  sound i k _ _ h := call_keeps i k h

/-- Call `j` after the crash took index `n` again, `q` after a release that follows its issue to
call `i` before the crash. -/
def ReleasedBetween (q : Int) (i j : Nat) (n : Int) (before after : List Trace) : Prop :=
  ∃ l₁ l₂ l₃ l₄ t t' m m' k r, before = l₁ ++ .issued i n t m :: l₂ ∧
    after = l₃ ++ .issued j n t' m' :: l₄ ∧ .released k n r ∈ l₄ ++ l₁ ∧ q ≤ t' - r

theorem reopened_saved (w : World) : w.reopened.saved.state = w.saved.state := by
  cases hf : w.file <;> simp [World.reopened, World.opened, World.saved, hf]

/-- The index that a call returned before the crash is known to every later store object. -/
theorem Sound.intact (h : Sound q w) (hw : Written i w) (ho : w.InOrder) (hi : Issued i (.index n) w) :
    ∃ l₁ l₂ t m, w.log = l₁ ++ .issued i n t m :: l₂ ∧ Intact q n l₁ w.reopened := by
  obtain ⟨t, m, hm, hs⟩ := hi n rfl
  obtain ⟨past, hp⟩ := h.saved.captures
  obtain ⟨l₀, hl⟩ := hp.suffix
  have hmem := hp.issued i n t m hm (hw ho m hs)
  obtain ⟨l₁, l₂, he⟩ := List.append_of_mem hmem
  have hg : Guarded n (l₀ ++ l₁) w.reopened.saved.state := by
    rw [reopened_saved]
    refine ⟨hp.accounted.issued_lt i n t m hmem, ?_⟩
    rintro r hr rfl
    obtain ⟨k, hk⟩ := hp.accounted.reclaimed r hr l₁ l₂ i t m he
    exact ⟨k, List.mem_append_right l₀ hk⟩
  refine ⟨l₀ ++ l₁, l₂, t, m, by rw [← hl, he, List.append_assoc], ⟨hg, ?_, ?_, ?_, ?_⟩⟩
  · simp [World.reopened, World.opened]
  · simp [World.reopened, World.opened]
  · simp [World.reopened, World.opened]
  · simp [World.reopened, World.opened]

theorem sound_loaded (q : Int) (file : Option IndexState)
    (hf : (World.opened file).onDisk.WellFormed) : Sound q (.loaded file) := by
  have hheld : (World.loaded file).held = (World.opened file).onDisk := by
    simp [World.loaded, World.publish, World.emit, World.held, World.opened]
  have hacc : Accounted q (World.opened file).onDisk (World.loaded file).log := by
    refine ⟨hf, by simp [World.loaded, World.publish, World.emit, World.opened], ?_, ?_⟩
    · intro r _ l₁ l₂ i t m hs
      have hm : .issued i r.index t m ∈ (World.loaded file).log := by simp [hs]
      simp [World.loaded, World.publish, World.emit, World.opened] at hm
    · intro l₁ l₂ l₃ i j n t t' m m' hs
      have hm : .issued i n t m ∈ (World.loaded file).log := by simp [hs]
      simp [World.loaded, World.publish, World.emit, World.opened] at hm
  have hstamp : (World.loaded file).saved.stamp = 0 := by cases file <;> rfl
  refine ⟨rfl, by rw [hheld]; rfl, hheld ▸ hacc, ⟨by rw [hstamp]; exact Nat.zero_le _,
    ⟨_, List.suffix_rfl, hacc, fun _ _ _ _ hm _ => hm⟩, fun _ _ => hheld.symm⟩,
    fun _ hm => (by cases hm), .inl rfl⟩

/-- What every finished call has left in the file is what it holds in memory. -/
theorem Sound.onDisk_held (h : Sound q w) (hw : ∀ i m, .serialised i m ∈ w.log → Written i w)
    (ho : w.InOrder) (hc : w.Clean) : w.onDisk = w.held := by
  have hle := h.saved.le
  obtain hz | ⟨i, hm⟩ := h.latest
  · exact h.saved.current hc (by omega)
  · have := hw i _ hm ho _ hm
    exact h.saved.current hc (by omega)

/-- Index `n`, once returned, survives a crash at any point of any schedule whose renames are in
order, and once every call has finished, the file holds the state in memory. -/
theorem returned_index_durable (q : Int) (file : Option IndexState)
    (before after : List (Move Call Answer)) (hf : (World.opened file).onDisk.WellFormed) :
    let p := IndexStore.run q (.loaded file) before
    let p' := IndexStore.run q p.shared.reopened after
    p.shared.InOrder →
      (∀ i j n, p.result i = some (.ok (.index n)) → p'.result j = some (.ok (.index n)) →
        ReleasedBetween q i j n p.shared.log p'.shared.log) ∧
      (p.shared.Clean → p.Finished → p.shared.onDisk = p.shared.held) := by
  intro p p' ho
  have hnone : ∀ i m, .serialised i m ∉ (World.loaded file).log := by
    simp [World.loaded, World.publish, World.emit, World.opened]
  have hgood : (durability q).Good p :=
    (Pool.Contract.Good.start (durability q) fun i => ⟨sound_loaded q file hf, hnone i⟩).run
      fun _ _ => trivial
  have hsound : Sound q p.shared := hgood.pre.1
  refine ⟨fun i j n hi hj => ?_, fun hc hfin => hsound.onDisk_held (fun i m hm => ?_) ho hc⟩
  · obtain ⟨hw, his⟩ := hgood.returned hi
    obtain ⟨l₁, l₂, t, m, hl, hin⟩ := hsound.intact hw ho his
    have hgood' : (recovery q n l₁).Good p' :=
      (Pool.Contract.Good.start (recovery q n l₁) fun _ => hin).run fun _ _ => trivial
    obtain ⟨t', m', hm'⟩ := hgood'.returned hj n rfl
    obtain ⟨l₃, l₄, hl'⟩ := List.append_of_mem hm'
    have hin' : Intact q n l₁ p'.shared := hgood'.pre
    obtain ⟨k, r, hk, hq⟩ := hin'.issued l₃ l₄ j t' m' hl'
    exact ⟨l₁, l₂, l₃, l₄, t, t', m, m', k, r, hl, hl', hk, hq⟩
  · have hi : i < p.calls.length := Nat.lt_of_not_le fun hle => (hgood.fresh i hle).2 m hm
    cases hr : p.result i with
    | none => exact absurd hr (hfin i hi)
    | some r =>
      cases r with
      | ok a => exact (hgood.returned hr).1
      | error e =>
        obtain ⟨f, hf⟩ := hgood.threw hr
        exact absurd hf (hc f)

/-- Index 0 was released before the crash, and comes back after its quarantine. -/
theorem returned_index_durable_released :
    let p := IndexStore.run 10 (.loaded none)
      (.call (.allocate 0) :: drain 0 5 ++ .call (.release 0 5) :: drain 1 5)
    let p' := IndexStore.run 10 p.shared.reopened (.call (.allocate 20) :: drain 0 9)
    ReleasedBetween 10 0 0 0 p.shared.log p'.shared.log ∧ p.shared.onDisk = p.shared.held := by
  obtain ⟨hreturned, hfile⟩ := returned_index_durable 10 none
    (.call (.allocate 0) :: drain 0 5 ++ .call (.release 0 5) :: drain 1 5)
    (.call (.allocate 20) :: drain 0 9) IndexState.wellFormed_empty (by decide +kernel)
  exact ⟨hreturned 0 0 0 (by decide +kernel) (by decide +kernel),
    hfile (by decide +kernel) (by decide +kernel)⟩

/-- Two calls overlap and their renames land in the reverse order: the file ends without index 1,
which the reopened store hands out again. -/
theorem reordered_renames_reissue :
    ¬ ∀ (q : Int) (file : Option IndexState) (before after : List (Move Call Answer)),
      (World.opened file).onDisk.WellFormed →
        let p := IndexStore.run q (.loaded file) before
        let p' := IndexStore.run q p.shared.reopened after
        (∀ i j n, p.result i = some (.ok (.index n)) → p'.result j = some (.ok (.index n)) →
          ReleasedBetween q i j n p.shared.log p'.shared.log) ∧
        (p.Finished → p.shared.onDisk = p.shared.held) := by
  intro h
  let p := IndexStore.run 86400000 (.loaded none)
    (.call (.allocate 0) :: .call (.allocate 0) :: (drain 0 1 ++ drain 1 5 ++ drain 0 4))
  let p' := IndexStore.run 86400000 p.shared.reopened (.call (.allocate 0) :: drain 0 9)
  have hlog : p.shared.log = [.renamed false, .renamed true, .serialised 1 2, .issued 1 1 0 2,
      .serialised 0 1, .issued 0 0 0 1, .loaded false] := by decide +kernel
  have hlog' : p'.shared.log =
      [.renamed true, .serialised 0 1, .issued 0 1 0 1, .loaded false] := by decide +kernel
  obtain ⟨hreturned, -⟩ := h 86400000 none
    (.call (.allocate 0) :: .call (.allocate 0) :: (drain 0 1 ++ drain 1 5 ++ drain 0 4))
    (.call (.allocate 0) :: drain 0 9) IndexState.wellFormed_empty
  obtain ⟨l₁, l₂, l₃, l₄, t, t', m, m', k, r, hl, hl', hk, -⟩ :=
    hreturned 1 0 1 (by decide +kernel) (by decide +kernel)
  obtain hk | hk := List.mem_append.1 hk
  · have hm : .released k 1 r ∈ p'.shared.log := by
      rw [hl']
      simp [hk]
    simp [hlog'] at hm
  · have hm : .released k 1 r ∈ p.shared.log := by
      rw [hl]
      simp [hk]
    simp [hlog] at hm

end Mise.Gateway
