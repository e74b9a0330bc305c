import Mise.Server.Jobs

set_option autoImplicit true

namespace Mise.Server.Jobs

open Js Async Owned

/-- A job that the history knows of has not ended. -/
def Unfinished (l : List Event) (j : Nat) : Prop := (∃ i, .started i j ∈ l) ∧ .finished j ∉ l

/-- When a request starts a job, those that other requests have started since it found none are
finished. -/
def Clear (l : List Event) : Event → Prop
  | .started i _ => ∀ l₁ l₂, l = l₁ ++ .passed i :: l₂ → ∀ k m, .started k m ∈ l₁ → .finished m ∈ l
  | _ => True

/-- At every moment there is no more than one unfinished job, each request that was answered 202
has started one job, and the status route has answered with the unfinished job. -/
structure OneJob (l : List Event) : Prop where
  alone : ∀ l', l' <:+ l → ∀ j k, Unfinished l' j → Unfinished l' k → j = k
  answered : ∀ i, .answered i ⟨202, none⟩ ∈ l → ∃ j, .started i j ∈ l ∧ ∀ k, .started i k ∈ l → k = j
  reported : ∀ l' i v, .reported i v :: l' <:+ l → ∀ j, Unfinished l' j → v = some j

/-- The history says which jobs there are, and which of them are done. -/
structure Tracks (w : World δ) : Prop where
  started : ∀ j, (∃ i, .started i j ∈ w.log) ↔ j < w.jobs.length
  done : ∀ j job, w.jobs[j]? = some job → (job.done ↔ .finished j ∈ w.log)
  finished : ∀ j, .finished j ∈ w.log → j < w.jobs.length
  current : w.current = if w.jobs.length = 0 then none else some (w.jobs.length - 1)
  unique : ∀ i j k, .started i j ∈ w.log → .started i k ∈ w.log → j = k
  answered : ∀ i, .answered i ⟨202, none⟩ ∈ w.log → ∃ j, .started i j ∈ w.log
  fresh : ∀ l' i j, .started i j :: l' <:+ w.log → .finished j ∉ l' ∧ ∀ k, .started k j ∉ l'

/-- What holds where the jobs are started one after the other. -/
structure Single (w : World δ) : Prop where
  current : ∀ j, Unfinished w.log j → w.current = some j
  alone : ∀ l', l' <:+ w.log → ∀ j k, Unfinished l' j → Unfinished l' k → j = k
  reported : ∀ l' i v, .reported i v :: l' <:+ w.log → ∀ j, Unfinished l' j → v = some j

structure Inv (w : World δ) : Prop where
  tracks : Tracks w
  single : Logged.Throughout Clear w.log → Single w

def Event.owner : Event → Option Nat
  | .passed i | .started i _ | .answered i _ | .reported i _ => some i
  | .finished _ => none

variable {δ : Type} {w : World δ} {i j : Nat}

section Steps

/-- An event that neither starts nor ends a job leaves the unfinished ones. -/
theorem unfinished_cons {e : Event} (hs : ∀ i j, e ≠ .started i j) (hf : ∀ j, e ≠ .finished j)
    {l : List Event} : Unfinished (e :: l) j ↔ Unfinished l j := by
  have hstarted : ∀ i, Event.started i j ∈ e :: l ↔ .started i j ∈ l := by
    intro i
    rw [List.mem_cons, or_iff_right (hs i j).symm]
  have hfinished : Event.finished j ∈ e :: l ↔ .finished j ∈ l := by
    rw [List.mem_cons, or_iff_right (hf j).symm]
  unfold Unfinished
  rw [hfinished]
  simp only [hstarted]

theorem unfinished_of_finished {l : List Event} {k : Nat} (h : Unfinished (.finished j :: l) k) :
    Unfinished l k := by
  obtain ⟨⟨i, hi⟩, hk⟩ := h
  refine ⟨⟨i, ?_⟩, fun hf => hk (List.mem_cons_of_mem _ hf)⟩
  obtain he | hi := List.mem_cons.1 hi
  · cases he
  · exact hi

theorem Tracks.emit {e : Event} (h : Tracks w) (hs : ∀ i j, e ≠ .started i j)
    (hf : ∀ j, e ≠ .finished j)
    (ha : ∀ i, e = .answered i ⟨202, none⟩ → ∃ j, .started i j ∈ w.log) : Tracks (w.emit e) := by
  have hstarted : ∀ i j, Event.started i j ∈ (w.emit e).log ↔ .started i j ∈ w.log := by
    intro i j
    rw [World.emit, List.mem_cons, or_iff_right (hs i j).symm]
  have hfinished : ∀ j, Event.finished j ∈ (w.emit e).log ↔ .finished j ∈ w.log := by
    intro j
    rw [World.emit, List.mem_cons, or_iff_right (hf j).symm]
  constructor
  · intro j
    simp only [hstarted]
    exact h.started j
  · intro j job hjob
    rw [hfinished]
    exact h.done j job hjob
  · intro j hj
    exact h.finished j ((hfinished j).1 hj)
  · exact h.current
  · intro i j k hj hk
    exact h.unique i j k ((hstarted i j).1 hj) ((hstarted i k).1 hk)
  · intro i hi
    simp only [hstarted]
    obtain he | hi := List.mem_cons.1 hi
    · exact ha i he.symm
    · exact h.answered i hi
  · intro l' i j hl'
    obtain he | hl' := List.suffix_cons_iff.1 hl'
    · cases he
      exact absurd rfl (hs i j)
    · exact h.fresh l' i j hl'

/-- An event that leaves no job unfinished which was not so before. -/
theorem Single.cons {w' : World δ} {e : Event} (h : Single w) (hlog : w'.log = e :: w.log)
    (hcurrent : w'.current = w.current)
    (hu : ∀ k, Unfinished (e :: w.log) k → Unfinished w.log k)
    (hr : ∀ i v, e = .reported i v → v = w.current) : Single w' where
  current k hk := by
    rw [hlog] at hk
    rw [hcurrent]
    exact h.current k (hu k hk)
  alone l' hl' k m hk hm := by
    rw [hlog] at hl'
    obtain rfl | hl' := List.suffix_cons_iff.1 hl'
    · exact h.alone w.log List.suffix_rfl k m (hu k hk) (hu m hm)
    · exact h.alone l' hl' k m hk hm
  reported l' i v hl' k hk := by
    rw [hlog] at hl'
    obtain he | hl' := List.suffix_cons_iff.1 hl'
    · cases he
      rw [hr i v rfl]
      exact h.current k hk
    · exact h.reported l' i v hl' k hk

theorem Inv.emit {e : Event} (h : Inv w) (hs : ∀ i j, e ≠ .started i j) (hf : ∀ j, e ≠ .finished j)
    (ha : ∀ i, e = .answered i ⟨202, none⟩ → ∃ j, .started i j ∈ w.log)
    (hr : ∀ i v, e = .reported i v → v = w.current) : Inv (w.emit e) := by
  refine ⟨h.tracks.emit hs hf ha, fun hc => ?_⟩
  cases hc with
  | cons hc _ => exact (h.single hc).cons rfl rfl (fun _ => (unfinished_cons hs hf).1) hr

theorem Tracks.onJob {f : Job δ → Job δ} (h : Tracks w) (hf : ∀ job, (f job).done = job.done) :
    Tracks (w.onJob j f) where
  started k := by
    rw [World.onJob, List.length_modify]
    exact h.started k
  done k job hjob := by
    rw [World.onJob, List.getElem?_modify] at hjob
    obtain ⟨job', hjob', rfl⟩ := Option.map_eq_some_iff.1 hjob
    have hold := h.done k job' hjob'
    split
    · rw [hf]
      exact hold
    · exact hold
  finished k hk := by
    rw [World.onJob, List.length_modify]
    exact h.finished k hk
  current := by
    rw [World.onJob, List.length_modify]
    exact h.current
  unique := h.unique
  answered := h.answered
  fresh := h.fresh

theorem Inv.onJob {f : Job δ → Job δ} (h : Inv w) (hf : ∀ job, (f job).done = job.done) :
    Inv (w.onJob j f) := by
  refine ⟨h.tracks.onJob hf, fun hc => ?_⟩
  have hsingle := h.single hc
  exact ⟨hsingle.current, hsingle.alone, hsingle.reported⟩

theorem Tracks.finish (h : Tracks w) (hj : ∃ i, .started i j ∈ w.log) : Tracks (w.finish j) := by
  have hstarted : ∀ i k, Event.started i k ∈ (w.finish j).log ↔ .started i k ∈ w.log := by
    intro i k
    constructor
    · intro hk
      obtain he | hk := List.mem_cons.1 hk
      · cases he
      · exact hk
    · exact List.mem_cons_of_mem _
  have hlength : (w.finish j).jobs.length = w.jobs.length := by
    rw [World.finish, World.emit, World.onJob, List.length_modify]
  constructor
  · intro k
    simp only [hstarted]
    rw [hlength]
    exact h.started k
  · intro k job hjob
    rw [World.finish, World.emit, World.onJob, List.getElem?_modify] at hjob
    obtain ⟨job', hjob', rfl⟩ := Option.map_eq_some_iff.1 hjob
    have hold := h.done k job' hjob'
    rw [World.finish, World.emit, List.mem_cons]
    split
    · next he =>
      subst he
      exact ⟨fun _ => .inl rfl, fun _ => rfl⟩
    · next hne =>
      have hk : Event.finished k ≠ .finished j := fun e => hne (by cases e; rfl)
      rw [or_iff_right hk]
      exact hold
  · intro k hk
    rw [hlength]
    obtain he | hk := List.mem_cons.1 hk
    · cases he
      exact (h.started j).1 hj
    · exact h.finished k hk
  · rw [hlength]
    exact h.current
  · intro i k m hk hm
    exact h.unique i k m ((hstarted i k).1 hk) ((hstarted i m).1 hm)
  · intro i hi
    simp only [hstarted]
    obtain he | hi := List.mem_cons.1 hi
    · cases he
    · exact h.answered i hi
  · intro l' i k hl'
    obtain he | hl' := List.suffix_cons_iff.1 hl'
    · cases he
    · exact h.fresh l' i k hl'

theorem Inv.finish (h : Inv w) (hj : ∃ i, .started i j ∈ w.log) : Inv (w.finish j) := by
  refine ⟨h.tracks.finish hj, fun hc => ?_⟩
  cases hc with
  | cons hc _ =>
    have hsingle := h.single hc
    exact hsingle.cons (e := .finished j) rfl rfl
      (fun k hk => unfinished_of_finished hk) nofun

/-- Where all jobs of the history are finished, and stay so until a request starts its own. -/
def Quiet (i : Nat) (l : List Event) : Prop :=
  ∃ l₁ l₂, l = l₁ ++ .passed i :: l₂ ∧
    (Logged.Throughout Clear l₂ → ∀ k m, .started k m ∈ l₂ → .finished m ∈ l₂)

theorem Tracks.create {clock : Int} {details : δ} (h : Tracks w) (hi : ∀ j, .started i j ∉ w.log) :
    Tracks (w.create i clock details).2 where
  started k := by
    simp only [World.create, List.length_append, List.length_singleton, List.mem_cons]
    constructor
    · rintro ⟨i', he | hk⟩
      · cases he
        exact Nat.lt_succ_self _
      · exact Nat.lt_succ_of_lt ((h.started k).1 ⟨i', hk⟩)
    · intro hk
      obtain hk | rfl := Nat.lt_succ_iff_lt_or_eq.1 hk
      · obtain ⟨i', hi'⟩ := (h.started k).2 hk
        exact ⟨i', .inr hi'⟩
      · exact ⟨i, .inl rfl⟩
  done k job hjob := by
    simp only [World.create, List.mem_cons, reduceCtorEq, false_or]
    simp only [World.create] at hjob
    by_cases hk : k < w.jobs.length
    · rw [List.getElem?_append_left hk] at hjob
      exact h.done k job hjob
    · have hfinished : Event.finished k ∉ w.log := fun hf => hk (h.finished k hf)
      rw [List.getElem?_append_right (Nat.le_of_not_lt hk)] at hjob
      have hnew : job = { startedAt := clock, details } := by
        rw [List.getElem?_singleton] at hjob
        split at hjob
        · exact (Option.some.inj hjob).symm
        · cases hjob
      rw [hnew]
      exact ⟨nofun, fun hf => absurd hf hfinished⟩
  finished k hk := by
    simp only [World.create, List.mem_cons, reduceCtorEq, false_or] at hk
    simp only [World.create, List.length_append, List.length_singleton]
    exact Nat.lt_succ_of_lt (h.finished k hk)
  current := by simp [World.create]
  unique i' k m hk hm := by
    simp only [World.create, List.mem_cons, Event.started.injEq] at hk hm
    obtain ⟨rfl, rfl⟩ | hk := hk
    · obtain ⟨_, rfl⟩ | hm := hm
      · rfl
      · exact absurd hm (hi m)
    · obtain ⟨rfl, rfl⟩ | hm := hm
      · exact absurd hk (hi k)
      · exact h.unique i' k m hk hm
  answered i' ha := by
    simp only [World.create, List.mem_cons, reduceCtorEq, false_or] at ha
    obtain ⟨j, hj⟩ := h.answered i' ha
    exact ⟨j, List.mem_cons_of_mem _ hj⟩
  fresh l' i' k hl' := by
    obtain he | hl' := List.suffix_cons_iff.1 hl'
    · cases he
      constructor
      · intro hf
        exact absurd (h.finished _ hf) (Nat.lt_irrefl _)
      · intro k hk
        exact absurd ((h.started _).1 ⟨k, hk⟩) (Nat.lt_irrefl _)
    · exact h.fresh l' i' k hl'

/-- What was finished when the request passed the guard, and what was started since, is finished when
it starts its own job. -/
theorem Quiet.finished {l : List Event} (h : Quiet i l) (hc : Logged.Throughout Clear l)
    (hclear : Clear l (.started i j)) (k m : Nat) (hm : .started k m ∈ l) : .finished m ∈ l := by
  obtain ⟨l₁, l₂, rfl, hquiet⟩ := h
  obtain hm | hm := List.mem_append.1 hm
  · exact hclear l₁ l₂ rfl k m hm
  · obtain he | hm := List.mem_cons.1 hm
    · cases he
    · have hclear₂ : Logged.Throughout Clear l₂ := by
        apply Logged.Throughout.suffix (m := l₁ ++ [.passed i])
        rw [List.append_assoc]
        exact hc
      have hf := hquiet hclear₂ k m hm
      exact List.mem_append_right _ (List.mem_cons_of_mem _ hf)

theorem Single.create {clock : Int} {details : δ} (h : Single w)
    (hfinished : ∀ k m, .started k m ∈ w.log → .finished m ∈ w.log) :
    Single (w.create i clock details).2 := by
  have honly : ∀ k, Unfinished (.started i w.jobs.length :: w.log) k → k = w.jobs.length := by
    rintro k ⟨⟨i', hk⟩, hf⟩
    obtain he | hk := List.mem_cons.1 hk
    · cases he
      rfl
    · exact absurd (List.mem_cons_of_mem _ (hfinished i' k hk)) hf
  constructor
  · intro k hk
    rw [honly k hk]
    rfl
  · intro l' hl' k m hk hm
    obtain rfl | hl' := List.suffix_cons_iff.1 hl'
    · exact (honly k hk).trans (honly m hm).symm
    · exact h.alone l' hl' k m hk hm
  · intro l' i' v hl' k hk
    obtain he | hl' := List.suffix_cons_iff.1 hl'
    · cases he
    · exact h.reported l' i' v hl' k hk

theorem Inv.create {clock : Int} {details : δ} (h : Inv w) (hi : ∀ j, .started i j ∉ w.log)
    (hp : Quiet i w.log) : Inv (w.create i clock details).2 := by
  refine ⟨h.tracks.create hi, fun hc => ?_⟩
  cases hc with
  | cons hc hclear => exact (h.single hc).create (hp.finished hc hclear)

/-- A request that finds no unfinished job finds all of them finished. -/
theorem Inv.idle (h : Inv w) (hb : w.busy = false) (hc : Logged.Throughout Clear w.log) (k m : Nat)
    (hm : .started k m ∈ w.log) : .finished m ∈ w.log := by
  by_contra hf
  have hcurrent := (h.single hc).current m ⟨⟨k, hm⟩, hf⟩
  have hlt : m < w.jobs.length := (h.tracks.started m).1 ⟨k, hm⟩
  obtain ⟨job, hjob⟩ : ∃ job, w.jobs[m]? = some job := ⟨_, List.getElem?_eq_getElem hlt⟩
  rw [World.busy, hcurrent, Option.bind_some, hjob, Option.any_some, Bool.not_eq_false'] at hb
  exact hf ((h.tracks.done m job hjob).1 hb)

end Steps

section Calls

/-- What a kind of job has to keep to: a body that starts no job is not answered 202, and the job
itself only changes its own record until it ends. -/
structure Kind.Lawful (K : Kind δ) : Prop where
  accept : ∀ body r, K.accept body = .error r → r ≠ ⟨202, none⟩
  begins : ∀ job, (K.begins job).done = job.done
  work : ∀ i j details body,
    Yields World.log Event.owner Inv i (.started i j ∈ ·) (fun _ => True) (K.work j details body)

theorem own_emit {e : Event} (ho : ∀ j, e.owner = some j → j = i) (hinv : Inv w → Inv (w.emit e)) :
    Own World.log Event.owner Inv i w (w.emit e) :=
  ⟨⟨[e], rfl, fun e' he => by rw [List.mem_singleton.1 he]; exact ho⟩, hinv⟩

theorem Inv.passed (h : Inv w) : Inv (w.emit (.passed i)) := by
  apply h.emit
  · intro i' j he
    cases he
  · intro j he
    cases he
  · intro i' he
    cases he
  · intro i' v he
    cases he

/-- An answer is 202 only where its request has started a job. -/
theorem Inv.answered (h : Inv w) (hr : r = ⟨202, none⟩ → ∃ j, .started i j ∈ w.log) :
    Inv (w.emit (.answered i r)) := by
  apply h.emit
  · intro i' j he
    cases he
  · intro j he
    cases he
  · intro i' he
    cases he
    exact hr rfl
  · intro i' v he
    cases he

theorem own_onJob {f : Job δ → Job δ} (hf : ∀ job, (f job).done = job.done) :
    Own World.log Event.owner Inv i w (w.onJob j f) :=
  ⟨⟨[], rfl, nofun⟩, fun h => h.onJob hf⟩

variable {K : Kind δ} {P : List Event → Prop} {w₀ : World δ}

/-- Any answer ends a request, but 202 only where it has started a job. -/
theorem keeps_answer {r : Response} (h : Knows World.log Event.owner Inv i P w₀ w)
    (hr : r = ⟨202, none⟩ → ∃ j, .started i j ∈ w.log) :
    Keeps World.log Event.owner Inv i (Ends World.log Event.owner Inv i) (answer i r) w₀ w := by
  refine h.step (own_emit ?_ fun hinv => hinv.answered hr) (.const _) trivial
  intro j hj
  exact (Option.some.inj hj).symm

theorem keeps_post (hK : K.Lawful)
    (h : Knows World.log Event.owner Inv i (fun l => ∀ e ∈ l, Event.owner e ≠ some i) w₀ w) :
    Keeps World.log Event.owner Inv i (Ends World.log Event.owner Inv i) (post K i) w₀ w := by
  unfold post
  refine h.wait.seq fun a t₀ t ht => ?_
  cases a.refused with
  | some r =>
    refine keeps_answer ht fun hr => ?_
    cases r with
    | unauthenticated => cases hr
    | notAuthorised => cases hr
  | none =>
    simp only [sat_bind, sat_read]
    cases hb : t.busy with
    | true => exact keeps_answer ht fun he => by cases he
    | false =>
      have hstep : Own World.log Event.owner Inv i t (t.emit (.passed i)) :=
        own_emit (fun j hj => (Option.some.inj hj).symm) Inv.passed
      have hstable : Stable Event.owner i fun l => (∀ e ∈ l, ¬ ∃ j, e = .started i j) ∧ Quiet i l := by
        refine .and (.none ?_) (.of_append ?_)
        · rintro e ⟨j, rfl⟩
          rfl
        · rintro l l' ⟨l₁, l₂, rfl, hq⟩
          exact ⟨l ++ l₁, l₂, by rw [List.append_assoc], hq⟩
      have hnostart : ∀ e ∈ (t.emit (.passed i)).log, ¬ ∃ j, e = .started i j := by
        rintro e he ⟨j, rfl⟩
        obtain he | he := List.mem_cons.1 he
        · cases he
        · exact ht.known _ he rfl
      have hquiet : Quiet i (t.emit (.passed i)).log := ⟨[], t.log, rfl, fun hc => ht.inv.idle hb hc⟩
      have hpassed := ht.step hstep hstable ⟨hnostart, hquiet⟩
      simp only [Bool.false_eq_true, if_false]
      refine Sat.seq (Q := fun _ => Knows World.log Event.owner Inv i _) hpassed fun _ u₀ u hu => ?_
      refine hu.wait.seq fun b v₀ v hv => ?_
      split
      · next r hr => exact keeps_answer hv fun he => absurd he (hK.accept _ r hr)
      · next details hd =>
        have hnone : ∀ j, .started i j ∉ v.log := fun j hj => hv.known.1 _ hj ⟨j, rfl⟩
        have hcreate : Own World.log Event.owner Inv i v (v.create i b.clock details).2 := by
          refine ⟨⟨[.started i v.jobs.length], rfl, fun e he k hk => ?_⟩, fun hinv => ?_⟩
          · rw [List.mem_singleton.1 he] at hk
            exact (Option.some.inj hk).symm
          · exact hinv.create hnone hv.known.2
        have hstarted : Knows World.log Event.owner Inv i (.started i v.jobs.length ∈ ·) v₀
            (v.create i b.clock details).2 := hv.step hcreate (.mem _) List.mem_cons_self
        refine Sat.seq (Q := fun j => Knows World.log Event.owner Inv i fun l => Event.started i j ∈ l) hstarted
          fun j x₀ x hx => ?_
        refine Sat.seq (Q := fun _ => Knows World.log Event.owner Inv i fun l => Event.started i j ∈ l)
          (hx.step (own_onJob hK.begins) (.mem _) hx.known) fun _ y₀ y hy => ?_
        have hanswered : Own World.log Event.owner Inv i y (y.emit (.answered i ⟨202, none⟩)) := by
          exact own_emit (fun k hk => (Option.some.inj hk).symm) fun hinv =>
            hinv.answered fun _ => ⟨j, hy.known⟩
        refine Sat.seq (Q := fun _ => Knows World.log Event.owner Inv i fun l => Event.started i j ∈ l)
          (hy.step hanswered (.mem _) (List.mem_cons_of_mem _ hy.known)) fun _ z₀ z hz => ?_
        exact (hK.work i j details _).keeps hz

theorem keeps_status (K : Kind δ) (h : Knows World.log Event.owner Inv i P w₀ w) :
    Keeps World.log Event.owner Inv i (Ends World.log Event.owner Inv i) (status K i) w₀ w := by
  have hreport : ∀ {w₀ w : World δ} {P : List Event → Prop}, Knows World.log Event.owner Inv i P w₀ w →
      Keeps World.log Event.owner Inv i (Ends World.log Event.owner Inv i)
        (Async.update fun w => w.emit (.reported i w.current) : Task δ Unit) w₀ w := by
    intro w₀ w P h
    refine h.step (own_emit (fun j hj => (Option.some.inj hj).symm) fun hinv => ?_) (.const _) trivial
    refine hinv.emit nofun nofun nofun ?_
    rintro i' v he
    cases he
    rfl
  unfold status
  refine h.wait.seq fun a t₀ t ht => ?_
  cases a.refused with
  | some r =>
    refine keeps_answer ht fun hr => ?_
    cases r with
    | unauthenticated => cases hr
    | notAuthorised => cases hr
  | none =>
    dsimp only
    split
    · exact ht.wait.seq fun _ u₀ u hu => hreport hu
    · exact hreport ht

theorem tracks_start : Tracks ({} : World δ) := by
  constructor
  · intro j
    constructor
    · rintro ⟨i, hi⟩
      cases hi
    · intro hj
      cases hj
  · intro j job hjob
    cases hjob
  · intro j hj
    cases hj
  · rfl
  · intro i j k hj
    cases hj
  · intro i hi
    cases hi
  · intro l' i j hl'
    cases List.suffix_nil.1 hl'

theorem single_start : Single ({} : World δ) := by
  have hnone : ∀ j, ¬ Unfinished [] j := by
    rintro j ⟨⟨i, hi⟩, -⟩
    cases hi
  constructor
  · intro j hj
    exact absurd hj (hnone j)
  · intro l' hl' j k hj
    rw [List.suffix_nil.1 hl'] at hj
    exact absurd hj (hnone j)
  · intro l' i v hl'
    cases List.suffix_nil.1 hl'

theorem inv_start : Inv ({} : World δ) := ⟨tracks_start, fun _ => single_start⟩

theorem inv_run (hK : K.Lawful) (moves : List (Move Call Input)) : Inv (run K moves).shared := by
  have hlog : World.log ({} : World δ) = [] := rfl
  have hcalls : ∀ i c (s : World δ), True →
      Knows World.log Event.owner Inv i (fun l => ∀ e ∈ l, Event.owner e ≠ some i) s s →
      Keeps World.log Event.owner Inv i (Ends World.log Event.owner Inv i) (program K i c) s s := by
    intro i c s _ hs
    cases c with
    | post => exact keeps_post hK hs
    | status => exact keeps_status K hs
  exact Owned.inv_run hcalls inv_start hlog moves fun _ _ => trivial

/-- One job at a time is what a run has if and only if no request starts a job while one is
unfinished that has been started since the request found none. -/
theorem oneJob_iff (hK : K.Lawful) (moves : List (Move Call Input)) :
    OneJob (run K moves).shared.log ↔ Logged.Throughout Clear (run K moves).shared.log := by
  have hinv := inv_run hK moves
  constructor
  · intro h
    have hall : ∀ l, l <:+ (run K moves).shared.log → Logged.Throughout Clear l := by
      intro l
      induction l with
      | nil => exact fun _ => .nil
      | cons e l ih =>
        intro hl
        refine .cons (ih ((List.suffix_cons e l).trans hl)) ?_
        cases e with
        | started i j =>
          intro l₁ l₂ hl₁ k m hm
          by_contra hf
          have hml : .started k m ∈ l := hl₁ ▸ List.mem_append_left _ hm
          obtain ⟨hj, hfresh⟩ := hinv.tracks.fresh l i j hl
          have hold : Unfinished (.started i j :: l) m :=
            ⟨⟨k, List.mem_cons_of_mem _ hml⟩, by simpa using hf⟩
          have hnew : Unfinished (.started i j :: l) j := ⟨⟨i, List.mem_cons_self⟩, by simpa using hj⟩
          cases h.alone _ hl m j hold hnew
          exact hfresh k hml
        | passed i => trivial
        | finished j => trivial
        | answered i r => trivial
        | reported i v => trivial
    exact hall _ List.suffix_rfl
  · intro hc
    have hsingle := hinv.single hc
    refine ⟨hsingle.alone, fun i hi => ?_, hsingle.reported⟩
    obtain ⟨j, hj⟩ := hinv.tracks.answered i hi
    exact ⟨j, hj, fun k hk => hinv.tracks.unique i k j hk hj⟩

end Calls

section Work

/-- What the work of a job keeps to. -/
abbrev Works (i j : Nat) (p : Task δ α) : Prop :=
  Yields World.log Event.owner Inv i (fun l => Event.started i j ∈ l) (fun _ => True) p

theorem works_onJob {f : Job δ → Job δ} (hf : ∀ job, (f job).done = job.done) :
    Works i j (Async.update (World.onJob j f) : Task δ Unit) :=
  .update (fun _ _ => own_onJob hf) fun _ h => h

theorem works_finish : Works i j (Async.update (World.finish j) : Task δ Unit) := by
  refine .update (fun s hs => ?_) fun _ h => List.mem_cons_of_mem _ h
  refine ⟨⟨[.finished j], rfl, fun e he k hk => ?_⟩, fun h => h.finish ⟨i, hs⟩⟩
  rw [List.mem_singleton.1 he] at hk
  cases hk

theorem works_say (keep : Nat) (line : String) : Works i j (say keep j line : Task δ Unit) :=
  works_onJob fun _ => rfl

theorem works_sayAll (keep : Nat) (lines : List String) : Works i j (sayAll keep j lines : Task δ Unit) := by
  induction lines with
  | nil => exact .pure trivial
  | cons line lines ih => exact .bind (works_say keep line) fun _ _ => ih

theorem works_stage (keep : Nat) : Works i j (stage keep j : Task δ Input) := by
  refine .bind .wait fun a _ => .bind (works_sayAll keep a.lines) fun _ _ => ?_
  cases a.failed with
  | some message => exact .throw message
  | none => exact .pure trivial

theorem works_failed (keep : Nat) (message : String) : Works i j (failed keep j message : Task δ Unit) := by
  refine .bind (works_onJob fun _ => rfl) fun _ _ => .bind works_finish fun _ _ => ?_
  exact .bind (works_onJob fun _ => rfl) fun _ _ => works_say keep _

theorem works_checkPeer (details : UpdateDetails) (body : Json) : Works i j (checkPeer details body) := by
  unfold checkPeer
  split
  · split
    · exact .throw _
    · exact .ite (.pure trivial) (.throw _)
  · exact .pure trivial

theorem works_update (details : UpdateDetails) (body : Json) : Works i j (updateWork j details body) := by
  refine .tryCatch ?_ (works_failed 200)
  refine .bind (works_stage 200) fun _ _ => .bind (works_onJob fun _ => rfl) fun _ _ => ?_
  refine .bind (works_checkPeer details body) fun _ _ => .bind (works_stage 200) fun _ _ => ?_
  refine .bind (works_onJob fun _ => rfl) fun _ _ => .bind (works_stage 200) fun _ _ => ?_
  refine .bind (works_onJob fun _ => rfl) fun _ _ => .bind works_finish fun _ _ => ?_
  exact works_say 200 _

theorem works_rebuildImported (details : ImportDetails) : Works i j (rebuildImported j details) := by
  refine .ite ?_ (.pure trivial)
  exact .bind (works_onJob fun _ => rfl) fun _ _ => .bind .wait fun _ _ => .pure trivial

theorem works_probeImported : Works i j (probeImported j) := by
  refine .bind (works_onJob fun _ => rfl) fun _ _ => .bind .wait fun a _ => ?_
  refine .ite (works_say 400 _) (.bind (works_say 400 _) fun _ _ => .bind .wait fun b _ => ?_)
  cases b.failed with
  | none => exact works_say 400 _
  | some message => exact .bind (works_say 400 _) fun _ _ => works_say 400 _

theorem works_import (details : ImportDetails) (body : Json) : Works i j (importWork j details body) := by
  refine .tryCatch ?_ (works_failed 400)
  refine .bind (works_stage 400) fun _ _ => .bind (works_stage 400) fun result _ => ?_
  refine .bind (works_onJob fun _ => rfl) fun _ _ => .bind (works_rebuildImported details) fun _ _ => ?_
  have hend : Works i j (do
      Async.update (World.onJob j fun job => { job with ok := true, phase := "done" })
      Async.update (World.finish j) : Task ImportDetails Unit) :=
    .bind (works_onJob fun _ => rfl) fun _ _ => works_finish
  split
  · exact .bind works_probeImported fun _ _ => hend
  · exact hend

end Work

section Routes

/-- A body that starts no job is refused as a bad request, or by the caller of a handler that has
thrown. -/
def Refuses (x : Except Response α) : Prop := ∀ r, x = .error r → r.code = 400 ∨ r.code = 500

theorem Refuses.pure (a : α) : Refuses (Pure.pure a : Except Response α) := nofun

theorem Refuses.throw {r : Response} (h : r.code = 400) :
    Refuses (MonadExcept.throw r : Except Response α) := by
  intro e he
  have he : r = e := Except.error.inj he
  exact .inl (he ▸ h)

theorem Refuses.bind {x : Except Response α} {f : α → Except Response β} (h : Refuses x)
    (hf : ∀ a, Refuses (f a)) : Refuses (x >>= f) := by
  intro r hr
  cases x with
  | ok a => exact hf a r hr
  | error e =>
    have hr : e = r := Except.error.inj hr
    exact hr ▸ h e rfl

theorem Refuses.ofThrow (x : Except Throw α) : Refuses (ofThrow x) := by
  intro r hr
  unfold Jobs.ofThrow at hr
  split at hr
  · cases hr
  · have hr : serverError = r := Except.error.inj hr
    exact .inr (hr ▸ rfl)

theorem Refuses.not_started {x : Except Response α} (h : Refuses x) {r : Response} (hr : x = .error r) :
    r ≠ ⟨202, none⟩ := by
  rintro rfl
  obtain he | he := h _ hr
  · cases he
  · cases he

theorem refuses_update (body : Json) : Refuses (updateDetails body) :=
  .bind (.ofThrow _) fun _ => .pure _

theorem refuses_code (onion : String) (body : Json) : Refuses (do
    let code ← ofThrow (body.get "code")
    let trustedCode := trim (← ofThrow (orEmpty code).text)
    unless looksLikeCode trustedCode ∧ 100 ≤ (trustedCode.toList.map units).sum do
      throw ⟨400, some "the payment code of the instance you are importing from is required"⟩
    let apply ← ofThrow (body.get "apply")
    return ({ apply := apply matches some (.bool true), onion } : ImportDetails)) := by
  refine .bind (.ofThrow _) fun _ => .bind (.ofThrow _) fun _ => ?_
  dsimp only
  split
  · exact .bind (.ofThrow _) fun _ => .pure _
  · exact .bind (.throw rfl) fun _ => .bind (.ofThrow _) fun _ => .pure _

theorem refuses_import (body : Json) : Refuses (importDetails body) := by
  refine .bind (.ofThrow _) fun onion => ?_
  split
  · exact refuses_code _ body
  · exact .bind (.throw rfl) fun _ => refuses_code _ body

theorem update_lawful : updateKind.Lawful where
  accept body _ h := (refuses_update body).not_started h
  begins _ := rfl
  work _ _ details body := works_update details body

theorem import_lawful : importKind.Lawful where
  accept body _ h := (refuses_import body).not_started h
  begins _ := rfl
  work _ _ details body := works_import details body

/-- The job objects that are not done are the unfinished jobs of the history. -/
theorem Tracks.unfinished (h : Tracks w) (j : Nat) :
    (∃ job, w.jobs[j]? = some job ∧ job.done = false) ↔ Unfinished w.log j := by
  constructor
  · rintro ⟨job, hjob, hdone⟩
    refine ⟨(h.started j).2 (List.getElem?_eq_some_iff.1 hjob).1, fun hf => ?_⟩
    rw [(h.done j job hjob).2 hf] at hdone
    cases hdone
  · rintro ⟨hs, hf⟩
    have hlt := (h.started j).1 hs
    refine ⟨w.jobs[j], List.getElem?_eq_getElem hlt, ?_⟩
    rw [← Bool.not_eq_true, h.done j _ (List.getElem?_eq_getElem hlt)]
    exact hf

/-- Updates run one at a time, and imports do, in exactly the runs in which no request starts a job
while one is unfinished that has been started since the request found none. -/
theorem one_job_at_a_time (moves : List (Move Call Input)) :
    ((∀ j, (∃ job, (run updateKind moves).shared.jobs[j]? = some job ∧ job.done = false) ↔
        Unfinished (run updateKind moves).shared.log j) ∧
      (OneJob (run updateKind moves).shared.log ↔
        Logged.Throughout Clear (run updateKind moves).shared.log)) ∧
    (∀ j, (∃ job, (run importKind moves).shared.jobs[j]? = some job ∧ job.done = false) ↔
        Unfinished (run importKind moves).shared.log j) ∧
      (OneJob (run importKind moves).shared.log ↔
        Logged.Throughout Clear (run importKind moves).shared.log) :=
  ⟨⟨(inv_run update_lawful moves).tracks.unfinished, oneJob_iff update_lawful moves⟩,
    (inv_run import_lawful moves).tracks.unfinished, oneJob_iff import_lawful moves⟩

/-- Two requests find no job, and then their bodies arrive. -/
def twoRequests : List (Move Call Input) :=
  [.call .post, .call .post, .resume 0 {}, .resume 1 {}, .resume 0 {}, .resume 1 {}]

theorem twoRequests_log : (run updateKind twoRequests).shared.log =
    [.answered 1 ⟨202, none⟩, .started 1 1, .answered 0 ⟨202, none⟩, .started 0 0, .passed 1, .passed 0] :=
  rfl

theorem two_updates_at_a_time :
    ¬ ∀ moves, OneJob (run updateKind moves).shared.log ∧ OneJob (run importKind moves).shared.log := by
  intro h
  have halone := (h twoRequests).1.alone _ List.suffix_rfl 0 1
  rw [twoRequests_log] at halone
  have h₀ : Unfinished [.answered 1 ⟨202, none⟩, .started 1 1, .answered 0 ⟨202, none⟩, .started 0 0,
      .passed 1, .passed 0] 0 := ⟨⟨0, by simp⟩, by simp⟩
  have h₁ : Unfinished [.answered 1 ⟨202, none⟩, .started 1 1, .answered 0 ⟨202, none⟩, .started 0 0,
      .passed 1, .passed 0] 1 := ⟨⟨1, by simp⟩, by simp⟩
  exact absurd (halone h₀ h₁) (by decide)

end Routes

end Mise.Server.Jobs
