import Mise.Server.Answered

set_option autoImplicit true

namespace Mise.Server

open Js Async

section Replays

variable {s : Store} {rec : StoreRecord} {id : String} {w w' : World Event}

/-- The listings of a world are what its history says. -/
structure Replays (s : Store) (w : World Event) : Prop where
  slots : ∀ id, w.store.submissions.get id = slot s id w.log
  objects : ∀ r, w.store.object r = content s r w.log

theorem Replays.start (s : Store) : Replays s ⟨s, []⟩ := ⟨fun _ => rfl, fun _ => rfl⟩

theorem Replays.aside (h : Replays s w) (hl : w'.log = w.log)
    (hs : ∀ id, w'.store.submissions.get id = w.store.submissions.get id)
    (ho : w'.store.objects = w.store.objects) : Replays s w' where
  slots id := by rw [hl, hs, h.slots]
  objects r := by rw [hl, Store.object, ho]; exact h.objects r

theorem Replays.note (h : Replays s w) (hp : e.placed = none) (hw : e.written = none) :
    Replays s ⟨w.store, e :: w.log⟩ where
  slots id := by rw [slot, hp]; exact h.slots id
  objects r := by rw [content, hw]; exact h.objects r

theorem Store.object_modify (s : Store) (r q : Nat) (f : StoreRecord → StoreRecord) :
    (s.modify r f).object q = if r = q then (s.object q).map f else s.object q := by
  simp only [object, modify, List.getElem?_modify]
  split
  · rfl
  · exact Option.map_id'

theorem Replays.write (h : Replays s w) (hp : e.placed = none) (hr : w.store.object r = some old)
    (hw : e.written = some (r, f old)) : Replays s ⟨w.store.modify r f, e :: w.log⟩ where
  slots id := by rw [slot, hp]; exact h.slots id
  objects q := by
    rw [Store.object_modify, content, hw]
    by_cases hq : r = q
    · subst hq
      simp only [if_true, hr, Option.map_some]
    · simp only [hq, if_false, h.objects]

theorem Replays.put (h : Replays s w) (hr : w.store.object r = some rec) :
    Replays s (w.putObject i actor purpose r) := by
  have hw : w.putObject i actor purpose r =
      ⟨{ w.store with submissions := w.store.submissions.set rec.id r },
        .put i actor purpose rec.id r :: w.log⟩ := by
    simp only [World.putObject, Store.putObject, hr]
  rw [hw]
  refine ⟨fun id => ?_, fun q => (h.objects q).trans (content_cons q _ _ fun _ h => by cases h).symm⟩
  rw [slot, Table.get_set]
  simp only [Event.placed, eq_comm (a := id), h.slots]

theorem Replays.delete (h : Replays s w) :
    Replays s ⟨w.store.deleteSubmission id, .deleted i actor id :: w.log⟩ := by
  refine ⟨fun k => ?_, fun q => (h.objects q).trans (content_cons q _ _ fun _ h => by cases h).symm⟩
  rw [slot, Store.deleteSubmission, Table.get_delete]
  simp only [Event.placed, eq_comm (a := k), h.slots]

theorem Replays.make (h : Replays s w) (rec : StoreRecord) :
    Replays s ⟨{ w.store with objects := w.store.objects ++ [rec] },
      .made i w.store.objects.length rec :: w.log⟩ := by
  refine ⟨fun id => (h.slots id).trans (slot_cons id _ _ fun _ h => by cases h).symm, fun q => ?_⟩
  rw [content, Store.object, List.getElem?_append]
  have ho := h.objects q
  rw [Store.object] at ho
  split
  · next hq =>
    have hne : w.store.objects.length ≠ q := by omega
    simp only [Event.written, hne, if_false, ho]
  · next hq =>
    by_cases he : w.store.objects.length = q
    · subst he
      simp [Event.written]
    · have hlt : w.store.objects.length < q := by omega
      have hnone : w.store.objects[q]? = none := List.getElem?_eq_none (by omega)
      have hd : ([rec] : List StoreRecord)[q - w.store.objects.length]? = none :=
        List.getElem?_eq_none (by simp; omega)
      rw [hd, ← hnone, ho]
      simp only [Event.written, he, if_false]

end Replays

section Tracks

variable {s : Store} {rec : StoreRecord} {id : String}

/-- The history of a world is legal, and says what its listings are. -/
structure Tracks (s : Store) (w : World Event) : Prop where
  legal : Legal s w.log
  slots : ∀ id, w.store.submissions.get id = slot s id w.log
  objects : ∀ r, w.store.object r = content s r w.log

theorem Tracks.replays {w : World Event} (h : Tracks s w) : Replays s w := ⟨h.slots, h.objects⟩

theorem Replays.tracks {w : World Event} (h : Replays s w) (hl : Legal s w.log) : Tracks s w :=
  ⟨hl, h.slots, h.objects⟩

theorem Tracks.start (s : Store) : Tracks s ⟨s, []⟩ := (Replays.start s).tracks .nil

theorem Tracks.aside {w w' : World Event} (h : Tracks s w) (hl : w'.log = w.log)
    (hs : ∀ id, w'.store.submissions.get id = w.store.submissions.get id)
    (ho : w'.store.objects = w.store.objects) : Tracks s w' :=
  (h.replays.aside hl hs ho).tracks (hl ▸ h.legal)

theorem Tracks.note {w : World Event} (h : Tracks s w) (he : Allowed s w.log e)
    (hp : e.placed = none) (hw : e.written = none) : Tracks s ⟨w.store, e :: w.log⟩ :=
  (h.replays.note hp hw).tracks (.cons h.legal he)

theorem Tracks.write {w : World Event} (h : Tracks s w) (he : Allowed s w.log e)
    (hp : e.placed = none) (hr : w.store.object r = some old) (hw : e.written = some (r, f old)) :
    Tracks s ⟨w.store.modify r f, e :: w.log⟩ :=
  (h.replays.write hp hr hw).tracks (.cons h.legal he)

theorem Tracks.normal {w : World Event} (h : Tracks s w) (hs : s.WellFormed)
    (hr : w.store.object r = some rec) : Normal rec :=
  h.legal.normal hs ((h.objects r).symm.trans hr)

theorem Tracks.normalise {w : World Event} (h : Tracks s w) (hs : s.WellFormed) (r : Nat) :
    w.store.modify r normaliseSubmission = w.store :=
  Store.modify_normal fun _ hr => h.normal hs hr

theorem Tracks.put {w : World Event} (h : Tracks s w) (hr : w.store.object r = some rec)
    (he : Allowed s w.log (.put i actor purpose rec.id r)) :
    Tracks s (w.putObject i actor purpose r) := by
  have hl : (w.putObject i actor purpose r).log = .put i actor purpose rec.id r :: w.log := by
    simp only [World.putObject, hr]
  exact (h.replays.put hr).tracks (hl ▸ .cons h.legal he)

theorem Tracks.delete {w : World Event} (actor : Actor) (id : String) (h : Tracks s w)
    (he : Allowed s w.log (.deleted i actor id)) :
    Tracks s ⟨w.store.deleteSubmission id, .deleted i actor id :: w.log⟩ :=
  h.replays.delete.tracks (.cons h.legal he)

theorem Tracks.make {w : World Event} (h : Tracks s w) (rec : StoreRecord)
    (he : Allowed s w.log (.made i w.store.objects.length rec)) :
    Tracks s ⟨{ w.store with objects := w.store.objects ++ [rec] },
      .made i w.store.objects.length rec :: w.log⟩ :=
  (h.replays.make rec).tracks (.cons h.legal he)

end Tracks

/-- The history says what the listings are, and every answer in it is true. -/
structure Served (s : Store) (g : Gates) (w : World Event) : Prop extends Tracks s w where
  honest : Honest g w.log

theorem Served.aside {w w' : World Event} (h : Served s g w) (hl : w'.log = w.log)
    (hs : ∀ id, w'.store.submissions.get id = w.store.submissions.get id)
    (ho : w'.store.objects = w.store.objects) : Served s g w' :=
  ⟨h.toTracks.aside hl hs ho, hl ▸ h.honest⟩

/-- What the others may do while request `i` waits. -/
def ServeRely (s : Store) (g : Gates) (i : Nat) (w w' : World Event) : Prop :=
  ∃ l, w'.log = l ++ w.log ∧ (∀ e ∈ l, e.request ≠ i) ∧ (Served s g w → Served s g w')

def ServeGuarantee (s : Store) (g : Gates) (i : Nat) (w w' : World Event) : Prop :=
  ∃ l, w'.log = l ++ w.log ∧ (∀ e ∈ l, e.request = i) ∧ (Served s g w → Served s g w')

/-- A fact about a history that stays true of it. -/
def Persistent (s : Store) (P : List Event → Prop) : Prop :=
  ∀ l₁ l₂, Legal s (l₁ ++ l₂) → P l₂ → P (l₁ ++ l₂)

/-- What request `i` knows between two steps of a segment that began at the first of the worlds:
it has come as far as `n`, and `P` is true of the history. -/
structure At (s : Store) (g : Gates) (i n : Nat) (P : List Event → Prop) (w₀ w : World Event) :
    Prop where
  guarantee : ServeGuarantee s g i w₀ w
  tracks : Served s g w
  stage : ∀ e ∈ w.log, e.request = i → e.rank ≤ n
  persistent : Persistent s P
  known : P w.log

section Rules

variable {s : Store} {g : Gates} {i n : Nat} {P : List Event → Prop} {w₀ w w' : World Event}

theorem ServeRely.refl (s : Store) (g : Gates) (i : Nat) (w : World Event) : ServeRely s g i w w :=
  ⟨[], rfl, fun _ he => absurd he List.not_mem_nil, fun h => h⟩

theorem ServeRely.trans {w'' : World Event} (h : ServeRely s g i w w') (h' : ServeRely s g i w' w'') :
    ServeRely s g i w w'' := by
  obtain ⟨l, hl, hne, ht⟩ := h
  obtain ⟨l', hl', hne', ht'⟩ := h'
  refine ⟨l' ++ l, by rw [hl', hl, List.append_assoc], fun e he => ?_, fun h => ht' (ht h)⟩
  obtain he | he := List.mem_append.1 he
  · exact hne' e he
  · exact hne e he

theorem ServeGuarantee.refl (s : Store) (g : Gates) (i : Nat) (w : World Event) : ServeGuarantee s g i w w :=
  ⟨[], rfl, fun _ he => absurd he List.not_mem_nil, fun h => h⟩

theorem ServeGuarantee.trans {w'' : World Event} (h : ServeGuarantee s g i w w')
    (h' : ServeGuarantee s g i w' w'') : ServeGuarantee s g i w w'' := by
  obtain ⟨l, hl, hi, ht⟩ := h
  obtain ⟨l', hl', hi', ht'⟩ := h'
  refine ⟨l' ++ l, by rw [hl', hl, List.append_assoc], fun e he => ?_, fun h => ht' (ht h)⟩
  obtain he | he := List.mem_append.1 he
  · exact hi' e he
  · exact hi e he

theorem ServeGuarantee.rely (h : ServeGuarantee s g i w w') (hj : i ≠ j) : ServeRely s g j w w' := by
  obtain ⟨l, hl, hi, ht⟩ := h
  exact ⟨l, hl, fun e he hr => hj ((hi e he).symm.trans hr), ht⟩

theorem Persistent.true (s : Store) : Persistent s fun _ => True := fun _ _ _ _ => trivial

theorem Persistent.and {Q : List Event → Prop} (hP : Persistent s P) (hQ : Persistent s Q) :
    Persistent s fun l => P l ∧ Q l :=
  fun l₁ l₂ hl h => ⟨hP l₁ l₂ hl h.1, hQ l₁ l₂ hl h.2⟩

theorem Persistent.mem (s : Store) (e : Event) : Persistent s (e ∈ ·) :=
  fun _ _ _ h => List.mem_append_right _ h

theorem Persistent.held (s : Store) (i : Nat) (id : String) (cs : List String) (r : Nat) :
    Persistent s (Held s i id cs r) := fun _ _ hl h => h.mono hl

namespace At

theorem here (h : At s g i n P w₀ w) : At s g i n P w w :=
  { h with guarantee := .refl s g i w }

theorem rely (h : At s g i n P w w) (hr : ServeRely s g i w w') : At s g i n P w' w' := by
  obtain ⟨l, hl, hne, ht⟩ := hr
  have ht := ht h.tracks
  refine ⟨.refl s g i w', ht, fun e he hi => ?_, h.persistent, ?_⟩
  · rw [hl] at he
    obtain he | he := List.mem_append.1 he
    · exact absurd hi (hne e he)
    · exact h.stage e he hi
  · rw [hl]
    exact h.persistent _ _ (hl ▸ ht.legal) h.known

theorem weaken {Q : List Event → Prop} (h : At s g i n P w₀ w) (hn : n ≤ m) (hQ : Persistent s Q)
    (hPQ : P w.log → Q w.log) : At s g i m Q w₀ w :=
  ⟨h.guarantee, h.tracks, fun e he hi => Nat.le_trans (h.stage e he hi) hn, hQ, hPQ h.known⟩

theorem later (h : At s g i n P w₀ w) (hn : n ≤ m) : At s g i m P w₀ w :=
  h.weaken hn h.persistent fun hP => hP

/-- A fact that has been found out. -/
theorem learn {Q : List Event → Prop} (h : At s g i n P w₀ w) (hQ : Persistent s Q) (hw : Q w.log) :
    At s g i n (fun l => P l ∧ Q l) w₀ w :=
  ⟨h.guarantee, h.tracks, h.stage, h.persistent.and hQ, h.known, hw⟩

theorem aside (h : At s g i n P w₀ w) (hl : u.log = w.log)
    (hs : ∀ id, u.store.submissions.get id = w.store.submissions.get id)
    (ho : u.store.objects = w.store.objects) : At s g i n P w₀ u :=
  ⟨h.guarantee.trans ⟨[], hl, fun _ he => absurd he List.not_mem_nil, fun ht => ht.aside hl hs ho⟩,
    h.tracks.aside hl hs ho, hl ▸ h.stage, h.persistent, hl ▸ h.known⟩

/-- Steps of the history. -/
theorem steps {l : List Event} (h : At s g i n P w₀ w) (ht : Tracks s w') (hl : w'.log = l ++ w.log)
    (hi : ∀ e ∈ l, e.request = i) (hn : n ≤ m) (he : ∀ e ∈ l, e.rank ≤ m) (hm : m ≤ 4 := by omega) :
    At s g i m P w₀ w' := by
  have ht : Served s g w' :=
    ⟨ht, hl ▸ h.tracks.honest.append fun e hel => Nat.le_trans (he e hel) hm⟩
  refine ⟨h.guarantee.trans ⟨l, hl, hi, fun _ => ht⟩, ht, ?_, h.persistent, ?_⟩
  · intro e hm hr
    rw [hl] at hm
    obtain hm | hm := List.mem_append.1 hm
    · exact he e hm
    · exact Nat.le_trans (h.stage e hm hr) hn
  · rw [hl]
    exact h.persistent l w.log (hl ▸ ht.legal) h.known

theorem step (h : At s g i n P w₀ w) (ht : Tracks s u) (hl : u.log = e :: w.log)
    (hi : e.request = i) (hn : n ≤ m) (he : e.rank ≤ m) (hm : m ≤ 4 := by omega) :
    At s g i m P w₀ u :=
  h.steps (l := [e]) ht hl (by simpa using hi) hn (by simpa using he) hm

/-- What the request has not come to yet has not happened. -/
theorem notYet (h : At s g i n P w₀ w) (hi : e.request = i) (hn : n < e.rank) : e ∉ w.log :=
  fun he => absurd (h.stage e he hi) (Nat.not_le.2 hn)

end At

/-- However a request ends, it has not been answered yet. -/
def Ends (s : Store) (g : Gates) (i : Nat) (_ : β) (w₀ w : World Event) : Prop := At s g i 4 (fun _ => True) w₀ w

theorem At.ends (h : At s g i n P w₀ w) (hn : n ≤ 4) (x : β) : Ends s g i x w₀ w :=
  h.weaken hn (.true s) fun _ => trivial

variable {Q : β → World Event → World Event → Prop}

theorem At.wait (h : At s g i n P w₀ w) : Sat (ServeRely s g i) (ServeGuarantee s g i)
    (fun _ => At s g i n P) (Ends s g i) (Async.wait : Action Event Answer) w₀ w :=
  ⟨h.guarantee, fun _ ht _ => h.here.rely ht⟩

/-- `await p`, where what is known after `p` is still known when the caller goes on. -/
theorem awaits {m : β → Nat} {P : β → List Event → Prop} {p : Action Event β}
    (h : Sat (ServeRely s g i) (ServeGuarantee s g i) (fun x => At s g i (m x) (P x)) (Ends s g i) p w₀ w) :
    Sat (ServeRely s g i) (ServeGuarantee s g i) (fun x => At s g i (m x.1) (P x.1)) (Ends s g i)
      (awaiting p) w₀ w := by
  refine awaiting_sat (K := fun x w => At s g i (m x) (P x) w w) (fun h hr => h.rely hr) ?_
    fun x a w h => h
  exact h.mono (fun x w₀ w h => ⟨h.guarantee, h.here⟩) fun _ _ _ h => h

theorem At.framed {m : β → Nat} {D : β → List Event → Prop} {p : Action Event β}
    (h : At s g i n P w₀ w)
    (hp : Sat (ServeRely s g i) (ServeGuarantee s g i) (fun x => At s g i (m x) (D x)) (Ends s g i)
      p w w) :
    Sat (ServeRely s g i) (ServeGuarantee s g i) (fun x => At s g i (m x) fun l => D x l ∧ P l)
      (Ends s g i) p w₀ w := by
  have hlonger {l : List Event} {u v : World Event} (hu : Served s g u ∧ P u.log)
      (hl : v.log = l ++ u.log) (ht : Served s g u → Served s g v) : Served s g v ∧ P v.log := by
    have hv := ht hu.1
    exact ⟨hv, hl ▸ h.persistent l u.log (hl ▸ hv.legal) hu.2⟩
  have hp := hp.frame (K := fun u => Served s g u ∧ P u.log) ⟨h.tracks, h.known⟩
    (fun hu hg => hg.elim fun l hg => hlonger hu hg.1 hg.2.2)
    (fun hu hr => hr.elim fun l hr => hlonger hu hr.1 hr.2.2)
    (fun h => h.guarantee) fun h => h.guarantee
  refine (hp.since (fun hg => h.guarantee.trans hg) (fun hx => ?_) fun hx => ?_).mono
    (fun x _ _ hx => hx.1.learn h.persistent hx.2.2) fun _ _ _ hx => hx.1
  · exact ⟨{ hx.1 with guarantee := h.guarantee.trans hx.1.guarantee }, hx.2⟩
  · exact ⟨{ hx.1 with guarantee := h.guarantee.trans hx.1.guarantee }, hx.2⟩

end Rules

section Operations

variable {s : Store} {g : Gates} {id : String} {rec : StoreRecord} {actor : Actor} {i n : Nat}
  {P : List Event → Prop} {w₀ w : World Event}

theorem At.throw (h : At s g i n P w₀ w) (hn : n ≤ 4) {Q : β → World Event → World Event → Prop}
    (e : Fault) : Sat (ServeRely s g i) (ServeGuarantee s g i) Q (Ends s g i)
      (MonadExcept.throw e : Action Event β) w₀ w := h.ends hn e

theorem At.ofExcept (h : At s g i n P w₀ w) (hn : n ≤ 4) (x : Except Throw β) :
    Sat (ServeRely s g i) (ServeGuarantee s g i) (fun y w₀ w => x = .ok y ∧ At s g i n P w₀ w) (Ends s g i)
      (ofExcept x) w₀ w := by
  cases x with
  | ok y => exact ⟨rfl, h⟩
  | error e => cases e; exact h.ends hn _

theorem At.eval (h : At s g i n P w₀ w) (hn : n ≤ 4) {x : Except Throw β} {k : β → Action Event γ}
    {Q : γ → World Event → World Event → Prop}
    (hk : ∀ y, x = .ok y → Sat (ServeRely s g i) (ServeGuarantee s g i) Q (Ends s g i) (k y) w₀ w) :
    Sat (ServeRely s g i) (ServeGuarantee s g i) Q (Ends s g i) (Server.ofExcept x >>= k) w₀ w := by
  rw [sat_bind]
  cases x with
  | ok y => exact hk y rfl
  | error e => cases e; exact h.ends hn _

theorem At.fileOperation (h : At s g i n P w₀ w) (hn : n ≤ 4) :
    Sat (ServeRely s g i) (ServeGuarantee s g i) (fun _ => At s g i n P) (Ends s g i) fileOperation w₀ w := by
  unfold Server.fileOperation
  refine h.wait.seq fun a t₀ t ht => ?_
  cases ha : a.ok with
  | false => exact ht.ends hn _
  | true => exact ht

theorem At.persist (h : At s g i n P w₀ w) (hn : n ≤ 4) :
    Sat (ServeRely s g i) (ServeGuarantee s g i) (fun _ => At s g i n P) (Ends s g i) persist w₀ w := by
  unfold Server.persist
  refine h.wait.seq fun a t₀ t ht => ?_
  cases ha : a.ok with
  | false => exact ht.ends hn _
  | true =>
    refine ht.wait.seq fun b u₀ u hu => ?_
    cases hb : b.ok with
    | false => exact hu.ends hn _
    | true => exact hu

theorem At.getSession (h : At s g i n P w₀ w) (hn : n ≤ 4) (id : String) :
    Sat (ServeRely s g i) (ServeGuarantee s g i) (fun _ => At s g i n P) (Ends s g i)
      (getSession id) w₀ w := by
  unfold Server.getSession
  split
  · exact h
  · refine h.wait.seq fun a t₀ t ht => ?_
    simp only [sat_bind, sat_read, sat_updateGet]
    have hs : (t.store.getSession id a.clock).2.submissions = t.store.submissions ∧
        (t.store.getSession id a.clock).2.objects = t.store.objects := by
      unfold Store.getSession
      split
      · exact ⟨rfl, rfl⟩
      · split
        · split <;> exact ⟨rfl, rfl⟩
        · exact ⟨rfl, rfl⟩
    have ht' := ht.aside (u := (t.change (Store.getSession id a.clock) fun _ => []).2) rfl
      (fun k => congrArg (Table.get · k) hs.1) hs.2
    split
    · exact (awaits (ht'.persist hn)).seq fun _ u₀ u hu => hu
    · exact ht'

theorem At.sessionFrom (h : At s g i n P w₀ w) (hn : n ≤ 4) (sid : String) :
    Sat (ServeRely s g i) (ServeGuarantee s g i) (fun _ => At s g i n P) (Ends s g i)
      (sessionFrom sid) w₀ w := by
  unfold Server.sessionFrom
  split
  · exact h
  · refine (awaits (h.getSession hn sid)).seq fun x t₀ t ht => ?_
    obtain ⟨sess, a⟩ := x
    cases sess <;> exact ht

theorem At.seedNodes (h : At s g i n P w₀ w) :
    Sat (ServeRely s g i) (ServeGuarantee s g i) (fun _ => At s g i n P) (Ends s g i) seedNodes w₀ w :=
  h.wait.seq fun _ _ _ ht => ht

/-- What the request has got hold of under `id`, where it has. -/
def Sighted (s : Store) (i : Nat) (id : Option Json) (r : Nat) (l : List Event) : Prop :=
  ∃ k cs, propertyKey id = .ok k ∧ Held s i k cs r l

theorem Persistent.sighted (s : Store) (i : Nat) (id : Option Json) (r : Nat) :
    Persistent s (Sighted s i id r) := by
  intro l₁ l₂ hl h
  obtain ⟨k, cs, hk, h⟩ := h
  exact ⟨k, cs, hk, h.mono hl⟩

theorem Tracks.held (h : Tracks s w) (hs : s.WellFormed) (hsaw : .saw i id r ∈ w.log)
    (hid : slot s id w.log = some r) : ∃ cs, Held s i id cs r w.log := by
  obtain ⟨rec, hr, hrec⟩ := h.legal.stored hs hid
  exact ⟨rec.codes, hsaw, rec, hr, hrec, rfl⟩

theorem At.getSubmission (h : At s g i 0 P w₀ w) (hs : s.WellFormed) (id : Option Json) :
    Sat (ServeRely s g i) (ServeGuarantee s g i)
      (fun x => At s g i 1 fun l => P l ∧ ∀ r, x = .own r → Sighted s i id r l) (Ends s g i)
      (getSubmission i id) w₀ w := by
  have hP (x : Found Nat) : Persistent s fun l => ∀ r, x = .own r → Sighted s i id r l :=
    fun l₁ l₂ hl h r hr => (Persistent.sighted s i id r) l₁ l₂ hl (h r hr)
  unfold Server.getSubmission
  refine h.wait.seq fun a t₀ t ht => ?_
  refine (ht.ofExcept (by omega) _).seq fun k u₀ u hu => ?_
  obtain ⟨hk, hu⟩ := hu
  simp only [sat_updateGet, World.change, Store.getSubmission]
  obtain ⟨r, hf, hr⟩ | ⟨hf, -⟩ | ⟨hf, -⟩ := Table.find_cases u.store.prototype u.store.submissions k
  · have hr := (hu.tracks.slots k).symm.trans hr
    have ht' := hu.tracks.note (e := .saw i k r) ⟨hr, fun q => hu.notYet rfl Nat.one_pos⟩ rfl rfl
    simp only [hf, hu.tracks.normalise hs]
    refine (hu.step ht' rfl rfl (by omega) (Nat.le_refl 1)).learn (hP _) fun q hq => ?_
    cases hq
    obtain ⟨cs, hheld⟩ := ht'.held hs List.mem_cons_self ((slot_note rfl).trans hr)
    exact ⟨k, cs, hk, hheld⟩
  · simp only [hf]
    refine ((hu.aside ?_ ?_ ?_).later (Nat.zero_le _)).learn (hP _) fun q hq => ?_
    · rfl
    · intro id
      split <;> rfl
    · split <;> rfl
    · cases hq
  · simp only [hf]
    refine ((hu.aside ?_ ?_ ?_).later (Nat.zero_le _)).learn (hP _) fun q hq => ?_
    · rfl
    · exact fun _ => rfl
    · rfl
    · cases hq

theorem Tracks.sights (h : Tracks s w) (entries : List (String × Nat))
    (hn : (entries.map Prod.fst).Nodup) (hget : ∀ x ∈ entries, slot s x.1 w.log = some x.2)
    (hnot : ∀ x ∈ entries, ∀ q, .saw i x.1 q ∉ w.log) :
    Tracks s ⟨w.store, entries.map (fun x => .saw i x.1 x.2) ++ w.log⟩ ∧
      ∀ id, slot s id (entries.map (fun x => .saw i x.1 x.2) ++ w.log) = slot s id w.log := by
  induction entries with
  | nil => exact ⟨h, fun _ => rfl⟩
  | cons x entries ih =>
    rw [List.map_cons, List.nodup_cons] at hn
    obtain ⟨ht, hslot⟩ := ih hn.2 (fun y hy => hget y (List.mem_cons_of_mem _ hy))
      fun y hy => hnot y (List.mem_cons_of_mem _ hy)
    have hfresh : ∀ q, .saw i x.1 q ∉ entries.map (fun x => Event.saw i x.1 x.2) ++ w.log := by
      intro q hq
      obtain hq | hq := List.mem_append.1 hq
      · obtain ⟨y, hy, he⟩ := List.mem_map.1 hq
        simp only [Event.saw.injEq] at he
        exact hn.1 (he.2.1 ▸ List.mem_map_of_mem hy)
      · exact hnot x List.mem_cons_self q hq
    have hx := (hslot x.1).trans (hget x List.mem_cons_self)
    refine ⟨ht.note (e := .saw i x.1 x.2) ⟨hx, hfresh⟩ rfl rfl, fun id => ?_⟩
    exact (slot_note rfl).trans (hslot id)

theorem At.listSubmissions (h : At s g i n P w₀ w) :
    Sat (ServeRely s g i) (ServeGuarantee s g i)
      (fun _ => At s g i n P) (Ends s g i)
      (Server.listSubmissions i false) w₀ w := by
  unfold Server.listSubmissions
  refine h.wait.seq fun a t₀ t ht => ?_
  exact ht.aside rfl (fun _ => rfl) rfl

theorem At.listSeen (h : At s g i 0 P w₀ w) (hs : s.WellFormed) :
    Sat (ServeRely s g i) (ServeGuarantee s g i)
      (fun refs => At s g i 1 fun l => P l ∧ ∀ r ∈ refs, ∃ id cs, Held s i id cs r l) (Ends s g i)
      (Server.listSubmissions i true) w₀ w := by
  have hP (refs : List Nat) : Persistent s fun l => ∀ r ∈ refs, ∃ id cs, Held s i id cs r l := by
    intro l₁ l₂ hl h r hr
    obtain ⟨id, cs, h⟩ := h r hr
    exact ⟨id, cs, h.mono hl⟩
  unfold Server.listSubmissions
  refine h.wait.seq fun a t₀ t ht => ?_
  have hget : ∀ x ∈ t.store.submissions.entries, slot s x.1 t.log = some x.2 := fun x hx =>
    (ht.tracks.slots x.1).symm.trans (Table.get_of_mem hx)
  obtain ⟨ht', hslot⟩ := ht.tracks.sights (i := i) t.store.submissions.entries
    t.store.submissions.nodup hget fun x _ q => ht.notYet rfl Nat.one_pos
  simp only [sat_bind, sat_updateGet, sat_pure, World.change, if_true]
  refine (ht.steps ht' rfl ?_ (Nat.zero_le _) ?_).learn (hP _) fun r hr => ?_
  · simp only [List.mem_map, forall_exists_index, and_imp]
    rintro e x - rfl
    rfl
  · simp only [List.mem_map, forall_exists_index, and_imp]
    rintro e x - rfl
    exact Nat.le_refl _
  · obtain ⟨x, hx, rfl⟩ := List.mem_map.1 hr
    obtain ⟨cs, hheld⟩ := ht'.held hs (List.mem_append_left _ (List.mem_map_of_mem hx))
      ((hslot x.1).trans (hget x hx))
    exact ⟨x.1, cs, hheld⟩

theorem At.readObject (h : At s g i n P w₀ w) (hn : n ≤ 4) (r : Nat) :
    Sat (ServeRely s g i) (ServeGuarantee s g i)
      (fun x w₀ w => w.store.object r = some x ∧ At s g i n P w₀ w) (Ends s g i)
      (readObject r) w₀ w := by
  unfold Server.readObject
  simp only [sat_bind, sat_read]
  cases hr : w.store.object r with
  | none => exact h.throw hn _
  | some x => exact ⟨hr, h⟩

theorem At.nameConflict (h : At s g i n P w₀ w) (network : Network) (slug : String)
    (pc : Option String) : Sat (ServeRely s g i) (ServeGuarantee s g i) (fun _ => At s g i n P) (Ends s g i)
      (nameConflict i network slug pc) w₀ w := by
  unfold Server.nameConflict
  refine (awaits h.listSubmissions).seq fun x t₀ t ht => ?_
  simp only [sat_bind, sat_read]
  split
  · exact ht
  · exact (awaits ht.seedNodes).seq fun _ _ _ hu => hu

theorem At.slugTakenByOther (h : At s g i n P w₀ w) (network : Network) (slug excludeId : String) :
    Sat (ServeRely s g i) (ServeGuarantee s g i) (fun _ => At s g i n P) (Ends s g i)
      (slugTakenByOther i network slug excludeId) w₀ w := by
  unfold Server.slugTakenByOther
  refine (awaits h.listSubmissions).seq fun x t₀ t ht => ?_
  simp only [sat_bind, sat_read]
  split
  · exact ht
  · exact (awaits ht.seedNodes).seq fun _ _ _ hu => hu

/-- The request holds the object `r`, which the actor may change. -/
def Mine (s : Store) (i : Nat) (actor : Actor) (r : Nat) (l : List Event) : Prop :=
  ∃ id cs, Held s i id cs r l ∧ actor.mayChange cs

theorem Persistent.mine (s : Store) (i : Nat) (actor : Actor) (r : Nat) :
    Persistent s (Mine s i actor r) := by
  intro l₁ l₂ hl h
  obtain ⟨id, cs, h, hmay⟩ := h
  exact ⟨id, cs, h.mono hl, hmay⟩

theorem mayChange_of_owns {rec : StoreRecord} (h : owns rec pc) :
    (Actor.operator pc).mayChange rec.codes := by
  cases pc with
  | none => cases h
  | some c => exact ⟨c, by simpa [owns] using h, rfl⟩

theorem Held.codes (h : Tracks s w) (hheld : Held s i id cs r w.log)
    (hr : w.store.object r = some rec) : rec.codes = cs := by
  obtain ⟨-, rec', hr', -, rfl⟩ := hheld
  have he := hr.symm.trans ((h.objects r).trans hr')
  cases he
  rfl

theorem Held.id_eq (h : Tracks s w) (hheld : Held s i id cs r w.log)
    (hr : w.store.object r = some rec) : rec.id = id := by
  obtain ⟨-, rec', hr', rfl, -⟩ := hheld
  have he := hr.symm.trans ((h.objects r).trans hr')
  cases he
  rfl

theorem At.ownedRecordFor (h : At s g i 0 P w₀ w) (hs : s.WellFormed) (network : Network)
    (slug : String) (pc : Option String) : Sat (ServeRely s g i) (ServeGuarantee s g i)
      (fun x => At s g i 1 fun l => P l ∧ ∀ r, x = some r → Mine s i (.operator pc) r l) (Ends s g i)
      (ownedRecordFor i network slug pc) w₀ w := by
  have hP (x : Option Nat) : Persistent s fun l => ∀ r, x = some r → Mine s i (.operator pc) r l :=
    fun l₁ l₂ hl h r hr => Persistent.mine s i _ r l₁ l₂ hl (h r hr)
  unfold Server.ownedRecordFor
  refine (awaits (h.listSeen hs)).seq fun x t₀ t ht => ?_
  simp only [sat_bind, sat_read]
  refine (ht.weaken (Nat.le_refl 1) h.persistent And.left).learn (hP _) fun r hr => ?_
  obtain ⟨id, cs, hheld⟩ := ht.known.2 r (List.mem_of_find?_eq_some hr)
  have howns := List.find?_some hr
  cases ho : t.store.object r with
  | none => simp [ho] at howns
  | some rec =>
    simp only [ho, Option.any_some, Bool.and_eq_true] at howns
    exact ⟨id, cs, hheld, hheld.codes ht.tracks.toTracks ho ▸ mayChange_of_owns howns.2⟩

/-- The request holds the object under its `body.id`, which the actor may change. -/
def Target (s : Store) (i : Nat) (actor : Actor) (body : Json) (r : Nat) (l : List Event) : Prop :=
  ∃ v k cs, body.get "id" = .ok v ∧ propertyKey v = .ok k ∧ Held s i k cs r l ∧ actor.mayChange cs

theorem Persistent.target (s : Store) (i : Nat) (actor : Actor) (body : Json) (r : Nat) :
    Persistent s (Target s i actor body r) := by
  intro l₁ l₂ hl h
  obtain ⟨v, k, cs, hv, hk, h, hmay⟩ := h
  exact ⟨v, k, cs, hv, hk, h.mono hl, hmay⟩

theorem Target.mine (h : Target s i actor body r l) : Mine s i actor r l := by
  obtain ⟨v, k, cs, -, -, h, hmay⟩ := h
  exact ⟨k, cs, h, hmay⟩

theorem At.getTarget (h : At s g i 0 P w₀ w) (hs : s.WellFormed) (body : Json) :
    Sat (ServeRely s g i) (ServeGuarantee s g i)
      (fun x => At s g i 1 fun l => P l ∧ ∀ r, x = .own r → Target s i .maintainer body r l)
      (Ends s g i) (do Server.getSubmission i (← Server.ofExcept (body.get "id"))) w₀ w := by
  refine (h.ofExcept (by omega) _).seq fun v t₀ t ht => ?_
  obtain ⟨hv, ht⟩ := ht
  refine (ht.getSubmission hs v).mono (fun x u₀ u hu => ?_) fun _ _ _ he => he
  have hP : Persistent s fun l => ∀ r, x = .own r → Target s i .maintainer body r l :=
    fun l₁ l₂ hl h r hr => Persistent.target s i _ body r l₁ l₂ hl (h r hr)
  refine (hu.weaken (Nat.le_refl 1) h.persistent And.left).learn hP fun r hr => ?_
  obtain ⟨k, cs, hk, hheld⟩ := hu.known.2 r hr
  exact ⟨v, k, cs, hv, hk, hheld, trivial⟩

theorem At.ownedSubmission (h : At s g i 0 P w₀ w) (hs : s.WellFormed) (pc : Option String)
    (body : Json) : Sat (ServeRely s g i) (ServeGuarantee s g i)
      (fun x => At s g i 1 fun l => P l ∧ ∀ r, x.1 = some r → Target s i (.operator pc) body r l)
      (Ends s g i) (ownedSubmission i pc body) w₀ w := by
  have hP (x : Option Nat) :
      Persistent s fun l => ∀ r, x = some r → Target s i (.operator pc) body r l :=
    fun l₁ l₂ hl h r hr => Persistent.target s i _ body r l₁ l₂ hl (h r hr)
  unfold Server.ownedSubmission
  refine (awaits (h.getTarget hs body)).seq fun x t₀ t ht => ?_
  obtain ⟨found, a⟩ := x
  have ht' : At s g i 1 P t₀ t := ht.weaken (Nat.le_refl 1) h.persistent And.left
  cases found with
  | own r =>
    refine (ht.readObject (by omega) r).seq fun rec u₀ u hu => ?_
    obtain ⟨hr, hu⟩ := hu
    refine (hu.weaken (Nat.le_refl 1) h.persistent And.left).learn (hP _) fun q hq => ?_
    by_cases howns : owns rec pc
    · simp only [howns, if_true, Option.some.injEq] at hq
      subst hq
      obtain ⟨v, k, cs, hv, hk, hheld, -⟩ := hu.known.2 r rfl
      exact ⟨v, k, cs, hv, hk, hheld, hheld.codes hu.tracks.toTracks hr ▸ mayChange_of_owns howns⟩
    · simp [howns] at hq
  | inherited => exact ht'.learn (hP none) fun q hq => by cases hq
  | absent => exact ht'.learn (hP none) fun q hq => by cases hq

theorem At.foundSubmission (h : At s g i 0 P w₀ w) (hs : s.WellFormed) (body : Json) :
    Sat (ServeRely s g i) (ServeGuarantee s g i)
      (fun x => At s g i 1 fun l => P l ∧ ∀ r, x.1 = some r → Target s i .maintainer body r l)
      (Ends s g i) (foundSubmission i body) w₀ w := by
  unfold Server.foundSubmission
  refine (awaits (h.getTarget hs body)).seq fun x t₀ t ht => ?_
  obtain ⟨found, a⟩ := x
  have hP (x : Option Nat) : Persistent s fun l => ∀ r, x = some r → Target s i .maintainer body r l :=
    fun l₁ l₂ hl h r hr => Persistent.target s i _ body r l₁ l₂ hl (h r hr)
  have ht' : At s g i 1 P t₀ t := ht.weaken (Nat.le_refl 1) h.persistent And.left
  cases found with
  | own r => exact ht'.learn (hP (some r)) fun q hq => ht.known.2 q (by cases hq; rfl)
  | inherited => exact ht.ends (by omega) _
  | absent => exact ht'.learn (hP none) fun q hq => by cases hq

/-- An assignment of fields that a change of a record may assign. -/
structure Keeps (f : StoreRecord → StoreRecord) : Prop where
  id : ∀ rec, (f rec).id = rec.id
  codes : ∀ rec, (f rec).paymentCodes = rec.paymentCodes
  code : ∀ rec, (f rec).paymentCode = rec.paymentCode

theorem Keeps.normal (h : Keeps f) (hn : Normal rec) : Normal (f rec) := by
  unfold Normal
  rw [h.codes, h.code]
  exact hn

theorem Keeps.codes_eq (h : Keeps f) (rec : StoreRecord) : (f rec).codes = rec.codes := by
  rw [StoreRecord.codes, h.codes, StoreRecord.codes]

theorem Mine.object (hm : Mine s i actor r w.log) (ht : Tracks s w) :
    ∃ old, w.store.object r = some old ∧ content s r w.log = some old ∧
      actor.mayChange old.codes := by
  obtain ⟨id, cs, ⟨-, old, hr, -, rfl⟩, hmay⟩ := hm
  exact ⟨old, (ht.objects r).trans hr, hr, hmay⟩

theorem At.change (h : At s g i n P w₀ w) (hs : s.WellFormed) (hn : n ≤ 2)
    (hm : Mine s i actor r w.log) (hf : Keeps f) (hd : ∀ rec, (f rec).details = rec.details) :
    At s g i 2 P w₀ (w.assign r (.changed i actor r) f) := by
  obtain ⟨old, hr, hc, hmay⟩ := hm.object h.tracks.toTracks
  have hw : w.assign r (.changed i actor r) f =
      ⟨w.store.modify r f, .changed i actor r (f old) :: w.log⟩ := by
    simp only [World.assign, hr]
  rw [hw]
  have ht := h.tracks.write (e := .changed i actor r (f old)) ⟨old, hc, hmay,
    hf.normal (h.tracks.normal hs hr), hf.id old, hf.codes_eq old, hd old⟩ rfl hr rfl
  exact h.step ht rfl rfl hn (Nat.le_refl 2)

theorem rank_detailed {e : Event} (h : e.detailed = some (i, r)) : e.request = i ∧ e.rank = 2 := by
  cases e with
  | made i r rec => cases h; exact ⟨rfl, rfl⟩
  | paired i actor r rec => cases h; exact ⟨rfl, rfl⟩
  | _ => cases h

theorem At.undetailed (h : At s g i 1 P w₀ w) : ∀ e ∈ w.log, ∀ q, e.detailed ≠ some (i, q) := by
  intro e he q hd
  obtain ⟨hi, hrank⟩ := rank_detailed hd
  have := h.stage e he hi
  omega

/-- The request has given the object its pairing details, as the record `rec` has them. -/
def Detailed (i r : Nat) (rec : StoreRecord) (l : List Event) : Prop :=
  ∃ e ∈ l, e.detailed = some (i, r) ∧ e.written = some (r, rec)

theorem Persistent.detailed (s : Store) (i r : Nat) (rec : StoreRecord) :
    Persistent s (Detailed i r rec) := by
  intro l₁ l₂ _ h
  obtain ⟨e, he, hd⟩ := h
  exact ⟨e, List.mem_append_right _ he, hd⟩

/-- The request has stored the object under an id, and `P` was true then. -/
def Stored (s : Store) (i : Nat) (purpose : Purpose) (r : Nat) (P : List Event → Prop)
    (l : List Event) : Prop :=
  ∃ actor id cs l₁ l₂, l = l₁ ++ .put i actor purpose id r :: l₂ ∧ Coded s r id cs l₂ ∧ P l₂

theorem Persistent.stored (s : Store) (i : Nat) (purpose : Purpose) (r : Nat)
    (P : List Event → Prop) : Persistent s (Stored s i purpose r P) := by
  intro l₁ l₂ _ h
  obtain ⟨actor, id, cs, l₃, l₄, rfl, h⟩ := h
  exact ⟨actor, id, cs, l₁ ++ l₃, l₄, (List.append_assoc ..).symm, h⟩

/-- What has been stored with the details that the request gave it has been written. -/
theorem Stored.wrote (h : Stored s i purpose r P l) (hp : purpose ≠ .keep)
    (hP : ∀ l, P l → (∃ cs, Coded s r rec.id cs l) ∧ Detailed i r rec l) : Wrote i rec l := by
  obtain ⟨actor, id, cs', l₁, l₂, rfl, ⟨rec₁, hr, rfl, -⟩, hl⟩ := h
  obtain ⟨⟨cs, rec₂, hr', hid, -⟩, hd⟩ := hP l₂ hl
  cases hr.symm.trans hr'
  exact ⟨actor, purpose, r, l₁, l₂, by rw [hid], hp, hd⟩

theorem At.pair (h : At s g i 1 P w₀ w) (hs : s.WellFormed) (hm : Mine s i actor r w.log)
    (hf : Keeps f) :
    ∃ old, w.store.object r = some old ∧
      At s g i 2 (fun l => P l ∧ Detailed i r (f old) l) w₀ (w.assign r (.paired i actor r) f) := by
  obtain ⟨old, hr, hc, hmay⟩ := hm.object h.tracks.toTracks
  have hw : w.assign r (.paired i actor r) f =
      ⟨w.store.modify r f, .paired i actor r (f old) :: w.log⟩ := by
    simp only [World.assign, hr]
  rw [hw]
  have ht := h.tracks.write (e := .paired i actor r (f old)) ⟨⟨old, hc, hmay,
    hf.normal (h.tracks.normal hs hr), hf.id old, hf.codes_eq old⟩, h.undetailed⟩ rfl hr rfl
  exact ⟨old, hr, (h.step ht rfl rfl (by omega) (Nat.le_refl 2)).learn (.detailed s i r (f old))
    ⟨_, List.mem_cons_self, rfl, rfl⟩⟩

theorem At.noPut (h : At s g i 2 P w₀ w) : ∀ a p k q, .put i a p k q ∉ w.log :=
  fun _ _ _ _ => h.notYet rfl (Nat.lt_succ_self 2)

theorem Persistent.wrote (s : Store) (i : Nat) (rec : StoreRecord) : Persistent s (Wrote i rec) :=
  fun l₁ _ _ h => h.longer l₁

/-- The write of `putSubmission`, once the guards have let the record through. -/
theorem At.store (r : Nat) (actor : Actor) (purpose : Purpose) (h : At s g i 2 P w₀ w)
    (hb : ∀ l, P l → ∃ id cs, Coded s r id cs l ∧
      (purpose = .create ∨ ∃ q, Held s i id cs q l ∧ actor.mayChange cs))
    (hd : ∀ l, P l → purpose ≠ .keep → ∃ rec, Detailed i r rec l) :
    Sat (ServeRely s g i) (ServeGuarantee s g i)
      (fun _ => At s g i 3 fun l => P l ∧ Stored s i purpose r P l) (Ends s g i)
      (do
        let _ ← Async.wait
        Async.update (World.putObject i actor purpose r)
        let _ ← awaiting Server.persist) w₀ w := by
  refine h.wait.seq fun a t₀ t ht => ?_
  obtain ⟨id, cs, ⟨rec, hc, rfl, hcodes⟩, hbase⟩ := hb t.log ht.known
  have hr := (ht.tracks.objects r).trans hc
  have hlog : (t.putObject i actor purpose r).log = .put i actor purpose rec.id r :: t.log := by
    simp only [World.putObject, hr]
  have hcoded : Coded s r rec.id cs t.log := ⟨rec, hc, rfl, hcodes⟩
  have hdetailed (hp : purpose ≠ .keep) : ∃ e ∈ t.log, e.detailed = some (i, r) := by
    obtain ⟨_, e, he, hd, -⟩ := hd t.log ht.known hp
    exact ⟨e, he, hd⟩
  have ht' := ht.tracks.put hr ⟨ht.noPut, ⟨cs, hcoded, hbase⟩, hdetailed⟩
  have hu := (ht.step ht' hlog rfl (by omega) (Nat.le_refl 3)).learn
    (.stored s i purpose r P) ⟨actor, rec.id, cs, [], t.log, hlog, hcoded, ht.known⟩
  exact (awaits (hu.persist (by omega))).seq fun _ _ _ hv => hv

theorem At.putSubmission {purpose : Purpose} (h : At s g i 2 P w₀ w) (hs : s.WellFormed)
    (hp : purpose.submits = false) (hm : ∀ l, P l → Mine s i actor r l)
    (hd : ∀ l, P l → purpose ≠ .keep → ∃ rec, Detailed i r rec l) :
    Sat (ServeRely s g i) (ServeGuarantee s g i)
      (fun _ => At s g i 3 fun l => P l ∧ Stored s i purpose r P l) (Ends s g i)
      (putSubmission i actor purpose r) w₀ w := by
  have hw : w.normalise i purpose r = w := by
    have hl : (w.normalise i purpose r).log = w.log := by
      simp only [World.normalise, hp]
      split
      · next heq => cases heq
      · rfl
    exact congrArg₂ World.mk (h.tracks.normalise hs r) hl
  unfold Server.putSubmission
  simp only [sat_bind, sat_update, sat_read, hw]
  cases hg : (w.store.object r).map StoreRecord.guard with
  | none => exact h.throw (by omega) _
  | some g =>
    cases g with
    | error e => exact h.throw (by omega) e
    | ok u =>
      have hst := h.store r actor purpose (fun l hl => ?_) hd
      · simpa only [sat_bind, sat_update] using hst
      · obtain ⟨id, cs, hheld, hmay⟩ := hm l hl
        exact ⟨id, cs, hheld.2, .inr ⟨r, hheld, hmay⟩⟩

theorem Persistent.coded (s : Store) (r : Nat) (id : String) (cs : List String) :
    Persistent s (Coded s r id cs) := fun _ _ hl h => h.mono hl

theorem modify_append_last (l : List StoreRecord) (x : StoreRecord) (f : StoreRecord → StoreRecord) :
    (l ++ [x]).modify l.length f = l ++ [f x] := by
  induction l with
  | nil => rfl
  | cons y l ih => exact congrArg (y :: ·) ih

theorem At.putNew {purpose : Purpose} (h : At s g i 1 P w₀ w) (hp : purpose.submits = true)
    (hb : purpose = .create ∨ ∃ q, ∀ l, P l →
      Held s i rec.id (normaliseSubmission rec).codes q l ∧
      actor.mayChange (normaliseSubmission rec).codes) :
    Sat (ServeRely s g i) (ServeGuarantee s g i)
      (fun _ => At s g i 3 (Wrote i (normaliseSubmission rec))) (Ends s g i)
      (Server.putSubmission i actor purpose w.store.objects.length) w₀
      { w with store.objects := w.store.objects ++ [rec] } := by
  let r := w.store.objects.length
  let w' : World Event := ⟨{ w.store with objects := w.store.objects ++ [normaliseSubmission rec] },
    .made i r (normaliseSubmission rec) :: w.log⟩
  have hlast : ({ w.store with objects := w.store.objects ++ [rec] } : Store).object r = some rec := by
    simp [Store.object, r]
  have hw : World.normalise i purpose r
      { w with store.objects := w.store.objects ++ [rec] } = w' := by
    simp only [World.normalise, hlast, hp, Store.modify]
    rw [modify_append_last]
  have hnone : content s r w.log = none := by
    rw [← h.tracks.objects, Store.object]
    exact List.getElem?_eq_none (Nat.le_refl _)
  have ht : Tracks s w' := h.tracks.make (normaliseSubmission rec)
    ⟨hnone, normal_normalise rec, h.undetailed⟩
  have hat := (h.step (u := w') ht rfl rfl (by omega) (Nat.le_refl 2)).learn
    ((Persistent.coded s r rec.id (normaliseSubmission rec).codes).and
      (.detailed s i r (normaliseSubmission rec)))
    ⟨⟨normaliseSubmission rec, by simp [w', content, Event.written], rfl, rfl⟩,
      _, List.mem_cons_self, rfl, rfl⟩
  have hlast' : w'.store.object r = some (normaliseSubmission rec) := by
    simp [w', Store.object, r]
  unfold Server.putSubmission
  simp only [sat_bind, sat_update, sat_read]
  rw [hw, hlast']
  cases hg : (normaliseSubmission rec).guard with
  | error e => simpa only [Option.map_some, hg] using hat.throw (by omega) e
  | ok u =>
    have hst := hat.store r actor purpose (fun l hl => ?_)
      fun l hl _ => ⟨_, hl.2.2⟩
    · simp only [Option.map_some, hg]
      refine Sat.mono (by simpa only [sat_bind, sat_update] using hst) (fun _ _ _ hx => ?_)
        fun _ _ _ he => he
      refine hx.weaken (Nat.le_refl 3) (.wrote s i _) fun hl => ?_
      refine hl.2.wrote (fun hk => ?_) fun l hl => ⟨⟨_, hl.2.1⟩, hl.2.2⟩
      rw [hk] at hp
      cases hp
    · refine ⟨rec.id, _, hl.2.1, hb.imp_right fun hb => ?_⟩
      obtain ⟨q, hq⟩ := hb
      exact ⟨q, hq l hl.1⟩

theorem At.deleteSubmission (h : At s g i n P w₀ w) (hn : n ≤ 2) (id : Option Json)
    (hm : ∀ k, propertyKey id = .ok k → ∀ l, P l →
      actor = .maintainer ∨ ∃ r cs, Held s i k cs r l ∧ actor.mayChange cs) :
    Sat (ServeRely s g i) (ServeGuarantee s g i)
      (fun _ => At s g i 3 fun l => P l ∧ ∃ k, propertyKey id = .ok k ∧ .cleared i k ∈ l) (Ends s g i)
      (deleteSubmission i actor id) w₀ w := by
  have hP : Persistent s fun l => ∃ k, propertyKey id = .ok k ∧ .cleared i k ∈ l := by
    intro l₁ l₂ _ h
    obtain ⟨k, hk, h⟩ := h
    exact ⟨k, hk, List.mem_append_right _ h⟩
  unfold Server.deleteSubmission
  refine h.wait.seq fun a t₀ t ht => ?_
  refine (ht.ofExcept (by omega) _).seq fun k u₀ u hu => ?_
  obtain ⟨hk, hu⟩ := hu
  simp only [sat_bind, sat_updateGet, World.change]
  obtain ⟨r, hf, hr⟩ | hf := Table.find_cases u.store.prototype u.store.submissions k
  · have hr := (hu.tracks.slots k).symm.trans hr
    have ht' := hu.tracks.delete (i := i) actor k
      ⟨by rw [hr]; exact Option.some_ne_none r, hm k hk u.log hu.known⟩
    have ht'' := ht'.note (e := .cleared i k) (by simp [Allowed, slot, Event.placed]) rfl rfl
    have hv := ((hu.step ht' rfl rfl (by omega) (Nat.le_refl 3)).step ht'' rfl rfl
      (Nat.le_refl 3) (Nat.le_refl 3)).learn hP ⟨k, hk, List.mem_cons_self⟩
    simp only [hf]
    exact (awaits (hv.persist (by omega))).seq fun _ _ _ hx => hx
  · have hnone : u.store.submissions.get k = none := hf.elim (·.2) (·.2)
    have hv : At s g i n P u₀ ⟨u.store.deleteSubmission k, u.log⟩ := by
      refine hu.aside rfl (fun id => ?_) rfl
      simp only [Store.deleteSubmission, Table.get_delete]
      split
      · next he => rw [he, hnone]
      · rfl
    have ht' := hv.tracks.note (e := .cleared i k) ((hu.tracks.slots k).symm.trans hnone) rfl rfl
    have hx := (hv.step ht' rfl rfl (by omega) (Nat.le_refl 3)).learn hP
      ⟨k, hk, List.mem_cons_self⟩
    obtain ⟨hf, -⟩ | ⟨hf, -⟩ := hf
    · simp only [hf]
      exact (awaits (hx.persist (by omega))).seq fun _ _ _ hy => hy
    · simp only [hf]
      exact hx

/-- The submission `id` was in the store after the rebuild of request `i` had started. -/
def Publishable (s : Store) (i : Nat) (id : String) (l : List Event) : Prop :=
  ∃ l₁ l₂, l = l₁ ++ l₂ ∧ .rebuilding i ∈ l₂ ∧ slot s id l₂ ≠ none

theorem Publishable.mono {l₁ l₂ : List Event} (h : Publishable s i id l₂) :
    Publishable s i id (l₁ ++ l₂) := by
  obtain ⟨l₃, l₄, rfl, h⟩ := h
  exact ⟨l₁ ++ l₃, l₄, (List.append_assoc ..).symm, h⟩

theorem At.listPublishable (h : At s g i n P w₀ w) (hs : s.WellFormed)
    (hP : ∀ l, P l → .rebuilding i ∈ l) : Sat (ServeRely s g i) (ServeGuarantee s g i)
      (fun refs => At s g i n fun l => P l ∧
        ∀ r ∈ refs, ∃ id cs, Coded s r id cs l ∧ Publishable s i id l) (Ends s g i)
      (Server.listSubmissions i false) w₀ w := by
  unfold Server.listSubmissions
  refine h.wait.seq fun a t₀ t ht => ?_
  have hu := ht.aside (u := (t.change (fun s => (s.submissions.entries, s)) fun _ => []).2) rfl
    (fun _ => rfl) rfl
  refine hu.learn ?_ fun r hr => ?_
  · intro l₁ l₂ hl h r hr
    obtain ⟨id, cs, hc, hpub⟩ := h r hr
    exact ⟨id, cs, hc.mono hl, hpub.mono⟩
  · obtain ⟨x, hx, rfl⟩ := List.mem_map.1 hr
    have hslot := (ht.tracks.slots x.1).symm.trans (Table.get_of_mem hx)
    obtain ⟨rec, hr, hid⟩ := ht.tracks.legal.stored hs hslot
    exact ⟨x.1, rec.codes, ⟨rec, hr, hid, rfl⟩, [], t.log, rfl, hP _ ht.known,
      by rw [hslot]; exact Option.some_ne_none _⟩

theorem At.writeAtomic (h : At s g i n P w₀ w) (hn : n ≤ 4) :
    Sat (ServeRely s g i) (ServeGuarantee s g i) (fun _ => At s g i n P) (Ends s g i)
      rebuild.writeAtomic w₀ w := by
  unfold Server.rebuild.writeAtomic
  refine (h.fileOperation hn).seq fun _ _ _ h => ?_
  refine (h.fileOperation hn).seq fun _ _ _ h => ?_
  exact (h.fileOperation hn).seq fun _ _ _ h => h

theorem At.rebuild (h : At s g i n P w₀ w) (hs : s.WellFormed) (hn : n ≤ 4) :
    Sat (ServeRely s g i) (ServeGuarantee s g i) (fun _ => At s g i 4 fun _ => True) (Ends s g i)
      (rebuild i) w₀ w := by
  have hle := Nat.le_refl 4
  unfold Server.rebuild
  simp only [sat_bind (p := Async.update _), sat_update]
  have h := (h.step (u := w.emit (.rebuilding i)) (h.tracks.note trivial rfl rfl) rfl rfl hn
    hle).learn (.mem s (.rebuilding i)) List.mem_cons_self
  refine (awaits (h.fileOperation hle)).seq fun _ _ _ h => ?_
  refine (awaits (h.fileOperation hle)).seq fun _ _ _ h => ?_
  refine h.wait.seq fun _ _ _ h => ?_
  refine (awaits (h.listPublishable hs fun _ hl => hl.2)).seq fun x t₀ t h => ?_
  simp only [sat_bind (p := Async.read), sat_read]
  let ids := ((x.1.filterMap t.store.object).filter StoreRecord.published).map StoreRecord.id
  have hids : ∀ id ∈ ids, Publishable s i id t.log := by
    intro id hid
    obtain ⟨rec, hrec, rfl⟩ := List.mem_map.1 hid
    obtain ⟨r, hr, ho⟩ := List.mem_filterMap.1 (List.mem_filter.1 hrec).1
    obtain ⟨id, cs, ⟨rec', hc, rfl, -⟩, hpub⟩ := h.known.2 r hr
    have he := ho.symm.trans ((h.tracks.objects r).trans hc)
    cases he
    exact hpub
  have h := h.weaken hle (Q := fun l => ∀ id ∈ ids, Publishable s i id l)
    (fun _ _ _ hl id hid => (hl id hid).mono) fun _ => hids
  refine (awaits (h.fileOperation hle)).seq fun _ _ _ h => ?_
  refine (awaits (h.fileOperation hle)).seq fun _ _ _ h => ?_
  refine (awaits h.wait).seq fun _ _ _ h => ?_
  refine (awaits h.wait).seq fun _ _ _ h => ?_
  refine (awaits (h.writeAtomic hle)).seq fun _ u₀ u h => ?_
  simp only [sat_bind (p := Async.update _), sat_update]
  have h := h.step (u := u.emit (.published i ids)) (h.tracks.note h.known rfl rfl) rfl rfl hle hle
  refine (awaits (h.fileOperation hle)).seq fun _ _ _ h => ?_
  refine (awaits (h.writeAtomic hle)).seq fun _ _ _ h => ?_
  refine (awaits (h.fileOperation hle)).seq fun _ _ _ h => ?_
  exact (awaits (h.writeAtomic hle)).seq fun _ _ _ h => h.ends hle ()

theorem At.tryRebuild (h : At s g i n P w₀ w) (hs : s.WellFormed) (hn : n ≤ 4) :
    Sat (ServeRely s g i) (ServeGuarantee s g i) (fun _ => At s g i 4 fun _ => True) (Ends s g i)
      (tryRebuild i) w₀ w := by
  have hb : Sat (ServeRely s g i) (ServeGuarantee s g i) (fun _ => At s g i 4 fun _ => True) (Ends s g i)
      (do let _ ← awaiting (Server.rebuild i)) w₀ w :=
    (awaits (h.rebuild hs hn)).seq fun _ _ _ h => h
  unfold Server.tryRebuild
  rw [sat_tryCatch]
  exact hb.mono (fun _ _ _ h => h) fun _ _ _ h => h

end Operations

end Mise.Server
