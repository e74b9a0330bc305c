import Mise.Server.Publication
import Mise.Server.Serve

set_option autoImplicit true

namespace Mise.Server

open Js Async

section View

/-- The name under which a record is listed. -/
def StoreRecord.title (rec : StoreRecord) : String :=
  (present rec.name <|> present rec.paynym).getD rec.id

/-- What the list says of a record that it shows: the name and the payload. -/
def StoreRecord.shown (rec : StoreRecord) : Option (String × Option Json) :=
  if rec.published then some (rec.title, rec.raw.get "payload") else none

/-- The list has exactly the seed nodes and the approved records that have a payment code and a
signed block, each of these with its name and payload. -/
structure Agrees (S : Instance) (s : Store) (nodes : List PublicNode) : Prop where
  ids : ∀ id, id ∈ nodes.map PublicNode.id ↔
    id ∈ S.seedNodes.map RawRecord.id ∨ ∃ rec ∈ s.listed, rec.published ∧ some rec.id = id
  records : ∀ rec ∈ s.listed, rec.published → ∀ n ∈ nodes, n.id = some rec.id →
    n.name = some (.str rec.title) ∧ n.payload = rec.raw.get "payload"

/-- A store as a load leaves it: each of its objects is stored. -/
structure Store.Loaded (s : Store) : Prop extends s.WellFormed where
  only : ∀ r rec, s.object r = some rec → s.submissions.get rec.id = some r

variable (s : Store)

/-- What there is to show of the object `r`. -/
def shown (l : List Event) (r : Nat) : Option (String × Option Json) :=
  (content s r l).bind StoreRecord.shown

/-- What there is to show under each id, and of each object. -/
def view (l : List Event) : (String → Option (String × Option Json)) ×
    (Nat → Option (String × Option Json)) :=
  (fun id => (slot s id l).bind (shown s l), shown s l)

/-- What a list says of the submissions. -/
def Publication.shows (p : Publication) (id : String) : Option (String × Option Json) :=
  (slot s id p.listed).bind (shown s p.read)

/-- A list is written over one that was read later only where both say the same; newest first. -/
def InOrder (l : List Publication) : Prop :=
  l.Pairwise fun p q => p.listed.length < q.listed.length → p.shows s = q.shows s

/-- A request that fails has changed nothing that there is to show. -/
def Harmless (l : List Event) : Prop :=
  ∀ i l', .answered i 500 :: l' <:+ l → ∀ e l'', e :: l'' <:+ l' → e.request = i →
    view s (e :: l'') = view s l''

variable {s} {e : Event} {l : List Event} {rec : StoreRecord}

theorem view_written (hp : e.placed = none) (hw : shown s (e :: l) = shown s l) :
    view s (e :: l) = view s l := by
  have hslot : ∀ id, slot s id (e :: l) = slot s id l := fun id => slot_note hp
  simp only [view, hslot, hw]

theorem view_note (hp : e.placed = none) (hw : e.written = none) : view s (e :: l) = view s l :=
  view_written hp (funext fun r => by rw [shown, shown, content_note hw])

/-- Writing an object does not change what there is to show of the others. -/
theorem shown_write {old : StoreRecord} (hw : e.written = some (r, rec))
    (hr : content s r l = some old) (hf : rec.shown = old.shown) : shown s (e :: l) = shown s l := by
  funext q
  rw [shown, shown, content, hw]
  by_cases hq : r = q
  · subst hq
    simp only [if_true, Option.bind_some, hr, hf]
  · simp only [hq, if_false]

theorem shown_self (hw : e.written = some (r, rec)) : shown s (e :: l) r = rec.shown := by
  rw [shown, content, hw]
  simp only [if_true, Option.bind_some]

theorem shown_eq_none : rec.shown = none ↔ rec.published = false := by
  unfold StoreRecord.shown
  split <;> simp_all

end View

section Logs

variable {s : Store} {i : Nat} {l : List Event}

/-- Every event of request `i` satisfies `Q` of the history that it was added to. -/
def Each (i : Nat) (Q : List Event → Event → Prop) (l : List Event) : Prop :=
  ∀ e l', e :: l' <:+ l → e.request = i → Q l' e

/-- A change by request `i` of what there is to show has been changed again. -/
def Settled (s : Store) (i : Nat) (l : List Event) : Prop :=
  ∀ e l', e :: l' <:+ l → e.request = i → view s (e :: l') ≠ view s l' →
    ∃ l'', e :: l' <:+ l'' ∧ l'' <:+ l ∧ view s l'' ≠ view s (e :: l')

theorem cons_suffix_append {e : Event} {l' l₁ l₂ : List Event} (h : e :: l' <:+ l₁ ++ l₂) :
    e ∈ l₁ ∨ e :: l' <:+ l₂ := by
  induction l₁ with
  | nil => exact .inr h
  | cons x l₁ ih =>
    obtain h | h := List.suffix_cons_iff.1 h
    · cases h
      exact .inl List.mem_cons_self
    · exact (ih h).imp (List.mem_cons_of_mem x) fun h => h

theorem Each.append {Q : List Event → Event → Prop} (h : Each i Q l₂)
    (hl : ∀ e ∈ l₁, e.request ≠ i) : Each i Q (l₁ ++ l₂) := by
  intro e l' hs hi
  obtain he | hs := cons_suffix_append hs
  · exact absurd hi (hl e he)
  · exact h e l' hs hi

theorem Each.cons {Q : List Event → Event → Prop} (h : Each i Q l) (hQ : e.request = i → Q l e) :
    Each i Q (e :: l) := by
  intro e' l' hs hi
  obtain hs | hs := List.suffix_cons_iff.1 hs
  · cases hs
    exact hQ hi
  · exact h e' l' hs hi

theorem Settled.append (h : Settled s i l₂) (hl : ∀ e ∈ l₁, e.request ≠ i) :
    Settled s i (l₁ ++ l₂) := by
  intro e l' hs hi hv
  obtain he | hs := cons_suffix_append hs
  · exact absurd hi (hl e he)
  · obtain ⟨l'', h₁, h₂, hne⟩ := h e l' hs hi hv
    exact ⟨l'', h₁, h₂.trans (List.suffix_append l₁ l₂), hne⟩

theorem Settled.of_idle (h : Each i (fun l e => view s (e :: l) = view s l) l) : Settled s i l :=
  fun e l' hs hi hv => absurd (h e l' hs hi) hv

theorem Settled.of_hidden (h : Each i (fun l e => shown s (e :: l) r = none →
    view s (e :: l) = view s l) l) (hr : shown s l r = none) : Settled s i l := by
  intro e l' hs hi hv
  refine ⟨l, hs, List.suffix_rfl, fun hl => hv (h e l' hs hi ?_)⟩
  rw [← hr]
  exact (congrFun (congrArg Prod.snd hl) r).symm

theorem last_change (f : List α → β) (l : List α) :
    (∀ l', l' <:+ l → f l' = f l) ∨
    ∃ e l', e :: l' <:+ l ∧ f (e :: l') ≠ f l' ∧ ∀ l'', e :: l' <:+ l'' → l'' <:+ l → f l'' = f l := by
  induction l with
  | nil => exact .inl fun l' h => by rw [List.suffix_nil.1 h]
  | cons a l ih =>
    by_cases ha : f (a :: l) = f l
    · obtain h | ⟨e, l', hs, hne, h⟩ := ih
      · refine .inl fun l' hs => ?_
        obtain rfl | hs := List.suffix_cons_iff.1 hs
        · rfl
        · rw [h l' hs, ha]
      · refine .inr ⟨e, l', hs.trans (List.suffix_cons a l), hne, fun l'' h₁ h₂ => ?_⟩
        obtain rfl | h₂ := List.suffix_cons_iff.1 h₂
        · rfl
        · rw [h l'' h₁ h₂, ha]
    · refine .inr ⟨a, l, List.suffix_rfl, ha, fun l'' h₁ h₂ => ?_⟩
      rw [h₁.eq_of_length_le h₂.length_le]

end Logs

section Changes

/-- The request that has done it. -/
def requestOf (e : Event) : Option Nat := some e.request

/-- The listings are what the history says, and each id has one object at most. -/
structure Mirrors (s : Store) (w : World Event) : Prop extends Replays s w where
  kept : ∀ r rec, content s r w.log = some rec →
    Normal rec ∧ ∃ old, s.object r = some old ∧ old.id = rec.id
  placed : ∀ id r, slot s id w.log = some r → s.submissions.get id = some r

variable {s : Store} {i : Nat} {P : List Event → Prop} {K : α → Prop} {w₀ w w' : World Event}
  {Q : List Event → Event → Prop} {rec : StoreRecord} {actor : Actor}

theorem Mirrors.start (hs : s.Loaded) : Mirrors s ⟨s, []⟩ where
  toReplays := .start s
  kept r rec h := ⟨hs.normal r rec h, rec, h, rfl⟩
  placed _ _ h := h

theorem Mirrors.aside (h : Mirrors s w) (hl : w'.log = w.log)
    (hs : ∀ id, w'.store.submissions.get id = w.store.submissions.get id)
    (ho : w'.store.objects = w.store.objects) : Mirrors s w' where
  toReplays := h.toReplays.aside hl hs ho
  kept := hl ▸ h.kept
  placed := hl ▸ h.placed

theorem Mirrors.note (h : Mirrors s w) (hp : e.placed = none) (hw : e.written = none) :
    Mirrors s ⟨w.store, e :: w.log⟩ where
  toReplays := h.toReplays.note hp hw
  kept r rec hr := h.kept r rec (content_note hw ▸ hr)
  placed id r hr := h.placed id r (slot_note hp ▸ hr)

theorem Mirrors.normalise (h : Mirrors s w) (r : Nat) :
    w.store.modify r normaliseSubmission = w.store :=
  Store.modify_normal fun rec hr => (h.kept r rec ((h.objects r).symm.trans hr)).1

theorem Mirrors.only (h : Mirrors s w) (hs : s.Loaded) (hr : content s r w.log = some rec)
    (hq : slot s rec.id w.log = some q) : q = r := by
  obtain ⟨-, old, ho, hid⟩ := h.kept r rec hr
  have hget := hs.only r old ho
  rw [hid, h.placed rec.id q hq] at hget
  exact Option.some.inj hget

theorem Mirrors.assign (h : Mirrors s w) (hf : Keeps f) (hr : w.store.object r = some rec) :
    Mirrors s ⟨w.store.modify r f, .changed i actor r (f rec) :: w.log⟩ where
  toReplays := h.toReplays.write rfl hr rfl
  kept q rec' hq := by
    rw [content] at hq
    by_cases he : r = q
    · subst he
      simp only [Event.written, if_true, Option.some.injEq] at hq
      obtain ⟨hn, old, ho, hid⟩ := h.kept r rec ((h.objects r).symm.trans hr)
      subst hq
      exact ⟨hf.normal hn, old, ho, hid.trans (hf.id rec).symm⟩
    · simp only [Event.written, he, if_false] at hq
      exact h.kept q rec' hq
  placed id q hq := h.placed id q hq

theorem Mirrors.put (h : Mirrors s w) (hs : s.Loaded) (hr : w.store.object r = some rec) :
    Mirrors s (w.putObject i actor purpose r) := by
  have hl : (w.putObject i actor purpose r).log = .put i actor purpose rec.id r :: w.log := by
    simp only [World.putObject, hr]
  refine ⟨h.toReplays.put hr, ?_, ?_⟩
  · rw [hl]
    exact h.kept
  · rw [hl]
    intro id q hq
    rw [slot] at hq
    by_cases he : rec.id = id
    · simp only [Event.placed, he, if_true, Option.some.injEq] at hq
      obtain ⟨-, old, ho, hid⟩ := h.kept r rec ((h.objects r).symm.trans hr)
      rw [← he, ← hid, ← hq]
      exact hs.only r old ho
    · simp only [Event.placed, he, if_false] at hq
      exact h.placed id q hq

theorem Mirrors.delete (h : Mirrors s w) (i : Nat) (actor : Actor) (id : String) :
    Mirrors s ⟨w.store.deleteSubmission id, .deleted i actor id :: w.log⟩ where
  toReplays := h.toReplays.delete
  kept := h.kept
  placed k q hq := by
    rw [slot] at hq
    by_cases he : id = k
    · simp only [Event.placed, he, if_true, reduceCtorEq] at hq
    · simp only [Event.placed, he, if_false] at hq
      exact h.placed k q hq

/-- A call of request `i` that keeps what the request knows of the history. -/
abbrev Runs (s : Store) (i : Nat) (P : List Event → Prop) (p : Action Event α) : Prop :=
  Owned.Yields World.log requestOf (Mirrors s) i P (fun _ => True) p

/-- What request `i` knows of the history, in a segment that began in the world `w₀`. -/
abbrev Aware (s : Store) (i : Nat) (P : List Event → Prop) (w₀ w : World Event) : Prop :=
  Owned.Knows World.log requestOf (Mirrors s) i P w₀ w

theorem request_ne {l : List Event} (h : ∀ e ∈ l, requestOf e ≠ some i) : ∀ e ∈ l, e.request ≠ i :=
  fun e he hi => h e he (congrArg some hi)

theorem stable_each (i : Nat) (Q : List Event → Event → Prop) :
    Owned.Stable requestOf i (Each i Q) :=
  fun _ _ hl h => h.append (request_ne hl)

theorem aware_aside (h : Aware s i P w₀ w) (hl : w'.log = w.log)
    (hs : ∀ id, w'.store.submissions.get id = w.store.submissions.get id)
    (ho : w'.store.objects = w.store.objects) : Aware s i P w₀ w' :=
  h.step ⟨⟨[], hl, fun _ he => absurd he List.not_mem_nil⟩, fun hm => hm.aside hl hs ho⟩ h.stable (hl ▸ h.known)

theorem aware_step (h : Aware s i (Each i Q) w₀ w) (hl : w'.log = e :: w.log)
    (hm : Mirrors s w') (hi : e.request = i) (hQ : Q w.log e) : Aware s i (Each i Q) w₀ w' := by
  refine h.step ⟨⟨[e], hl, ?_⟩, fun _ => hm⟩ h.stable (hl ▸ h.known.cons fun _ => hQ)
  intro e' he j hj
  obtain rfl := List.mem_singleton.1 he
  exact (Option.some.inj hj).symm.trans hi

theorem runs_pure (a : α) : Runs s i P (Pure.pure a) := .pure trivial

theorem runs_awaiting {p : Action Event α} (h : Runs s i P p) : Runs s i P (awaiting p) :=
  h.bind fun _ _ => Owned.Yields.wait.bind fun _ _ => runs_pure _

theorem runs_persist : Runs s i P (persist : Action Event Unit) := by
  refine Owned.Yields.wait.bind fun a _ => ?_
  cases ha : a.ok with
  | false => exact .throw _
  | true =>
    refine Owned.Yields.wait.bind fun b _ => ?_
    cases hb : b.ok with
    | false => exact .throw _
    | true => exact runs_pure ()

theorem runs_ofExcept (x : Except Throw α) : Runs s i P (ofExcept x) := by
  cases x with
  | ok y => exact runs_pure _
  | error e =>
    cases e
    exact .throw _

theorem runs_readObject (r : Nat) : Runs s i P (readObject r) := by
  refine Owned.Yields.read.bind fun w _ => ?_
  split
  · exact runs_pure _
  · exact .throw _

theorem getSession_listings (st : Store) (id : String) (now : Int) :
    (st.getSession id now).2.submissions = st.submissions ∧
      (st.getSession id now).2.objects = st.objects := by
  unfold Store.getSession
  split
  · exact ⟨rfl, rfl⟩
  · split
    · split <;> exact ⟨rfl, rfl⟩
    · exact ⟨rfl, rfl⟩

theorem runs_getSession (id : String) : Runs s i P (getSession id) := by
  unfold getSession
  split
  · exact runs_pure _
  · refine Owned.Yields.wait.bind fun a _ => ?_
    refine Owned.Yields.read.bind fun w _ => ?_
    have hstep : ∀ w₀ w, Aware s i P w₀ w →
        Aware s i P w₀ (w.change (Store.getSession id a.clock) fun _ => []).2 := by
      intro w₀ w h
      obtain ⟨hsub, hobj⟩ := getSession_listings w.store id a.clock
      exact aware_aside h rfl (fun k => congrArg (Table.get · k) hsub) hobj
    refine (Owned.Yields.updateGet hstep).bind fun sess _ => ?_
    dsimp only
    split
    · exact (runs_awaiting runs_persist).bind fun _ _ => runs_pure _
    · exact runs_pure _

theorem runs_sessionFrom (sid : String) : Runs s i P (sessionFrom sid) := by
  unfold sessionFrom
  split
  · exact runs_pure _
  · refine (runs_awaiting (runs_getSession sid)).bind fun x _ => ?_
    obtain ⟨sess, a⟩ := x
    cases sess <;> exact runs_pure _

theorem runs_adminFrom (g : Gates) (sid : String) : Runs s i P (adminFrom g sid) := by
  refine (runs_awaiting (runs_sessionFrom sid)).bind fun x _ => ?_
  obtain ⟨pc, a⟩ := x
  cases pc with
  | none => exact runs_pure _
  | some pc =>
    dsimp only
    split <;> exact runs_pure _

theorem runs_adminBody (g : Gates) (sid : String) (body : Option Json) :
    Runs s i P (adminBody g sid body) := by
  refine (runs_awaiting (runs_adminFrom g sid)).bind fun x _ => ?_
  obtain ⟨refusal, a⟩ := x
  cases refusal with
  | some r => exact runs_pure _
  | none =>
    refine Owned.Yields.wait.bind fun _ _ => ?_
    cases body <;> exact runs_pure _

theorem runs_operatorBody (sid : String) (body : Option Json) :
    Runs s i P (operatorBody sid body) := by
  refine (runs_awaiting (runs_sessionFrom sid)).bind fun x _ => ?_
  obtain ⟨pc, a⟩ := x
  cases pc with
  | none => exact runs_pure _
  | some pc =>
    refine Owned.Yields.wait.bind fun _ _ => ?_
    cases body <;> exact runs_pure _

theorem runs_givenName (body : Json) : Runs s i P (givenName body) :=
  .bind (runs_ofExcept _) fun _ _ => .bind (runs_ofExcept _) fun _ _ => runs_pure _

theorem runs_listSubmissions : Runs s i P (listSubmissions i false) := by
  refine Owned.Yields.wait.bind fun _ _ => ?_
  refine .bind (Owned.Yields.updateGet fun w₀ w h => ?_) fun _ _ => runs_pure _
  exact aware_aside h rfl (fun _ => rfl) rfl

theorem runs_slugTakenByOther (network : Network) (slug excludeId : String) :
    Runs s i P (slugTakenByOther i network slug excludeId) := by
  refine (runs_awaiting runs_listSubmissions).bind fun x _ => ?_
  refine Owned.Yields.read.bind fun w _ => ?_
  split
  · exact runs_pure _
  · refine (runs_awaiting (Owned.Yields.wait.bind fun _ _ => runs_pure _)).bind fun _ _ => ?_
    exact runs_pure _

theorem runs_getSubmission (hQ : ∀ l e, e.placed = none → e.written = none → Q l e)
    (id : Option Json) : Runs s i (Each i Q) (getSubmission i id) := by
  refine Owned.Yields.wait.bind fun _ _ => (runs_ofExcept _).bind fun k _ => ?_
  refine Owned.Yields.updateGet fun w₀ w h => ?_
  simp only [World.change, Store.getSubmission]
  obtain ⟨r, hf, -⟩ | ⟨hf, -⟩ | ⟨hf, -⟩ := Table.find_cases w.store.prototype w.store.submissions k
  · simp only [hf, h.inv.normalise]
    exact aware_step h rfl (h.inv.note rfl rfl) rfl (hQ _ _ rfl rfl)
  · simp only [hf]
    refine aware_aside h rfl (fun id => ?_) ?_
    · split <;> rfl
    · split <;> rfl
  · simp only [hf]
    exact aware_aside h rfl (fun _ => rfl) rfl

theorem runs_foundSubmission (hQ : ∀ l e, e.placed = none → e.written = none → Q l e)
    (body : Json) : Runs s i (Each i Q) (foundSubmission i body) := by
  have hget : Runs s i (Each i Q) (awaiting do getSubmission i (← ofExcept (body.get "id"))) :=
    runs_awaiting ((runs_ofExcept _).bind fun _ _ => runs_getSubmission hQ _)
  refine hget.bind fun x _ => ?_
  obtain ⟨found, a⟩ := x
  cases found with
  | own r => exact runs_pure _
  | inherited => exact .throw _
  | absent => exact runs_pure _

theorem runs_ownedSubmission (hQ : ∀ l e, e.placed = none → e.written = none → Q l e)
    (pc : Option String) (body : Json) : Runs s i (Each i Q) (ownedSubmission i pc body) := by
  have hget : Runs s i (Each i Q) (awaiting do getSubmission i (← ofExcept (body.get "id"))) :=
    runs_awaiting ((runs_ofExcept _).bind fun _ _ => runs_getSubmission hQ _)
  refine hget.bind fun x _ => ?_
  obtain ⟨found, a⟩ := x
  cases found with
  | own r => exact (runs_readObject r).bind fun _ _ => runs_pure _
  | inherited => exact runs_pure _
  | absent => exact runs_pure _

theorem aware_assign {f : StoreRecord → StoreRecord} (r : Nat) (actor : Actor)
    (h : Aware s i (Each i Q) w₀ w) (hf : Keeps f)
    (hQ : ∀ rec, content s r w.log = some rec → Q w.log (.changed i actor r (f rec))) :
    Aware s i (Each i Q) w₀ (w.assign r (.changed i actor r) f) := by
  cases hr : w.store.object r with
  | none =>
    have hl : (w.assign r (.changed i actor r) f).log = w.log := by
      simp only [World.assign, hr]
    refine aware_aside h hl (fun _ => rfl) ?_
    exact List.modify_eq_self (List.getElem?_eq_none_iff.1 hr)
  | some rec =>
    have hw : w.assign r (.changed i actor r) f =
        ⟨w.store.modify r f, .changed i actor r (f rec) :: w.log⟩ := by
      simp only [World.assign, hr]
    rw [hw]
    exact aware_step h rfl (h.inv.assign hf hr) rfl (hQ rec ((h.inv.objects r).symm.trans hr))

theorem aware_put (hs : s.Loaded) (h : Aware s i (Each i Q) w₀ w) (hr : w.store.object r = some rec)
    (hQ : Q w.log (.put i actor purpose rec.id r)) :
    Aware s i (Each i Q) w₀ (w.putObject i actor purpose r) := by
  have hl : (w.putObject i actor purpose r).log = .put i actor purpose rec.id r :: w.log := by
    simp only [World.putObject, hr]
  exact aware_step h hl (h.inv.put hs hr) rfl hQ

theorem runs_putSubmission (hs : s.Loaded)
    (hQ : ∀ w rec, Mirrors s w → content s r w.log = some rec →
      Q w.log (.put i actor .keep rec.id r)) :
    Runs s i (Each i Q) (putSubmission i actor .keep r) := by
  intro w₀ w h
  have hw : w.normalise i .keep r = w := by
    have hl : (w.normalise i .keep r).log = w.log := by
      simp only [World.normalise, Purpose.submits]
      split <;> simp_all
    exact congrArg₂ World.mk (h.inv.normalise r) hl
  unfold putSubmission
  simp only [sat_bind, sat_update, sat_read, hw]
  cases hg : (w.store.object r).map StoreRecord.guard with
  | none => exact Owned.Yields.throw _ w₀ w h
  | some guard =>
    cases guard with
    | error e => exact Owned.Yields.throw e w₀ w h
    | ok u =>
      dsimp only
      rw [sat_bind, sat_wait]
      refine ⟨h.steps, fun t hr _ => ?_⟩
      have ht := h.here.rely hr
      rw [sat_bind, sat_update]
      have hput : Aware s i (Each i Q) t (t.putObject i actor .keep r) := by
        cases hr : t.store.object r with
        | none =>
          have ht' : t.putObject i actor .keep r = t := by
            simp only [World.putObject, Store.putObject, hr]
          rw [ht']
          exact ht
        | some rec => exact aware_put hs ht hr (hQ t rec ht.inv ((ht.inv.objects r).symm.trans hr))
      exact (runs_awaiting runs_persist).bind (fun _ _ => runs_pure ()) t _ hput

theorem runs_deleteSubmission (hQ : ∀ l id, Q l (.deleted i actor id))
    (hc : ∀ l id, Q l (.cleared i id)) (id : Option Json) :
    Runs s i (Each i Q) (deleteSubmission i actor id) := by
  refine Owned.Yields.wait.bind fun _ _ => (runs_ofExcept _).bind fun k _ => ?_
  refine .bind (Owned.Yields.updateGet fun w₀ w h => ?_) fun found _ => ?_
  · simp only [World.change]
    obtain ⟨r, hf, -⟩ | hf := Table.find_cases w.store.prototype w.store.submissions k
    · have hdeleted := aware_step h rfl (h.inv.delete i actor k) rfl (hQ _ _)
      simp only [hf]
      exact aware_step hdeleted rfl (hdeleted.inv.note rfl rfl) rfl (hc _ _)
    · have hnone : w.store.deleteSubmission k = w.store := by
        have hget : w.store.submissions.get k = none := hf.elim (·.2) (·.2)
        rw [Store.deleteSubmission, Table.delete_of_none hget]
      have hcleared := aware_step h rfl (h.inv.note (e := .cleared i k) rfl rfl) rfl (hc _ _)
      obtain ⟨hf, -⟩ | ⟨hf, -⟩ := hf
      · simp only [hf, hnone]
        exact hcleared
      · simp only [hf, hnone]
        exact hcleared
  · cases found with
    | own r => exact (runs_awaiting runs_persist).bind fun _ _ => runs_pure ()
    | inherited => exact (runs_awaiting runs_persist).bind fun _ _ => runs_pure ()
    | absent => exact runs_pure ()

/-- The event changes nothing that there is to show. -/
abbrev Idle (s : Store) (l : List Event) (e : Event) : Prop := view s (e :: l) = view s l

/-- The event changes nothing that there is to show, if there is nothing to show of the object `r`
after it. -/
abbrev Only (s : Store) (r : Nat) (l : List Event) (e : Event) : Prop :=
  shown s (e :: l) r = none → view s (e :: l) = view s l

theorem only_changed {old : StoreRecord} {l : List Event} (hr : content s r l = some old)
    (hf : rec.published = old.published) : Only s r l (.changed i actor r rec) := by
  intro hnone
  rw [shown_self rfl, shown_eq_none, hf] at hnone
  refine view_written rfl (shown_write rfl hr ?_)
  rw [shown_eq_none.2 hnone, shown_eq_none, hf, hnone]

theorem only_put (hs : s.Loaded) (hm : Mirrors s w) (hr : content s r w.log = some rec) :
    Only s r w.log (.put i actor purpose rec.id r) := by
  intro hnone
  have hshown : shown s (.put i actor purpose rec.id r :: w.log) = shown s w.log :=
    funext fun q => by rw [shown, shown, content_note rfl]
  rw [hshown] at hnone
  refine Prod.ext (funext fun id => ?_) hshown
  simp only [view, hshown, slot, Event.placed]
  split
  · next hid =>
    subst hid
    rw [Option.bind_some, hnone]
    cases hq : slot s rec.id w.log with
    | none => rfl
    | some q =>
      rw [hm.only hs hr hq]
      exact hnone.symm
  · rfl

/-- What the change of a request knows at its end: where no rebuild follows, the request has left
nothing to be shown. -/
abbrev Changes (s : Store) (i : Nat) (p : Action Event (Option Response)) (w₀ w : World Event) : Prop :=
  Owned.Keeps World.log requestOf (Mirrors s) i
    (fun out => Aware s i fun l => out.isSome → Settled s i l) p w₀ w

theorem stable_outcome (out : Option Response) :
    Owned.Stable requestOf i fun l => out.isSome → Settled s i l :=
  fun _ _ hl h ho => (h ho).append (request_ne hl)

theorem changes_none (h : Aware s i P w₀ w) : Changes s i (Pure.pure none) w₀ w :=
  h.mono (stable_outcome none) fun _ ho => by cases ho

theorem changes_some (h : Aware s i (Each i (Idle s)) w₀ w) (r : Response) :
    Changes s i (Pure.pure (some r)) w₀ w :=
  h.mono (stable_outcome (some r)) fun hl _ => .of_idle hl

theorem changes_throw (h : Aware s i P w₀ w) (e : Fault) :
    Changes s i (MonadExcept.throw e) w₀ w := h.ends e

theorem Each.imp {Q' : List Event → Event → Prop} (h : Each i Q l) (hQ : ∀ l e, Q l e → Q' l e) :
    Each i Q' l := fun e l' hs hi => hQ l' e (h e l' hs hi)

theorem aware_imp {Q' : List Event → Event → Prop} (h : Aware s i (Each i Q) w₀ w)
    (hQ : ∀ l e, Q l e → Q' l e) : Aware s i (Each i Q') w₀ w :=
  h.mono (stable_each i Q') fun hl => hl.imp hQ

theorem runs_approvePaynym {given : Option Json} :
    Runs s i (Each i fun _ _ => True) (approve.paynym i r given) := by
  have hset : ∀ nym, Runs s i (Each i fun _ _ => True) (approve.setPaynym i r nym) :=
    fun nym w₀ w h => ⟨trivial, aware_assign _ _ h ⟨fun _ => rfl, fun _ => rfl, fun _ => rfl⟩
      fun _ _ => trivial⟩
  unfold approve.paynym
  split
  · split
    · exact hset _
    · exact .throw _
  · refine (runs_readObject r).bind fun rec _ => ?_
    split
    · refine Owned.Yields.wait.bind fun a _ => ?_
      split
      · exact hset _
      · exact runs_pure _
    · exact runs_pure _

theorem changes_approve (hs : s.Loaded) (g : Gates) (sid : String) (body : Option Json)
    (h : Aware s i (Each i (Idle s)) w₀ w) : Changes s i (approveChange g i sid body) w₀ w := by
  refine (runs_adminBody g sid body).seq h fun x t₀ t _ h => ?_
  cases x with
  | error r => exact changes_some h r
  | ok body =>
    refine (runs_foundSubmission (fun _ _ => view_note) body).seq h fun y u₀ u _ h => ?_
    obtain ⟨found, a⟩ := y
    cases found with
    | none => exact changes_some h _
    | some r =>
      have h : Aware s i (Each i fun _ _ => True) u₀ u := aware_imp h fun _ _ _ => trivial
      have h := aware_assign r .maintainer h
        (f := fun rec => { rec with status := .approved, updatedAt := .at a.clock })
        ⟨fun _ => rfl, fun _ => rfl, fun _ => rfl⟩ fun _ _ => trivial
      refine Owned.Keeps.update ?_
      refine (runs_ofExcept _).seq h fun given _ _ _ h => ?_
      refine runs_approvePaynym.seq h fun _ _ _ _ h => ?_
      refine (runs_awaiting (runs_putSubmission hs fun _ _ _ _ => trivial)).seq h fun _ _ _ _ h => ?_
      exact changes_none h

theorem changes_reject (hs : s.Loaded) (g : Gates) (sid : String) (body : Option Json)
    (h : Aware s i (Each i (Idle s)) w₀ w) : Changes s i (rejectChange g i sid body) w₀ w := by
  refine (runs_adminBody g sid body).seq h fun x t₀ t _ h => ?_
  cases x with
  | error r => exact changes_some h r
  | ok body =>
    refine (runs_foundSubmission (fun _ _ => view_note) body).seq h fun y u₀ u _ h => ?_
    obtain ⟨found, a⟩ := y
    cases found with
    | none => exact changes_some h _
    | some r =>
      have h : Aware s i (Each i fun _ _ => True) u₀ u := aware_imp h fun _ _ _ => trivial
      have h := aware_assign r .maintainer h
        (f := fun rec => { rec with status := .rejected, updatedAt := .at a.clock })
        ⟨fun _ => rfl, fun _ => rfl, fun _ => rfl⟩ fun _ _ => trivial
      refine Owned.Keeps.update ?_
      refine (runs_awaiting (runs_putSubmission hs fun _ _ _ _ => trivial)).seq h fun _ _ _ _ h => ?_
      exact changes_none h

theorem changes_remove (g : Gates) (sid : String) (body : Option Json)
    (h : Aware s i (Each i (Idle s)) w₀ w) : Changes s i (removeChange g i sid body) w₀ w := by
  refine (runs_adminBody g sid body).seq h fun x t₀ t _ h => ?_
  cases x with
  | error r => exact changes_some h r
  | ok body =>
    have hdelete : Runs s i (Each i fun _ _ => True)
        (awaiting do deleteSubmission i .maintainer (← ofExcept (body.get "id"))) :=
      runs_awaiting ((runs_ofExcept _).bind fun _ _ => runs_deleteSubmission (fun _ _ => trivial)
        (fun _ _ => trivial) _)
    exact hdelete.seq (aware_imp h fun _ _ _ => trivial) fun _ _ _ _ h => changes_none h

theorem changes_applyEdit (hs : s.Loaded) (actor : Actor) (r : Nat) (body : Json)
    (h : Aware s i (Each i (Idle s)) w₀ w) : Changes s i (applyEditChange i actor r body) w₀ w := by
  refine (runs_givenName body).seq h fun name t₀ t _ h => ?_
  generalize slugify name = slug
  dsimp only
  split
  · exact changes_some h _
  · refine (runs_readObject r).seq h fun old u₀ u _ h => ?_
    refine (runs_awaiting (runs_slugTakenByOther _ _ _)).seq h fun x v₀ v _ h => ?_
    obtain ⟨taken, a⟩ := x
    cases taken with
    | some why => exact changes_some h _
    | none =>
      have h : Aware s i (Each i (Only s r)) v₀ v := aware_imp h fun _ _ he _ => he
      have h := aware_assign r actor h
        (f := fun rec => { rec with name := some name })
        ⟨fun _ => rfl, fun _ => rfl, fun _ => rfl⟩ fun rec hr => only_changed hr rfl
      refine Owned.Keeps.update ?_
      refine (runs_ofExcept _).seq h fun _ _ _ _ h => ?_
      refine (runs_ofExcept _).seq h fun hardware _ _ _ h => ?_
      generalize orNull (slice 120 (trim hardware)) = hardware
      have h := aware_assign r actor h
        (f := fun rec => { rec with hardware, updatedAt := .at a.clock })
        ⟨fun _ => rfl, fun _ => rfl, fun _ => rfl⟩ fun rec hr => only_changed hr rfl
      refine Owned.Keeps.update ?_
      refine (runs_awaiting (runs_putSubmission hs fun w rec hm hr => only_put hs hm hr)).seq h
        fun _ x₀ x _ h => ?_
      unfold readObject
      refine (sat_bind _ _ _ _).2 ?_
      simp only [sat_bind, sat_read]
      cases hr : x.store.object r with
      | none => exact changes_throw h _
      | some rec =>
        simp only [sat_pure]
        split
        · exact changes_none h
        · next hne =>
          have hcontent := (h.inv.objects r).symm.trans hr
          have hhidden : rec.published = false := by
            simp only [StoreRecord.published, hne, decide_false, Bool.false_and]
          refine h.mono (stable_outcome _) fun hl _ => .of_hidden hl ?_
          rw [shown, hcontent, Option.bind_some, shown_eq_none, hhidden]

theorem changes_appliedEdit (hs : s.Loaded) (actor : Actor) (r : Nat) (body : Json)
    (h : Aware s i (Each i (Idle s)) w₀ w) : Changes s i (appliedEdit i actor r body) w₀ w := by
  refine (changes_applyEdit hs actor r body h).seq fun out t₀ t h => ?_
  cases out with
  | none => exact changes_none h
  | some out => exact h.wait.seq fun _ _ _ h => h

theorem changes_edit (hs : s.Loaded) (sid : String) (body : Option Json)
    (h : Aware s i (Each i (Idle s)) w₀ w) : Changes s i (editChange i sid body) w₀ w := by
  refine (runs_operatorBody sid body).seq h fun x t₀ t _ h => ?_
  cases x with
  | error r => exact changes_some h r
  | ok x =>
    obtain ⟨pc, body⟩ := x
    refine (runs_ownedSubmission (fun _ _ => view_note) pc body).seq h fun y u₀ u _ h => ?_
    obtain ⟨target, a⟩ := y
    cases target with
    | none => exact changes_some h _
    | some r => exact changes_appliedEdit hs _ r body h

theorem changes_adminEdit (hs : s.Loaded) (g : Gates) (sid : String) (body : Option Json)
    (h : Aware s i (Each i (Idle s)) w₀ w) : Changes s i (adminEditChange g i sid body) w₀ w := by
  refine (runs_adminBody g sid body).seq h fun x t₀ t _ h => ?_
  cases x with
  | error r => exact changes_some h r
  | ok body =>
    have hget : Runs s i (Each i (Idle s))
        (awaiting do getSubmission i (← ofExcept (body.get "id"))) :=
      runs_awaiting ((runs_ofExcept _).bind fun _ _ => runs_getSubmission (fun _ _ => view_note) _)
    refine hget.seq h fun y u₀ u _ h => ?_
    obtain ⟨found, a⟩ := y
    cases found with
    | absent => exact changes_some h _
    | inherited =>
      refine (runs_givenName body).seq h fun name v₀ v _ h => ?_
      generalize slugify name = slug
      split
      · exact changes_some h _
      · exact changes_throw h _
    | own r => exact changes_appliedEdit hs _ r body h

theorem changes_change (hs : s.Loaded) (g : Gates) (q : Moderation)
    (h : Aware s i (Each i (Idle s)) w₀ w) : Changes s i (q.change g i) w₀ w := by
  unfold Moderation.change
  cases q.kind with
  | approve => exact changes_approve hs g q.sid q.body h
  | reject => exact changes_reject hs g q.sid q.body h
  | remove => exact changes_remove g q.sid q.body h
  | edit => exact changes_edit hs q.sid q.body h
  | adminEdit => exact changes_adminEdit hs g q.sid q.body h

end Changes

end Mise.Server
