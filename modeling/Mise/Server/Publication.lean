import Mise.Async.Zoom
import Mise.Server.ImportUnique
import Mise.Server.Routes

set_option autoImplicit true

namespace Mise.Server

open Js

inductive Moderation.Kind where
  | approve
  | reject
  | remove
  | edit
  | adminEdit
  deriving DecidableEq

/-- A request after which the public list may have to be written again. -/
structure Moderation where
  kind : Moderation.Kind
  sid : String
  body : Option Json

section Changes

variable (g : Gates) (i : Nat)

/-- What `approve` does before its rebuild, and its answer where there is none. -/
def approveChange (sid : String) (body : Option Json) : Action Event (Option Response) := do
  match ← adminBody g sid body with
  | .error r => return some r
  | .ok body =>
    match ← foundSubmission i body with
    | (none, _) => return some notFound
    | (some r, a) =>
      Async.update (World.assign r (.changed i .maintainer r) fun rec =>
        { rec with status := .approved, updatedAt := .at a.clock })
      approve.paynym i r (← ofExcept (body.get "paynym"))
      let _ ← awaiting (putSubmission i .maintainer .keep r)
      return none

def rejectChange (sid : String) (body : Option Json) : Action Event (Option Response) := do
  match ← adminBody g sid body with
  | .error r => return some r
  | .ok body =>
    match ← foundSubmission i body with
    | (none, _) => return some notFound
    | (some r, a) =>
      Async.update (World.assign r (.changed i .maintainer r) fun rec =>
        { rec with status := .rejected, updatedAt := .at a.clock })
      let _ ← awaiting (putSubmission i .maintainer .keep r)
      return none

def removeChange (sid : String) (body : Option Json) : Action Event (Option Response) := do
  match ← adminBody g sid body with
  | .error r => return some r
  | .ok body =>
    let _ ← awaiting (do deleteSubmission i .maintainer (← ofExcept (body.get "id")))
    return none

def applyEditChange (actor : Actor) (r : Nat) (body : Json) : Action Event (Option Response) := do
  let name ← givenName body
  let slug := slugify name
  if slug = "" then return some nameRequired
  let old ← readObject r
  let (taken, a) ← awaiting (slugTakenByOther i old.network slug old.id)
  match taken with
  | some why =>
    return some ⟨409, some ("name \"" ++ name ++ "\" is taken on " ++ old.network.text ++ ": " ++ why)⟩
  | none =>
    Async.update (World.assign r (.changed i actor r) fun rec => { rec with name := some name })
    let hardware ← ofExcept (orEmpty (← ofExcept (body.get "hardware"))).text
    Async.update (World.assign r (.changed i actor r) fun rec =>
      { rec with hardware := orNull (slice 120 (trim hardware)), updatedAt := .at a.clock })
    let _ ← awaiting (putSubmission i actor .keep r)
    return if (← readObject r).status = .approved then none else some ⟨200, none⟩

/-- The handler that has called `applyEdit` goes on at a later moment. -/
def appliedEdit (actor : Actor) (r : Nat) (body : Json) : Action Event (Option Response) := do
  match ← applyEditChange i actor r body with
  | some out =>
    let _ ← Async.wait
    return some out
  | none => return none

def editChange (sid : String) (body : Option Json) : Action Event (Option Response) := do
  match ← operatorBody sid body with
  | .error r => return some r
  | .ok (pc, body) =>
    match ← ownedSubmission i pc body with
    | (none, _) => return some notFound
    | (some r, _) => appliedEdit i (.operator pc) r body

def adminEditChange (sid : String) (body : Option Json) : Action Event (Option Response) := do
  match ← adminBody g sid body with
  | .error r => return some r
  | .ok body =>
    let (found, _) ← awaiting (do getSubmission i (← ofExcept (body.get "id")))
    match found with
    | .absent => return some notFound
    | .inherited =>
      if slugify (← givenName body) = "" then return some nameRequired
      throw .typeError
    | .own r => appliedEdit i .maintainer r body

namespace Moderation

/-- What a request does before the rebuild that follows it, and its answer where none does. -/
def change (q : Moderation) : Action Event (Option Response) :=
  match q.kind with
  | .approve => approveChange g i q.sid q.body
  | .reject => rejectChange g i q.sid q.body
  | .remove => removeChange g i q.sid q.body
  | .edit => editChange i q.sid q.body
  | .adminEdit => adminEditChange g i q.sid q.body

/-- The answer after the rebuild. -/
def answer (q : Moderation) : Action Event Response :=
  match q.kind with
  | .approve | .reject | .remove => return ⟨200, none⟩
  | .edit | .adminEdit => do
    let _ ← Async.wait
    return ⟨200, none⟩

def request (q : Moderation) : Request :=
  match q.kind with
  | .approve => ⟨.approve, q.sid, q.body⟩
  | .reject => ⟨.reject, q.sid, q.body⟩
  | .remove => ⟨.remove, q.sid, q.body⟩
  | .edit => ⟨.edit, q.sid, q.body⟩
  | .adminEdit => ⟨.adminEdit, q.sid, q.body⟩

end Moderation

end Changes

section Handlers

/-- The rebuild of a request, where its change calls for one. -/
def followed (i : Nat) (answer : Action Event Response) (p : Action Event (Option Response)) :
    Action Event Response := do
  match ← p with
  | some r => return r
  | none =>
    let _ ← awaiting (tryRebuild i)
    answer

theorem followed_bind (i : Nat) (answer : Action Event Response) (p : Action Event α)
    (f : α → Action Event (Option Response)) :
    followed i answer (p >>= f) = p >>= fun x => followed i answer (f x) := bind_assoc _ _ _

theorem followed_none (i : Nat) (answer : Action Event Response) :
    followed i answer (pure none) = awaiting (tryRebuild i) >>= fun _ => answer := rfl

theorem applyEdit_eq (i : Nat) (actor : Actor) (r : Nat) (body : Json) :
    applyEdit i actor r body = followed i (pure ⟨200, none⟩) (applyEditChange i actor r body) := by
  unfold applyEdit applyEditChange
  rw [followed_bind]
  refine bind_congr fun name => ?_
  dsimp only
  split
  · rfl
  · rw [followed_bind]
    refine bind_congr fun old => ?_
    rw [followed_bind]
    refine bind_congr fun x => ?_
    obtain ⟨taken, a⟩ := x
    cases taken with
    | some why => rfl
    | none =>
      simp only [followed_bind]
      refine bind_congr fun _ => bind_congr fun _ => bind_congr fun _ => bind_congr fun _ =>
        bind_congr fun _ => ?_
      unfold applyEdit.republish
      refine bind_congr fun rec => ?_
      split
      · rfl
      · rfl

theorem applied_eq (i : Nat) (actor : Actor) (r : Nat) (body : Json) :
    (do let (out, _) ← awaiting (applyEdit i actor r body); return out) =
      followed i (do let _ ← Async.wait; return ⟨200, none⟩) (appliedEdit i actor r body) := by
  rw [applyEdit_eq]
  unfold appliedEdit
  rw [followed_bind, awaiting, bind_assoc, followed, bind_assoc]
  refine bind_congr fun x => ?_
  cases x with
  | some out => rfl
  | none =>
    dsimp only
    rw [bind_assoc, followed_none]
    exact bind_congr fun _ => rfl

theorem handler_eq (g : Gates) (i : Nat) (q : Moderation) :
    q.request.handler g i = followed i q.answer (q.change g i) := by
  unfold Moderation.request Moderation.change Moderation.answer Request.handler
  cases q.kind with
  | approve =>
    change approve g i q.sid q.body = _
    unfold approve approveChange
    simp only [followed_bind]
    refine bind_congr fun x => ?_
    cases x with
    | error r => rfl
    | ok body =>
      simp only [followed_bind]
      refine bind_congr fun x => ?_
      obtain ⟨found, a⟩ := x
      cases found with
      | none => rfl
      | some r => simp only [followed_bind]; rfl
  | reject =>
    change reject g i q.sid q.body = _
    unfold reject rejectChange
    simp only [followed_bind]
    refine bind_congr fun x => ?_
    cases x with
    | error r => rfl
    | ok body =>
      simp only [followed_bind]
      refine bind_congr fun x => ?_
      obtain ⟨found, a⟩ := x
      cases found with
      | none => rfl
      | some r => simp only [followed_bind]; rfl
  | remove =>
    change remove g i q.sid q.body = _
    unfold remove removeChange
    simp only [followed_bind]
    refine bind_congr fun x => ?_
    cases x with
    | error r => rfl
    | ok body => simp only [followed_bind]; rfl
  | edit =>
    change edit i q.sid q.body = _
    unfold edit editChange
    simp only [followed_bind]
    refine bind_congr fun x => ?_
    cases x with
    | error r => rfl
    | ok x =>
      simp only [followed_bind]
      refine bind_congr fun y => ?_
      obtain ⟨target, a⟩ := y
      cases target with
      | none => rfl
      | some r => exact applied_eq i _ r x.2
  | adminEdit =>
    change adminEdit g i q.sid q.body = _
    unfold adminEdit adminEditChange
    simp only [followed_bind]
    refine bind_congr fun x => ?_
    cases x with
    | error r => rfl
    | ok body =>
      simp only [followed_bind]
      refine bind_congr fun y => ?_
      obtain ⟨found, a⟩ := y
      cases found with
      | absent => rfl
      | inherited =>
        rw [followed_bind]
        refine bind_congr fun name => ?_
        split
        · rfl
        · rfl
      | own r => exact applied_eq i _ r body

end Handlers

/-- A write of the public list by a rebuild: the history of the store when the rebuild listed the
submissions, and when it read them. -/
structure Publication where
  request : Nat
  listed : List Event
  read : List Event

/-- The server and the public list; the files and claims that no moderation changes are apart. -/
structure Publisher where
  world : World Event
  list : List PublicNode := []
  publications : List Publication := []

def Publisher.part : Part Publisher (World Event) where
  get t := t.world
  set w t := { t with world := w }
  get_set _ _ := rfl
  set_get _ := rfl
  set_set _ _ _ := rfl

/-- An answer of an operation that has not failed. -/
abbrev Success := { a : Answer // a.ok = true }

abbrev Publishing (α : Type) := Async Publisher Success Fault α

def act (p : Action Event α) : Publishing α := p.zoom Publisher.part Subtype.val

/-- The instance with the submissions and the list that a rebuild has read. -/
def Instance.reading (S : Instance) (subs : List StoreRecord) (prior : List PublicNode) : Instance :=
  { S with
    store := { S.store with submissions := subs.map fun rec => (rec.id, rec.raw) }
    nodes := prior }

section Serve

variable (S : Instance) (g : Gates) (i : Nat)

/-- `rebuild`. The histories that it goes on to write do not concern the list. -/
def rebuildList : Publishing Unit := do
  let _ ← act (awaiting fileOperation)                  -- seed.json
  let _ ← act (awaiting fileOperation)                  -- paynym-codes.json
  let _ ← Async.wait                                    -- operator.json, whose errors are caught
  let refs ← act (listSubmissions i false)
  let listed ← Async.read
  let _ ← Async.wait
  let t ← Async.read
  let subs := refs.filterMap t.world.store.object
  let _ ← Async.wait                                    -- dojos.json
  let prior ← Async.read
  let _ ← Async.wait
  let _ ← act (awaiting fileOperation)                  -- pending-probe.json
  let _ ← act (awaiting (Async.wait : Action Event Answer))   -- verifiedDomainMap
  let _ ← act (awaiting (Async.wait : Action Event Answer))   -- listDomains
  let _ ← act rebuild.writeAtomic
  Async.update fun u => { u with
    list := (S.reading subs prior.list).published
    publications := ⟨i, listed.world.log, t.world.log⟩ :: u.publications }
  let _ ← Async.wait
  let _ ← act (awaiting fileOperation)                  -- history.json
  let _ ← act (awaiting rebuild.writeAtomic)
  let _ ← act (awaiting fileOperation)                  -- history-daily.json
  let _ ← act (awaiting rebuild.writeAtomic)

def tryRebuildList : Publishing Unit :=
  MonadExcept.tryCatch (do
    rebuildList S i
    let _ ← Async.wait) fun _ => return ()

def Moderation.handler (q : Moderation) : Publishing Response := do
  match ← act (q.change g i) with
  | some r => return r
  | none =>
    tryRebuildList S i
    let _ ← Async.wait
    act q.answer

/-- The server's answer to a request, where no file operation fails. -/
def moderate (q : Moderation) : Publishing Response := do
  act (Async.update (World.emit (.began i)))
  let r ← MonadExcept.tryCatch (q.handler S g i) fun _ => return ⟨500, some "server error"⟩
  act (Async.update (World.emit (.answered i r.code)))
  return r

end Serve

end Mise.Server
