import Mise.Server.History
import Mise.Server.World

set_option autoImplicit true

namespace Mise.Server

open Js

/-- The configuration of the server, and what other parts of it say of a submission: the URL
parser, the message signatures, the version comparison and the region names. -/
structure Gates where
  admins : List String
  isPlainOnionUrl : Option Json → Bool
  pairingNetwork : Option Json → Option Network
  repairSignedBlock : String → Option String
  /-- `verifySignedPayload` of a block over `canonicalPairing` of the payload, by one of the
  notification addresses of the payment code; the error, where there is one. -/
  verifySignedPayload : String → Option Json → Option String → Network → Option String
  judgeVersion : Option String → Option Json → Option String
  countryFor : Option Json → Option String

/-- The ASCII letters and digits that `toLowerCase` leaves of a character, and a dash for the rest. -/
def slugChars (c : Char) : List Char :=
  if c.isAlphanum then [c.toLower]
  else if c.val = 0x212a then ['k']
  else if c.val = 0x130 then ['i', '-']
  else ['-']

def squeeze (cs : List Char) : List Char :=
  cs.foldr (fun c l => if c = '-' ∧ l.head? = some '-' then l else c :: l) []

def slugify (name : String) : String :=
  let cs := squeeze (name.toList.flatMap slugChars)
  slice 40 (String.ofList ((cs.dropWhile (· = '-')).reverse.dropWhile (· = '-')).reverse)

example : slugify " My  Dojo No. 1! " = "my-dojo-no-1" := by decide

/-- `s || null` for a text that may be missing. -/
def present (s : Option String) : Option String := s.filter (· ≠ "")

/-- Without carriage returns and characters of no width, and with plain spaces. -/
def cleanSigned (v : Option Json) : Except Throw (Option String) := do
  let t ← (orEmpty v).text
  let cs := t.toList.filter fun c => c ≠ '\r' ∧ c.val ∉ [0x200b, 0x200c, 0x200d, 0xfeff]
  return orNull (trim (String.ofList (cs.map fun c => if c.val = 0xa0 then ' ' else c)))

/-- Why a payload cannot be listed, if it cannot. -/
def Gates.validatePayload (g : Gates) (payload : Option Json) (network : Network) :
    Except Throw (Option String) := do
  let payload := payload.getD .null
  unless payload matches .obj _ | .arr _ do return some "missing pairing payload"
  let p := (← payload.get "pairing").getD .null
  unless p.truthy do return some "pairing.type must be dojo.api with a url"
  let url ← p.get "url"
  unless (← p.get "type") matches some (.str "dojo.api") && truthy url do
    return some "pairing.type must be dojo.api with a url"
  unless g.isPlainOnionUrl url do return some "pairing.url must be an http .onion address"
  let explorer := (← payload.get "explorer").getD .null
  if explorer.truthy then
    unless g.isPlainOnionUrl (← explorer.get "url") do
      return some "explorer.url must be an http .onion address"
  match g.pairingNetwork url, network with
  | some .mainnet, .testnet => return some (
      "this is a mainnet endpoint: a testnet Dojo serves http://<onion>/test/v2. " ++
      "Either paste your testnet pairing payload or list it as mainnet.")
  | some .testnet, .mainnet => return some (
      "this is a testnet endpoint: a mainnet Dojo serves http://<onion>/v2. " ++
      "Either paste your mainnet pairing payload or list it as testnet.")
  | _, _ => return none

/-- Whether the record occupies the name on the network. -/
def StoreRecord.named (rec : StoreRecord) (network : Network) (slug : String) : Bool :=
  rec.network = network &&
    (slugify (rec.name.getD "") = slug || rec.id = network.text ++ "-" ++ slug)

def Seed.named (seed : Seed) (network : Network) (slug : String) : Bool :=
  seed.network = network &&
    (slugify (seed.name.getD "") = slug || seed.id = network.text ++ "-" ++ slug)

/-- A record that the public list shows. -/
def StoreRecord.published (rec : StoreRecord) : Bool :=
  rec.status = .approved && rec.codes ≠ [] && hasSignedBlock rec

def Status.text : Status → String
  | pending => "pending"
  | approved => "approved"
  | rejected => "rejected"

namespace World

/-- Normalise the object `r`. A record that a submission has made is one from then on. -/
def normalise (i : Nat) (purpose : Purpose) (r : Nat) (w : World Event) : World Event where
  store := w.store.modify r normaliseSubmission
  log := match w.store.object r, purpose.submits with
    | some rec, true => .made i r (normaliseSubmission rec) :: w.log
    | _, _ => w.log

/-- Assign fields of the object `r`. -/
def assign (r : Nat) (note : StoreRecord → Event) (f : StoreRecord → StoreRecord)
    (w : World Event) : World Event where
  store := w.store.modify r f
  log := match w.store.object r with
    | some rec => note (f rec) :: w.log
    | none => w.log

/-- Store the object `r` under its id. -/
def putObject (i : Nat) (actor : Actor) (purpose : Purpose) (r : Nat) (w : World Event) :
    World Event where
  store := w.store.putObject r
  log := match w.store.object r with
    | some rec => .put i actor purpose rec.id r :: w.log
    | none => w.log

end World

/-- What an expression throws, the request throws. -/
def ofExcept : Except Throw β → Action α β
  | .ok x => return x
  | .error .typeError => throw .typeError

section Operations

variable (i : Nat)

/-- It persists where it has thrown away an expired session. -/
def getSession (id : String) : Action Event (Found Session) := do
  if id = "" then return .absent
  let a ← Async.wait                                    -- load
  let w ← Async.read
  let sess ← Async.updateGet (World.change (Store.getSession id a.clock) fun _ => [])
  if (w.store.sessions.get id).any (·.expires < a.clock) then
    let _ ← awaiting persist
  return sess

def putSubmission (actor : Actor) (purpose : Purpose) (r : Nat) : Action Event Unit := do
  Async.update (World.normalise i purpose r)
  let w ← Async.read
  match (w.store.object r).map StoreRecord.guard with
  | some (.ok ()) =>
    let _ ← Async.wait                                  -- load
    Async.update (World.putObject i actor purpose r)
    let _ ← awaiting persist
  | some (.error e) => throw e
  | none => throw .typeError

def getSubmission (id : Option Json) : Action Event (Found Nat) := do
  let _ ← Async.wait                                    -- load
  let id ← ofExcept (propertyKey id)
  Async.updateGet (World.change (Store.getSubmission id) fun
    | .own r => [.saw i id r]
    | _ => [])

/-- `listSubmissions`, for a request that goes on to use a record of the list where `sees`. -/
def listSubmissions (sees : Bool) : Action Event (List Nat) := do
  let _ ← Async.wait                                    -- load
  let entries ← Async.updateGet (World.change (fun s => (s.submissions.entries, s)) fun entries =>
    if sees then entries.map fun x => .saw i x.1 x.2 else [])
  return entries.map Prod.snd

/-- It persists where `submissions[id]` is anything at all. -/
def deleteSubmission (actor : Actor) (id : Option Json) : Action Event Unit := do
  let _ ← Async.wait                                    -- load
  let id ← ofExcept (propertyKey id)
  let found ← Async.updateGet (World.change
    (fun s => (s.submissions.find s.prototype id, s.deleteSubmission id)) fun
    | .own _ => [.cleared i id, .deleted i actor id]
    | _ => [.cleared i id])
  unless found matches .absent do
    let _ ← awaiting persist

/-- The record at `r`. -/
def readObject (r : Nat) : Action Event StoreRecord := do
  let w ← Async.read
  match w.store.object r with
  | some rec => return rec
  | none => throw .typeError

/-- A record literal. -/
def makeObject (rec : StoreRecord) : Action Event Nat :=
  Async.updateGet fun w =>
    (w.store.objects.length, { w with store.objects := w.store.objects ++ [rec] })

/-- Reading a file that has to be there, or one of the directories above a file to be written. -/
def fileOperation : Action α Answer := do
  let a ← Async.wait
  unless a.ok do throw .io
  return a

/-- What `rebuild` does with the store's submissions. Which files it writes besides the public
list does not matter here. -/
def rebuild : Action Event Unit := do
  Async.update (World.emit (.rebuilding i))
  let _ ← awaiting fileOperation                        -- seed.json
  let _ ← awaiting fileOperation                        -- paynym-codes.json
  let _ ← Async.wait                                    -- operator.json, whose errors are caught
  let (refs, _) ← awaiting (listSubmissions i false)
  let w ← Async.read
  let ids := ((refs.filterMap w.store.object).filter StoreRecord.published).map StoreRecord.id
  let _ ← awaiting fileOperation                        -- dojos.json
  let _ ← awaiting fileOperation                        -- pending-probe.json
  let _ ← awaiting (Async.wait : Action Event Answer)   -- verifiedDomainMap
  let _ ← awaiting (Async.wait : Action Event Answer)   -- listDomains
  let _ ← awaiting writeAtomic
  Async.update (World.emit (.published i ids))
  let _ ← awaiting fileOperation                        -- history.json
  let _ ← awaiting writeAtomic
  let _ ← awaiting fileOperation                        -- history-daily.json
  let _ ← awaiting writeAtomic
where
  writeAtomic {α} : Action α Unit := do
    let _ ← fileOperation                               -- mkdir
    let _ ← fileOperation                               -- writeFile
    let _ ← fileOperation                               -- rename

def tryRebuild : Action Event Unit :=
  MonadExcept.tryCatch (do let _ ← awaiting (rebuild i)) fun _ => return ()

/-- `sessionFrom`: the payment code of the session, where there is one. A session found among the
names that every object inherits has no payment code. -/
def sessionFrom (sid : String) : Action Event (Option (Option String)) := do
  if sid = "" then return none
  let (sess, _) ← awaiting (getSession sid)
  match sess with
  | .own sess => return some sess.paymentCode
  | .inherited => return some none
  | .absent => return none

def seedNodes : Action Event (List Seed) := do
  let a ← Async.wait
  return a.seeds

/-- Why the name is not free for the holder of `pc`, if it is not. -/
def nameConflict (network : Network) (slug : String) (pc : Option String) :
    Action Event (Option String) := do
  let (refs, _) ← awaiting (listSubmissions i false)
  let w ← Async.read
  match (refs.filterMap w.store.object).find? fun rec => rec.named network slug && !owns rec pc with
  | some rec => return some ("the name is already used by another operator's " ++
      rec.status.text ++ " record")
  | none =>
    let (seeds, _) ← awaiting seedNodes
    return if seeds.any (·.named network slug) then
      some "the name is reserved by a curated seed node" else none

/-- The record that the holder of `pc` updates by a submission under the name. -/
def ownedRecordFor (network : Network) (slug : String) (pc : Option String) :
    Action Event (Option Nat) := do
  let (refs, _) ← awaiting (listSubmissions i true)
  let w ← Async.read
  return refs.find? fun r => (w.store.object r).any fun rec =>
    rec.named network slug && owns rec pc

def slugTakenByOther (network : Network) (slug excludeId : String) :
    Action Event (Option String) := do
  let (refs, _) ← awaiting (listSubmissions i false)
  let w ← Async.read
  match (refs.filterMap w.store.object).find? fun rec =>
      rec.id ≠ excludeId && rec.named network slug with
  | some rec => return some ("the name is already used by " ++
      (present rec.paynym).getD "another" ++ "'s " ++ rec.status.text ++ " record")
  | none =>
    let (seeds, _) ← awaiting seedNodes
    return if seeds.any fun n => n.id ≠ excludeId && n.named network slug then
      some "the name is reserved by a curated seed node" else none

end Operations

section Handlers

variable (g : Gates) (i : Nat)

def unauthenticated : Response := ⟨401, some "not authenticated"⟩

def invalidJson : Response := ⟨400, some "invalid JSON"⟩

def notFound : Response := ⟨404, some "not found"⟩

def nameRequired : Response := ⟨400, some "name is required (letters, digits and hyphens)"⟩

/-- `String(body.name || "").trim().slice(0, 40)` -/
def givenName (body : Json) : Action Event String := do
  let t ← ofExcept (orEmpty (← ofExcept (body.get "name"))).text
  return slice 40 (trim t)

/-- `adminFrom`: the refusal, where the session is no maintainer's. -/
def adminFrom (sid : String) : Action Event (Option Response) := do
  let (s, _) ← awaiting (sessionFrom sid)
  match s with
  | none => return some unauthenticated
  | some pc =>
    if pc.any fun c => c ≠ "" ∧ c ∈ g.admins then return none
    else return some ⟨403, some "not authorised"⟩

/-- A maintainer's request: its body, or how it is refused. -/
def adminBody (sid : String) (body : Option Json) : Action Event (Except Response Json) := do
  let (refusal, _) ← awaiting (adminFrom g sid)
  match refusal with
  | some r => return .error r
  | none =>
    let _ ← Async.wait                                  -- readBody
    match body with
    | some body => return .ok body
    | none => return .error invalidJson

/-- An operator's request: the payment code of its session and its body, or how it is refused. -/
def operatorBody (sid : String) (body : Option Json) :
    Action Event (Except Response (Option String × Json)) := do
  let (s, _) ← awaiting (sessionFrom sid)
  match s with
  | none => return .error unauthenticated
  | some pc =>
    let _ ← Async.wait                                  -- readBody
    match body with
    | some body => return .ok (pc, body)
    | none => return .error invalidJson

/-- The object that `getSubmission(body.id)` finds, where the holder of `pc` owns it. -/
def ownedSubmission (pc : Option String) (body : Json) : Action Event (Option Nat × Answer) := do
  let (found, a) ← awaiting (do getSubmission i (← ofExcept (body.get "id")))
  match found with
  | .own r =>
    let found ← readObject r
    return (if owns found pc then some r else none, a)
  | _ => return (none, a)

/-- `POST /api/dojo` -/
def submit (sid : String) (body : Option Json) : Action Event Response := do
  match ← operatorBody sid body with
  | .error r => return r
  | .ok (pc, body) =>
    match ← ofExcept (body.get "network") with
    | some (.str "testnet") => named pc body .testnet
    | some (.str "mainnet") => named pc body .mainnet
    | _ => return ⟨400, some "network must be mainnet or testnet"⟩
where
  named (pc : Option String) (body : Json) (network : Network) : Action Event Response := do
    let name ← givenName body
    let slug := slugify name
    if slug = "" then return nameRequired
    let (conflict, _) ← awaiting (nameConflict i network slug pc)
    match conflict with
    | some why =>
      return ⟨409, some ("name \"" ++ name ++ "\" is taken on " ++ network.text ++ ": " ++ why)⟩
    | none => signed pc body network name slug
  signed (pc : Option String) (body : Json) (network : Network) (name slug : String) :
      Action Event Response := do
    let payload ← ofExcept (body.get "payload")
    match ← ofExcept (g.validatePayload payload network) with
    | some e => return ⟨400, some e⟩
    | none =>
      match ← ofExcept (cleanSigned =<< body.get "signed") with
      | none => return ⟨400, some ("signature gate: paste the signed pairing block. " ++
          "Sign the exact pairing text shown above in your wallet under PayNym → Sign message, " ++
          "then paste the whole block, headers included.")⟩
      | some block =>
        let block := (g.repairSignedBlock block).getD block
        match g.verifySignedPayload block payload pc network with
        | some e => return ⟨400, some ("signature gate: " ++ e)⟩
        | none => probed pc body network name slug (payload.getD .null) block
  probed (pc : Option String) (body : Json) (network : Network) (name slug : String)
      (payload : Json) (block : String) : Action Event Response := do
    let check := (← Async.wait).probe
    unless check.up do
      return ⟨422, some ("connection gate: node unreachable or not serving block data over Tor (" ++
        (present check.reason).getD "no response" ++ ")")⟩
    let (existing, a) ← awaiting (ownedRecordFor i network slug pc)
    match existing with
    | some r =>
      let id := (← readObject r).id
      store pc body network name payload block check a.clock id .update (some r)
    | none =>
      let declared ← ofExcept (do (← payload.get "pairing").elim (.ok none) (Json.get "version"))
      match g.judgeVersion check.detectedVersion declared with
      | some e => return ⟨422, some ("version gate: " ++ e)⟩
      | none =>
        let id := network.text ++ "-" ++ slug
        store pc body network name payload block check a.clock id .create none
  store (pc : Option String) (body : Json) (network : Network) (name : String) (payload : Json)
      (block : String) (check : Probe) (now : Int) (id : String) (purpose : Purpose)
      (existing : Option Nat) : Action Event Response := do
    let resolvedNym := (← Async.wait).paynym
    let w ← Async.read
    let existing := existing.bind w.store.object
    let jurisdiction ← ofExcept (body.get "jurisdiction")
    let r ← makeObject {
      id, network, name := some name
      paymentCodes := some (unique ((existing.elim [] StoreRecord.codes) ++ pc.toList))
      paynym := present resolvedNym <|> present (existing.bind StoreRecord.paynym)
      jurisdiction := orNull (slice 64 (← ofExcept (orEmpty jurisdiction).text))
      country := present (g.countryFor jurisdiction) <|> present (existing.bind StoreRecord.country)
      hardware := orNull (slice 120 (← ofExcept (orEmpty (← ofExcept (body.get "hardware"))).text))
      payload := ⟨← ofExcept (payload.get "pairing"), ← ofExcept (payload.get "explorer")⟩
      signed := orNull block
      status := .pending
      lastProbe := some check
      createdAt := existing.elim (.at now) StoreRecord.createdAt
      updatedAt := .at now }
    let _ ← awaiting (putSubmission i (.operator pc) purpose r)
    return ⟨200, none⟩

/-- `applyEdit` -/
def applyEdit (actor : Actor) (r : Nat) (body : Json) : Action Event Response := do
  let name ← givenName body
  let slug := slugify name
  if slug = "" then return nameRequired
  let old ← readObject r
  let (taken, a) ← awaiting (slugTakenByOther i old.network slug old.id)
  match taken with
  | some why =>
    return ⟨409, some ("name \"" ++ name ++ "\" is taken on " ++ old.network.text ++ ": " ++ why)⟩
  | none =>
    Async.update (World.assign r (.changed i actor r) fun rec => { rec with name := some name })
    let hardware ← ofExcept (orEmpty (← ofExcept (body.get "hardware"))).text
    Async.update (World.assign r (.changed i actor r) fun rec =>
      { rec with hardware := orNull (slice 120 (trim hardware)), updatedAt := .at a.clock })
    let _ ← awaiting (putSubmission i actor .keep r)
    republish r
where
  /-- What is approved is published again at once. -/
  republish (r : Nat) : Action Event Response := do
    if (← readObject r).status = .approved then
      let _ ← awaiting (tryRebuild i)
    return ⟨200, none⟩

/-- `POST /api/dojo/edit` -/
def edit (sid : String) (body : Option Json) : Action Event Response := do
  match ← operatorBody sid body with
  | .error r => return r
  | .ok (pc, body) =>
    match ← ownedSubmission i pc body with
    | (none, _) => return notFound
    | (some r, _) =>
      let (out, _) ← awaiting (applyEdit i (.operator pc) r body)
      return out

/-- `POST /api/dojo/pairing` -/
def pairing (sid : String) (body : Option Json) : Action Event Response := do
  match ← operatorBody sid body with
  | .error r => return r
  | .ok (pc, body) =>
    match ← ownedSubmission i pc body with
    | (none, _) => return notFound
    | (some r, _) => verified pc body r
where
  verified (pc : Option String) (body : Json) (r : Nat) : Action Event Response := do
    let network := (← readObject r).network
    let payload ← ofExcept (body.get "payload")
    match ← ofExcept (g.validatePayload payload network) with
    | some e => return ⟨400, some e⟩
    | none =>
      match ← ofExcept (cleanSigned =<< body.get "signed") with
      | none => return ⟨400, some ("signature gate: paste a signed block covering the NEW " ++
          "pairing details. Your existing signature covers the details you are replacing, so it " ++
          "cannot carry over. Your listing is unchanged.")⟩
      | some block =>
        let block := (g.repairSignedBlock block).getD block
        match g.verifySignedPayload block payload pc .mainnet with
        | some e => return ⟨400, some ("signature gate: " ++ e)⟩
        | none => probed pc r (payload.getD .null) block
  probed (pc : Option String) (r : Nat) (payload : Json) (block : String) :
      Action Event Response := do
    let a ← Async.wait
    let check := a.probe
    unless check.up do
      return ⟨422, some ("connection gate: that node is unreachable or not serving block data " ++
        "over Tor (" ++ (present check.reason).getD "no response" ++ "). Your listing is unchanged.")⟩
    let payload : Payload :=
      ⟨← ofExcept (payload.get "pairing"), ← ofExcept (payload.get "explorer")⟩
    Async.update (World.assign r (.paired i (.operator pc) r) fun rec =>
      { rec with
        payload, signed := orNull block, lastProbe := some check, updatedAt := .at a.clock })
    let _ ← awaiting (putSubmission i (.operator pc) .pairing r)
    applyEdit.republish i r

/-- `POST /api/dojo/delete` -/
def delete (sid : String) (body : Option Json) : Action Event Response := do
  match ← operatorBody sid body with
  | .error r => return r
  | .ok (pc, body) =>
    match ← ownedSubmission i pc body with
    | (none, _) => return notFound
    | (some _, _) =>
      let _ ← awaiting (do deleteSubmission i (.operator pc) (← ofExcept (body.get "id")))
      return ⟨200, none⟩

/-- The object that a maintainer's `getSubmission(body.id)` finds. Something that every object
inherits is never stored: an assignment to it or `putSubmission` throws. The fields that are
assigned to it before that are left out here. -/
def foundSubmission (body : Json) : Action Event (Option Nat × Answer) := do
  let (found, a) ← awaiting (do getSubmission i (← ofExcept (body.get "id")))
  match found with
  | .own r => return (some r, a)
  | .inherited => throw .typeError
  | .absent => return (none, a)

/-- `POST /api/admin/edit` -/
def adminEdit (sid : String) (body : Option Json) : Action Event Response := do
  match ← adminBody g sid body with
  | .error r => return r
  | .ok body =>
    let (found, _) ← awaiting (do getSubmission i (← ofExcept (body.get "id")))
    match found with
    | .absent => return notFound
    | .inherited =>
      if slugify (← givenName body) = "" then return nameRequired
      throw .typeError
    | .own r =>
      let (out, _) ← awaiting (applyEdit i .maintainer r body)
      return out

/-- `POST /api/admin/approve`. The avatars it mirrors do not concern the store. -/
def approve (sid : String) (body : Option Json) : Action Event Response := do
  match ← adminBody g sid body with
  | .error r => return r
  | .ok body =>
    match ← foundSubmission i body with
    | (none, _) => return notFound
    | (some r, a) =>
      Async.update (World.assign r (.changed i .maintainer r) fun rec =>
        { rec with status := .approved, updatedAt := .at a.clock })
      paynym r (← ofExcept (body.get "paynym"))
      let _ ← awaiting (putSubmission i .maintainer .keep r)
      let _ ← awaiting (tryRebuild i)
      return ⟨200, none⟩
where
  setPaynym (r : Nat) (nym : String) : Action Event Unit :=
    Async.update (World.assign r (.changed i .maintainer r) fun rec =>
      { rec with paynym := some nym })
  paynym (r : Nat) (given : Option Json) : Action Event Unit := do
    if truthy given then
      match given with
      | some (.str nym) => setPaynym r (if startsWith nym "+" then nym else "+" ++ nym)
      | _ => throw .typeError
    else if (present (← readObject r).paynym).isNone then
      match present (← Async.wait).paynym with
      | some nym => setPaynym r nym
      | none => return ()

/-- `POST /api/admin/reject` -/
def reject (sid : String) (body : Option Json) : Action Event Response := do
  match ← adminBody g sid body with
  | .error r => return r
  | .ok body =>
    match ← foundSubmission i body with
    | (none, _) => return notFound
    | (some r, a) =>
      Async.update (World.assign r (.changed i .maintainer r) fun rec =>
        { rec with status := .rejected, updatedAt := .at a.clock })
      let _ ← awaiting (putSubmission i .maintainer .keep r)
      let _ ← awaiting (tryRebuild i)
      return ⟨200, none⟩

/-- `POST /api/admin/remove` -/
def remove (sid : String) (body : Option Json) : Action Event Response := do
  match ← adminBody g sid body with
  | .error r => return r
  | .ok body =>
    let _ ← awaiting (do deleteSubmission i .maintainer (← ofExcept (body.get "id")))
    let _ ← awaiting (tryRebuild i)
    return ⟨200, none⟩

end Handlers

def Request.handler (g : Gates) (i : Nat) (q : Request) : Action Event Response :=
  match q.route with
  | .submit => submit g i q.sid q.body
  | .edit => edit i q.sid q.body
  | .pairing => pairing g i q.sid q.body
  | .delete => delete i q.sid q.body
  | .adminEdit => adminEdit g i q.sid q.body
  | .approve => approve g i q.sid q.body
  | .reject => reject g i q.sid q.body
  | .remove => remove g i q.sid q.body

/-- The server's answer to a request. -/
def serve (g : Gates) (i : Nat) (q : Request) : Action Event Response := do
  Async.update (World.emit (.began i))
  Async.update (World.emit (.asked i q))
  let r ← handled (q.handler g i)
  Async.update (World.emit (.answered i r.code))
  return r

end Mise.Server
