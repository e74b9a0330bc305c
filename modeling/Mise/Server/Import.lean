import Mise.Server.Crypto
import Mise.Server.History

set_option autoImplicit true

namespace Mise.Server

open Js

section Values

/-- `v?.k` -/
def field (k : String) : Option Json → Option Json
  | some (.obj fields) => fields.lookup k
  | _ => none

def asText : Option Json → Option String
  | some (.str s) => some s
  | _ => none

def isNull : Json → Bool
  | .null => true
  | _ => false

/-- `v || null` -/
def orNothing (v : Option Json) : Option Json := v.filter Json.truthy

end Values

/-- The libraries of `crypto.ts`, `toLowerCase`, and what paynym.rs answers for a PayNym. It is asked
once for each, and a look-up that fails gives nothing. -/
structure Importer extends Crypto where
  lower : String → String
  fetchCodes : Json → Option (List String)

/-- The documents of the remote instance; one that cannot be fetched or read is missing. -/
structure Remote where
  onionHost : String
  operator : Option Json := none
  dojos : Option Json := none

/-- What this instance lists: its store, and the nodes of its seed file where it has one. -/
structure LocalState where
  store : Store
  wellFormed : store.WellFormed
  seeds : List Seed := []

/-- A node of the remote list. -/
structure RemoteNode where
  id : Option Json
  network : Option Json
  name : Option Json
  paynym : Option Json
  paymentCode : Option Json
  jurisdiction : Option Json
  country : Option Json
  hardware : Option Json
  payload : Option Json
  signed : Option Json

/-- What is planned for a remote node. -/
inductive PlanAction where
  | skip
  | merge (dupOf : String)
  | refuse (why : String)
  | take (codes : List Json)

/-- A record as an import hands it to the store. -/
structure ImportRecord where
  id : String
  network : Option Json
  name : Option Json
  paymentCodes : List Json
  paynym : Option Json
  jurisdiction : Option Json
  country : Option Json
  hardware : Option Json
  payload : Option Json
  signed : Option Json
  status : Status
  source : String
  createdAt : Int
  updatedAt : Int

/-- A row of the plan, as the console renders it. -/
structure ImportRow where
  action : String
  id : Option Json
  name : Option Json
  network : Option Json
  paynym : Option Json
  url : Option Json
  codes : Nat
  dupOf : Option String
  why : Option String

structure ImportReport where
  imported : Nat
  planned : Nat
  merged : Nat
  refused : Nat
  plan : List ImportRow
  status : Status

/-- What an import leaves: the records that it has written, the store, and what it returns. -/
structure ImportOutcome where
  written : List ImportRecord := []
  store : Store
  result : Except Fault ImportReport

section Listings

variable (lower : String → String)

def pairingKey (payload : Payload) : Option String :=
  match field "url" payload.pairing with
  | some (.str u) => if u = "" then none else some (Crypto.trimSlashes (lower (trim u)))
  | _ => none

def Store.listed (s : Store) : List StoreRecord := s.listSubmissions.filterMap s.object

namespace LocalState

variable (L : LocalState)

/-- The id under which a stored record, or else a seed node, lists the URL. -/
def localByUrl : Table String :=
  let stored := L.store.listed.foldl (fun t r =>
    (present (pairingKey lower r.payload)).elim t fun k => t.set k r.id) {}
  L.seeds.foldl (fun t n =>
    (present (pairingKey lower n.payload)).elim t fun k =>
      if (t.get k).isSome then t else t.set k n.id) stored

def existingIds : List String := L.store.listed.map StoreRecord.id

end LocalState

end Listings

namespace RemoteNode

variable (n : RemoteNode)

def ofJson (v : Json) : RemoteNode :=
  let v := some v
  { id := field "id" v, network := field "network" v, name := field "name" v
    paynym := field "paynym" v, paymentCode := field "paymentCode" v
    jurisdiction := field "jurisdiction" v, country := field "country" v
    hardware := field "hardware" v, payload := field "payload" v, signed := field "signed" v }

def url : Option Json := field "url" (field "pairing" n.payload)

/-- The network on which a signature is checked. -/
def chain : Network := if asText n.network = some "testnet" then .testnet else .mainnet

def hasSignedBlock : Bool :=
  Server.hasSignedBlock { id := "", network := n.chain, signed := asText n.signed }

/-- The payment codes of the PayNym, and the one that the document gives. -/
def codes (fetchCodes : Json → Option (List String)) : List Json :=
  let own := (orNothing n.paymentCode).toList
  let all := ((orNothing n.paynym).bind fetchCodes).getD []
  if all = [] then own
  else (unique all).map .str ++ own.filter fun v => !(asText (some v)).any (· ∈ all)

/-- The record that is stored for the node. -/
def record (codes : List Json) (onionHost : String) (status : Status) (now : Int) :
    ImportRecord where
  id := (asText n.id).getD ""
  network := n.network
  name := orNothing n.name <|> n.id
  paymentCodes := codes
  paynym := orNothing n.paynym
  jurisdiction := orNothing n.jurisdiction
  country := orNothing n.country
  hardware := orNothing n.hardware
  payload := n.payload
  signed := orNothing n.signed
  status
  source := "bootstrap-import:" ++ onionHost
  createdAt := now
  updatedAt := now

/-- The line that is logged for a node. It needs an id that is a text. -/
def logged : Except Throw Unit := do
  let paynym := orNothing n.paynym
  if (asText n.id).isNone then throw .typeError
  let _ ← paynym.elim (.ok "(no PayNym)") Json.text

def breaksLog : Bool := n.logged matches .error _

end RemoteNode

/-- What the rest of the program reads of the record. -/
def ImportRecord.stored (r : ImportRecord) : StoreRecord where
  id := r.id
  network := if asText r.network = some "testnet" then .testnet else .mainnet
  name := asText r.name
  status := r.status
  paymentCodes := some (r.paymentCodes.filterMap fun v => asText (some v))
  paynym := asText r.paynym
  jurisdiction := asText r.jurisdiction
  country := asText r.country
  hardware := asText r.hardware
  payload := .given r.payload
  signed := asText r.signed
  createdAt := .at r.createdAt
  updatedAt := .at r.updatedAt

namespace PlanAction

def text : PlanAction → String
  | skip => "skip"
  | merge _ => "merge"
  | refuse _ => "refuse"
  | take _ => "import"

def codes : PlanAction → List Json
  | take codes => codes
  | _ => []

def dupOf : PlanAction → Option String
  | merge id => some id
  | _ => none

def why : PlanAction → Option String
  | refuse why => some why
  | _ => none

def row (a : PlanAction) (n : RemoteNode) : ImportRow where
  action := a.text
  id := n.id
  name := orNothing n.name <|> n.id
  network := orNothing n.network
  paynym := orNothing n.paynym
  url := orNothing n.url
  codes := a.codes.length
  dupOf := present a.dupOf
  why := present a.why

end PlanAction

/-- Whether assigning to the submission's property gives the table another prototype. What it then
inherits is read by nothing of an import. -/
def Store.loses (id : String) (s : Store) : Prop :=
  id = "__proto__" ∧ s.submissions.get id = none

instance (id : String) (s : Store) : Decidable (s.loses id) := inferInstanceAs (Decidable (_ ∧ _))

/-- `putSubmission` under an id that need not be a slug. -/
def Store.assign (rec : StoreRecord) (s : Store) : Except Fault Store :=
  if s.loses rec.id then (normaliseSubmission rec).guard.map fun _ => s else s.putSubmission rec

/-- The loop that stores what is planned: the records that it has written, the store, and what has
stopped it. -/
def applyImports : List ImportRecord → Store → List ImportRecord × Store × Option Fault
  | [], s => ([], s, none)
  | r :: rs, s =>
    match s.assign r.stored with
    | .error e => ([], s, some e)
    | .ok s' =>
      let (written, s'', fault) := applyImports rs s'
      (if s.loses r.id then written else r :: written, s'', fault)

namespace Importer

variable (I : Importer) (R : Remote) (trustedCode : String) (L : LocalState)

/-- The trust gate: the operator of the remote instance has to be the one that is trusted. -/
def trustGate : Except Fault Unit := do
  let some doc := R.operator | throw .io
  match I.verifyOperatorDoc doc ("http://" ++ R.onionHost) with
  | .error .typeError => throw .typeError
  | .ok (.error e) =>
    throw (.refused ("refusing to import: remote operator binding does not verify (" ++ e ++ ")"))
  | .ok (.ok _) =>
    if asText (field "paymentCode" (some doc)) ≠ some trustedCode then
      throw (.refused ("refusing to import: the remote instance is operated by a DIFFERENT " ++
        "payment code than the one you trusted"))

/-- The nodes of the list that have a pairing URL. -/
def listedNodes : Json → Except Throw (List RemoteNode)
  | .null => .error .typeError
  | dojos =>
    match orNothing (field "nodes" (some dojos)) with
    | none => .ok []
    | some (.arr vs) =>
      if vs.any isNull then .error .typeError
      else .ok ((vs.map RemoteNode.ofJson).filter fun n => truthy n.url)
    | some _ => .error .typeError

/-- What is planned for a node. -/
def planAction (n : RemoteNode) : PlanAction :=
  if (asText n.id).any (· ∈ L.existingIds) then .skip
  else match present ((pairingKey I.lower (.given n.payload)).bind (L.localByUrl I.lower).get) with
    | some dupOf => .merge dupOf
    | none =>
      if !n.hasSignedBlock then .refuse "no signed pairing block"
      else match I.verifySignedPayload ((asText n.signed).getD "")
          (some (canonicalPairing (.given n.payload))) none n.chain with
        | .error e => .refuse ("signature does not verify (" ++ e ++ ")")
        | .ok _ =>
          if (n.codes I.fetchCodes).isEmpty then .refuse "no BIP47 payment code"
          else .take (n.codes I.fetchCodes)

/-- The nodes of a document that passes the trust gate, where the log can name each of them. -/
def trustedNodes : Except Fault (List RemoteNode) := do
  I.trustGate R trustedCode
  let some dojos := R.dojos | throw .io
  let nodes ← (listedNodes dojos).mapError fun _ => .typeError
  if nodes.any RemoteNode.breaksLog then throw .typeError
  return nodes

def plan : Except Fault (List (RemoteNode × PlanAction)) :=
  (I.trustedNodes R trustedCode).map fun nodes => nodes.map fun n => (n, I.planAction L n)

/-- The records of the rows that are planned to be imported. -/
def imports (rows : List (RemoteNode × PlanAction)) (status : Status) (now : Int) :
    List ImportRecord :=
  rows.filterMap fun x => match x.2 with
    | .take codes => some (x.1.record codes R.onionHost status now)
    | _ => none

def report (rows : List (RemoteNode × PlanAction)) (imported : Nat) (status : Status) :
    ImportReport where
  imported
  planned := rows.countP fun x => x.2 matches .take _
  merged := rows.countP fun x => x.2 matches .merge _
  refused := rows.countP fun x => x.2 matches .refuse _
  plan := rows.map fun x => x.2.row x.1
  status

/-- `bootstrapImport`, as far as the records. Domain claims and histories come after them. -/
def bootstrapImport (dryRun : Bool) (status : Status) (now : Int) : ImportOutcome :=
  match I.plan R trustedCode L with
  | .error e => { store := L.store, result := .error e }
  | .ok rows =>
    if dryRun then { store := L.store, result := .ok (report rows 0 status) }
    else
      let records := imports R rows status now
      match applyImports records L.store with
      | (written, store, some e) => { written, store, result := .error e }
      | (written, store, none) =>
        { written, store, result := .ok (report rows records.length status) }

end Importer

end Mise.Server
