import Mise.Js.Map
import Mise.Server.Import
import Mise.Server.Reliability

set_option autoImplicit true

namespace Mise.Server

open Js

/-- An object of a document, with its own properties. -/
structure RawRecord where
  fields : List (String × Json)

namespace RawRecord

variable (r : RawRecord)

def get (k : String) : Option Json := r.fields.lookup k

/-- `r.id`, which is a text where it is there. -/
def id : Option String := asText (r.get "id")

/-- The payment codes that a load of the store gives a record. -/
def paymentCodes : List String :=
  let codes := match r.get "paymentCodes" with
    | some (.arr vs) => vs
    | _ => (orNothing (r.get "paymentCode")).toList
  unique ((codes.filterMap fun v => asText (some v)).filter (· ≠ ""))

def hasSignedBlock : Bool :=
  Server.hasSignedBlock { id := "", network := .mainnet, signed := asText (r.get "signed") }

/-- `r.payload?.pairing?.version || null` -/
def pairingVersion : Json :=
  (orNothing (field "version" (field "pairing" (r.get "payload")))).getD .null

end RawRecord

/-- A variant of a PayNym's payment code, in the document of the codes. -/
structure CodeVariant where
  code : String
  segwit : Bool

/-- What a cycle of the updater has found of a node. -/
structure NodeLive where
  status : Option Json := none
  checkedAt : Option Json := none
  blockHeight : Option Json := none
  detectedVersion : Option Json := none
  detectedIndexer : Option Json := none

/-- An entry of the pending probes. -/
structure PendingEntry extends PendingNode where
  live : NodeLive := {}

/-- A node of the public list. A field without a value is not written to the file. -/
structure PublicNode where
  id : Option String := none
  network : Option Json := none
  name : Option Json := none
  status : Option Json := none
  paynym : Option Json := none
  paymentCode : Option Json := none
  jurisdiction : Option Json := none
  country : Option Json := none
  hardware : Option Json := none
  version : Option Json := none
  detectedVersion : Option Json := none
  detectedIndexer : Option Json := none
  operatorDomain : Option Json := none
  operatorDomainProof : Option Json := none
  blockHeight : Option Json := none
  indexerUrl : Option Json := none
  checkedAt : Option Json := none
  payload : Option Json := none
  signed : Option Json := none

def publicNodeKeys : List String :=
  ["id", "network", "name", "status", "paynym", "paymentCode",
    "jurisdiction", "country", "hardware", "version", "detected_version",
    "detected_indexer", "operator_domain", "operator_domain_proof",
    "block_height", "indexer_url", "checked_at", "payload", "signed"]

namespace PublicNode

variable (n : PublicNode)

/-- The object as it is written. -/
def fields : List (String × Json) :=
  [("id", n.id.map .str), ("network", n.network), ("name", n.name), ("status", n.status),
    ("paynym", n.paynym), ("paymentCode", n.paymentCode), ("jurisdiction", n.jurisdiction),
    ("country", n.country), ("hardware", n.hardware), ("version", n.version),
    ("detected_version", n.detectedVersion), ("detected_indexer", n.detectedIndexer),
    ("operator_domain", n.operatorDomain), ("operator_domain_proof", n.operatorDomainProof),
    ("block_height", n.blockHeight), ("indexer_url", n.indexerUrl), ("checked_at", n.checkedAt),
    ("payload", n.payload), ("signed", n.signed)].filterMap fun x => x.2.map (x.1, ·)

def keys : List String := n.fields.map Prod.fst

def live : NodeLive where
  status := n.status
  checkedAt := n.checkedAt
  blockHeight := n.blockHeight
  detectedVersion := n.detectedVersion
  detectedIndexer := n.detectedIndexer

/-- The key under which the other files have the node. -/
def key : String := n.id.getD "undefined"

end PublicNode

/-- `v || null` -/
def orNullValue (v : Option Json) : Option Json := some ((orNothing v).getD .null)

/-- `v ?? d` -/
def nullish : Option Json → Option Json → Option Json
  | none, d | some .null, d => d
  | some v, _ => some v

section Node

/-- The payment code shown on a card. -/
def displayPaymentCode (mapping : List (String × List CodeVariant)) (sub : RawRecord) :
    Option String :=
  let codes := sub.paymentCodes
  let entry := ((present (asText (sub.get "paynym"))).bind fun nym => mapping.lookup nym).getD []
  let legacy := entry.find? fun c => !c.segwit && c.code ∈ codes
  (legacy.map CodeVariant.code) <|> codes.head?

/-- The allowlist itself, and the only producer of a published node. -/
def toPublicNode (sub : RawRecord) (paymentCode : Option Json) : PublicNode where
  id := sub.id
  network := sub.get "network"
  name := orNothing (sub.get "name") <|> orNothing (sub.get "paynym") <|> sub.id.map .str
  status := some (.str "inactive")
  paynym := orNullValue (sub.get "paynym")
  paymentCode := orNullValue paymentCode
  jurisdiction := orNullValue (sub.get "jurisdiction")
  country := orNullValue (sub.get "country")
  hardware := orNullValue (sub.get "hardware")
  version := some sub.pairingVersion
  detectedVersion := some .null
  detectedIndexer := some .null
  operatorDomain := some .null
  operatorDomainProof := some .null
  blockHeight := some .null
  indexerUrl := some .null
  checkedAt := some .null
  payload := sub.get "payload"
  signed := orNullValue (sub.get "signed")

def effectiveVersion (detected : Option Json) (pairing : Json) : Option Json :=
  some (((orNothing detected) <|> (orNothing (some pairing))).getD .null)

def effectiveIndexer (detected : Option Json) : Option Json := orNullValue detected

end Node

/-- The document of the store. -/
structure StoreDoc where
  submissions : List (String × RawRecord) := []
  domains : List (String × RawRecord) := []
  sessions : List (String × Json) := []
  nonces : List (String × Json) := []
  products : List (String × Json) := []
  invoices : List (String × Json) := []

/-- The files of an instance that a rebuild reads, and the public list and the histories that it
writes. -/
structure Instance where
  store : StoreDoc := {}
  seeds : List RawRecord := []
  mapping : List (String × List CodeVariant) := []
  pending : Table PendingEntry := {}
  nodes : List PublicNode := []
  files : HistoryFiles := {}

namespace RawRecord

/-- A claim of a verified domain. -/
def verifiedDomain (c : RawRecord) : Option String :=
  if truthy (c.get "verified") then present (asText (c.get "domain")) else none

/-- A claim's payment code. -/
def claimant (c : RawRecord) : Option String := asText (c.get "paymentCode")

end RawRecord

namespace Instance

variable (S : Instance)

def approvedSubs : List RawRecord :=
  let allApproved := (S.store.submissions.map Prod.snd).filter fun s =>
    asText (s.get "status") = some "approved"
  allApproved.filter fun s => s.paymentCodes ≠ [] && s.hasSignedBlock

def seedNodes : List RawRecord :=
  S.seeds.filter fun n => truthy (n.get "paymentCode") && n.hasSignedBlock

/-- The published nodes of the approved submissions. -/
def approved : List PublicNode :=
  S.approvedSubs.map fun s => toPublicNode s ((displayPaymentCode S.mapping s).map .str)

def approvedIds : List (Option String) := S.approved.map PublicNode.id

def byId : Map (Option String) PublicNode :=
  let seeded := Map.setAll RawRecord.id (fun n => toPublicNode n (n.get "paymentCode")) S.seedNodes {}
  Map.setAll PublicNode.id (fun n => n) S.approved seeded

def pairingById : Map (Option String) Json :=
  Map.setAll RawRecord.id RawRecord.pairingVersion S.approvedSubs
    (Map.setAll RawRecord.id RawRecord.pairingVersion S.seedNodes {})

def ownerCodesById : Map (Option String) (List Json) :=
  Map.setAll RawRecord.id (fun sub => sub.paymentCodes.map .str) S.approvedSubs
    (Map.setAll RawRecord.id (fun n => (n.get "paymentCode").toList) S.seedNodes {})

/-- The claims of verified domains. -/
def verifiedClaims : List RawRecord :=
  (S.store.domains.map Prod.snd).filter fun c => c.verifiedDomain.isSome

def domainByCode : Map (Option String) (Option String) :=
  Map.setAll RawRecord.claimant RawRecord.verifiedDomain S.verifiedClaims {}

def claimByCode : Map (Option String) RawRecord :=
  Map.setAll RawRecord.claimant (fun c => c) S.verifiedClaims {}

/-- `domainByCode.get(c)` -/
def domainOf (c : Json) : Option String :=
  (asText (some c)).bind fun code => (S.domainByCode.get (some code)).join

/-- The proof that is published with a domain. -/
def domainProof (code : Json) (domain : String) (claim : RawRecord) : Json :=
  .obj ([("domain", some (.str domain)), ("paymentCode", some code),
    ("txt_name", some (.str ("_mise." ++ domain))),
    ("txt_value", (asText (some code)).map fun c => .str ("mise-domain-v1 pm=" ++ c)),
    ("signed", claim.get "signed"),
    ("verified_at", nullish (claim.get "verified_at") (some .null))].filterMap fun x =>
      x.2.map (x.1, ·))

def withDomain (n : PublicNode) : PublicNode :=
  let codes := (S.ownerCodesById.get n.id).getD []
  let code := codes.find? fun c => (S.domainOf c).isSome
  let domain := code.bind S.domainOf
  let claim := code.bind fun c => S.claimByCode.get (asText (some c))
  { n with
    operatorDomain := some ((domain.map Json.str).getD .null)
    operatorDomainProof := match code, domain, claim with
      | some code, some domain, some claim => some (domainProof code domain claim)
      | _, _, _ => some .null }

/-- `priorById.get(id)` -/
def prior (id : Option String) : Option PublicNode :=
  (Map.setAll PublicNode.id (fun p => p) S.nodes {}).get id

/-- What is known of a node: what the list had, or what was observed of a submission while it was
pending. -/
def observed (n : PublicNode) : NodeLive :=
  match S.prior n.id with
  | some p => p.live
  | none =>
    if n.id ∈ S.approvedIds then ((S.pending.get n.key).map PendingEntry.live).getD {} else {}

def withLive (n : PublicNode) : PublicNode :=
  let l := S.observed n
  { n with
    status := nullish l.status n.status
    checkedAt := nullish l.checkedAt n.checkedAt
    blockHeight := nullish l.blockHeight n.blockHeight
    detectedVersion := orNullValue l.detectedVersion
    version := effectiveVersion l.detectedVersion ((S.pairingById.get n.id).getD .null)
    detectedIndexer := orNullValue l.detectedIndexer
    indexerUrl := effectiveIndexer l.detectedIndexer }

/-- The nodes that a rebuild publishes. -/
def published : List PublicNode := (S.byId.values.map S.withDomain).map S.withLive

/-- The rows that a rebuild gives a node without a bucket. -/
def seedRows (rows : PendingNode → List ρ) (n : PublicNode) : List ρ :=
  if n.id ∈ S.approvedIds then ((S.pending.get n.key).map fun p => rows p.toPendingNode).getD []
  else []

/-- A bucket for every node that has none. -/
def ensureBuckets (rows : PendingNode → List ρ) :
    List PublicNode → Table (Bucket ρ) → Table (Bucket ρ)
  | [], m => m
  | n :: nodes, m => ensureBuckets rows nodes
      (if (m.find [] n.key).truthy then m else m.set n.key ⟨S.seedRows rows n, .absent⟩)

/-- What a rebuild makes of a history file. -/
def rebuildBuckets (rows : PendingNode → List ρ) (now grace : Int) (m : Table (Bucket ρ)) :
    Table (Bucket ρ) :=
  retireUnlisted (fun id => some id ∈ S.byId.keys) now grace (S.ensureBuckets rows S.published m)

/-- `rebuild` -/
def rebuild (H : HistoryRules) (now : Int) : Instance :=
  { S with
    nodes := S.published
    files := {
      hist := S.rebuildBuckets PendingNode.checks now H.grace S.files.hist
      daily := S.rebuildBuckets PendingNode.days now H.grace S.files.daily } }

end Instance

end Mise.Server
