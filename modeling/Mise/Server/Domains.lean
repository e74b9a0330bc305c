import Mise.Server.Routes

set_option autoImplicit true

namespace Mise.Server

open Js

/-- What the resolvers agree on. -/
structure TxtAgreement where
  ok : Bool := false
  /-- Too few resolvers have answered to draw any conclusion. -/
  inconclusive : Bool := false
  error : Option String := none

inductive Stage where
  | signature
  | dns
  deriving DecidableEq

structure ClaimVerification where
  ok : Bool := false
  stage : Option Stage := none
  inconclusive : Bool := false
  error : Option String := none

/-- The configuration of the domain checks, and what the URL parser, the message signatures and the
matcher of TXT records say. -/
structure DomainRules where
  normaliseDomain : Option Json → Except String String
  repairSignedBlock : String → Option String
  /-- Of a signed block, a URL and a payment code: the error, where there is one. -/
  verifySignedUrlClaim : String → String → String → Option String
  txtMatches : String → String → Bool
  /-- `DOH_AGREEMENT` -/
  agreement : Nat
  /-- `GRACE_DAYS`, `RECHECK_MS` and `PENDING_RECHECK_MS`, in milliseconds. -/
  grace : Int
  recheckEvery : Int
  pendingRecheckEvery : Int

def txtName (domain : String) : String := "_mise." ++ domain

/-- Do at least `required` resolvers see a record that satisfies `p`? -/
def txtRecordAgreed (required : Nat) (name : String) (p : String → Bool) (l : TxtLookup) :
    TxtAgreement :=
  let answered := l.byResolver.length
  if answered < required then
    { inconclusive := true
      error := some ("only " ++ toString answered ++ " of " ++ toString required ++
        " required resolvers answered (" ++
        (orNull ("; ".intercalate l.errors)).getD "no detail" ++ ")") }
  else
    let agreed := (l.byResolver.filter (·.any p)).length
    if required ≤ agreed then { ok := true }
    else
      let records := unique l.byResolver.flatten
      { error := some (if records = [] then "no TXT record found at " ++ name else
          toString agreed ++ " of " ++ toString required ++
            " required resolvers saw a matching record; " ++ toString records.length ++
            " TXT record(s) present but not matching") }

namespace DomainRules

variable (R : DomainRules)

def agreed (domain paymentCode : String) (l : TxtLookup) : TxtAgreement :=
  txtRecordAgreed R.agreement (txtName domain) (R.txtMatches · paymentCode) l

/-- The part of `verifyClaim` that comes after the signature. -/
def verifyDns (domain paymentCode : String) (l : TxtLookup) : ClaimVerification :=
  let dns := R.agreed domain paymentCode l
  if dns.ok then { ok := true }
  else { stage := some .dns, inconclusive := dns.inconclusive, error := dns.error }

def signatureError (c : DomainClaim) : Option String :=
  R.verifySignedUrlClaim c.signed ("https://" ++ c.domain) c.paymentCode

/-- What `verifyClaim` says of a claim: the signature first, then the look-up, which may throw. -/
def verification (c : DomainClaim) (txt : Except String TxtLookup) :
    Except String ClaimVerification :=
  match R.signatureError c with
  | some e => .ok { stage := some .signature, error := some e }
  | none => txt.map (R.verifyDns c.domain c.paymentCode)

/-- What the sweep takes `recheckClaim` to say where that throws, or else what it says. -/
def sweepResult (c : DomainClaim) : Except String TxtLookup → TxtAgreement
  | .ok l => R.agreed c.domain c.paymentCode l
  | .error e => { inconclusive := true, error := some e }

end DomainRules

namespace DomainClaim

/-- Fold a re-check result into a claim, applying the grace period. -/
def applyRecheck (grace : Int) (claim : DomainClaim) (result : TxtAgreement) (now : Int) : DomainClaim :=
  let next := { claim with lastCheck := .at now }
  if result.inconclusive then
    { next with lastResult := some ("inconclusive: " ++ (present result.error).getD "no detail") }
  else if result.ok then
    { next with
      verified := true
      verifiedAt := claim.verifiedAt.or (.at now)
      failSince := .absent
      lastResult := some "ok" }
  else
    let failSince := claim.failSince.or (.at now)
    { next with
      lastResult := some ((present result.error).getD "no matching TXT record")
      failSince
      verified := claim.verified && !failSince.parse.any fun t => grace ≤ now - t }

/-- What the re-check on demand makes of a claim. -/
def rechecked (claim : DomainClaim) (r : ClaimVerification) (now : Int) : DomainClaim :=
  { claim with
    lastCheck := .at now
    verified := r.ok
    verifiedAt := if r.ok then claim.verifiedAt.or (.at now) else claim.verifiedAt
    lastResult := some (if r.ok then "ok" else (present r.error).getD "no matching TXT record")
    failSince := if r.ok then .absent else claim.failSince }

def revoke (claim : DomainClaim) (now : Int) : DomainClaim :=
  { claim with
    verified := false
    revoked := true
    lastResult := some "revoked by admin"
    lastCheck := .at now }

def isDue (R : DomainRules) (claim : DomainClaim) (now : Int) : Bool :=
  claim.lastCheck = .absent || claim.lastCheck.parse.any fun t =>
    (if claim.verified then R.recheckEvery else R.pendingRecheckEvery) ≤ now - t

/-- What an inherited function is as a claim: nothing but `undefined`. -/
def ofFunction : DomainClaim := { paymentCode := "undefined", domain := "undefined" }

end DomainClaim

/-- Why a claim is stored: what a submission claims, or what a re-check, the sweep or a revocation
makes of the claim `old` that it has read; `txt` is the answer of the look-up. -/
inductive ClaimWrite where
  | submitted (claim : DomainClaim) (txt : Except String TxtLookup) (r : ClaimVerification)
  | rechecked (old : DomainClaim) (txt : Except String TxtLookup) (r : ClaimVerification) (now : Int)
  | swept (old : DomainClaim) (txt : Except String TxtLookup) (result : TxtAgreement) (now : Int)
  | revoked (old : DomainClaim) (now : Int)

namespace ClaimWrite

/-- The claim that is stored. -/
def claim (grace : Int) : ClaimWrite → DomainClaim
  | submitted c _ _ => c
  | rechecked old _ r now => old.rechecked r now
  | swept old _ result now => old.applyRecheck grace result now
  | revoked old now => old.revoke now

/-- The claim that was read before. -/
def old : ClaimWrite → Option DomainClaim
  | submitted _ _ _ => none
  | rechecked old _ _ _ | swept old _ _ _ | revoked old _ => some old

end ClaimWrite

/-- The payment code of a session. It is no name that every object inherits, nor `undefined`. -/
structure PaymentCode where
  text : String
  plain : text ∉ "undefined" :: objectPrototype

/-- A request about domain claims, the sweep, or a request that changes the listings and then
rebuilds. -/
inductive DomainRequest where
  | submit (session : Option PaymentCode) (body : Option Json)
  | recheck (session : Option PaymentCode)
  | delete (session : Option PaymentCode)
  | revoke (refusal : Option Response) (body : Option Json)
  | sweep
  | relist (submissions : Table Nat) (objects : List StoreRecord)

/-- The domain that a published node shows: the payment codes of the node, and the one of them whose
claim it is. -/
structure NodeBadge where
  node : String
  codes : List String
  code : String
  domain : String
  deriving DecidableEq

/-- What a request or the sweep does to the domain claims. -/
inductive DomainEvent where
  /-- The request got hold of a claim, which it may write back changed. -/
  | saw (i : Nat) (claim : DomainClaim)
  | stored (i : Nat) (w : ClaimWrite)
  | removed (i : Nat) (paymentCode : String)
  /-- The rebuild of the request read the verified domains. -/
  | mapped (i : Nat) (domains : List (String × String))
  /-- The rebuild of the request wrote the public list with these badges. -/
  | published (i : Nat) (badges : List NodeBadge)
  | answered (i : Nat) (q : DomainRequest) (code : Nat)

section Operations

variable (R : DomainRules) (i : Nat)

def listDomains : Action DomainEvent (List DomainClaim) := do
  let _ ← Async.wait                                    -- load
  return (← Async.read).store.domains.values

/-- `getDomain`, for a request that may write the claim back where `sees`. -/
def getDomain (paymentCode : String) (sees : Bool) : Action DomainEvent (Option DomainClaim) := do
  let _ ← Async.wait                                    -- load
  let found ← Async.updateGet (World.change (fun s => (s.getDomain paymentCode, s)) fun
    | .own c => if sees then [.saw i c] else []
    | _ => [])
  match found with
  | .own c => return some c
  | .inherited => return some .ofFunction
  | .absent => return none

def putDomain (w : ClaimWrite) : Action DomainEvent Unit :=
  write (fun s => ((), s.putDomain (w.claim R.grace))) (fun _ => [.stored i w]) fun _ => true

/-- It persists where `domains[paymentCode]` is anything at all. -/
def deleteDomain (paymentCode : String) : Action DomainEvent Unit := do
  let _ ← write (fun s => (s.getDomain paymentCode, s.deleteDomain paymentCode))
    (fun | .own _ => [.removed i paymentCode] | _ => []) Found.truthy

/-- Every verified domain by payment code. -/
def verifiedDomains (claims : List DomainClaim) : List (String × String) :=
  (claims.filter fun c => c.verified && c.domain ≠ "").map fun c => (c.paymentCode, c.domain)

def verifiedDomainMap : Action DomainEvent (List (String × String)) := do
  let claims ← listDomains
  Async.update (World.emit (.mapped i (verifiedDomains claims)))
  return verifiedDomains claims

/-- The payment codes of each node that is published: of the seed nodes, and of the approved
submissions in their place. -/
def ownerCodes (seeds : List Seed) (subs : List StoreRecord) : Table (List String) :=
  let seeded := (seeds.filter fun n => n.paymentCode.any (· ≠ "") &&
    hasSignedBlock { id := n.id, network := n.network, signed := n.signed }).foldl
      (fun t n => t.set n.id n.paymentCode.toList) {}
  (subs.filter StoreRecord.published).foldl (fun t rec => t.set rec.id rec.codes) seeded

/-- The badge of each node: the domain of the first of its payment codes that has one. -/
def badges (owners : Table (List String)) (domains : List (String × String)) : List NodeBadge :=
  owners.entries.filterMap fun (id, codes) =>
    (codes.find? fun c => (domains.lookup c).isSome).bind fun c =>
      (domains.lookup c).map fun d => ⟨id, codes, c, d⟩

/-- What `rebuild` does with the domain claims. Which files it writes besides the public list does
not matter here. -/
def publishDomains : Action DomainEvent Unit := do
  let (a, _) ← awaiting fileOperation                   -- seed.json
  let _ ← awaiting fileOperation                        -- paynym-codes.json
  let _ ← Async.wait                                    -- operator.json, whose errors are caught
  let _ ← Async.wait                                    -- listSubmissions
  let w ← Async.read
  let subs := w.store.submissions.values.filterMap w.store.object
  let _ ← awaiting fileOperation                        -- dojos.json
  let _ ← awaiting fileOperation                        -- pending-probe.json
  let (domains, _) ← awaiting (verifiedDomainMap i)
  let _ ← awaiting listDomains
  let _ ← awaiting rebuild.writeAtomic
  Async.update (World.emit (.published i (badges (ownerCodes a.seeds subs) domains)))
  let _ ← awaiting fileOperation                        -- history.json
  let _ ← awaiting rebuild.writeAtomic
  let _ ← awaiting fileOperation                        -- history-daily.json
  let _ ← awaiting rebuild.writeAtomic

def tryPublish : Action DomainEvent Unit :=
  MonadExcept.tryCatch (do let _ ← awaiting (publishDomains i)) fun _ => return ()

/-- Full verification, and the answer of the look-up that it is of. It waits for the look-up even
where the signature has failed, as its callers then wait for it. -/
def verifyClaim (c : DomainClaim) :
    Action DomainEvent (Except String TxtLookup × ClaimVerification) := do
  let txt := (← Async.wait).txt
  match R.verification c txt with
  | .ok r => return (txt, r)
  | .error e => throw (.refused e)

end Operations

section Routes

variable (R : DomainRules) (i : Nat)

/-- `POST /api/domain` -/
def postDomain (session : Option PaymentCode) (body : Option Json) :
    Action DomainEvent Response := do
  let _ ← Async.wait                                    -- sessionFrom
  let some pc := session | return unauthenticated
  let _ ← Async.wait                                    -- readBody
  let some body := body | return invalidJson
  match R.normaliseDomain (field "domain" body) with
  | .error e => return ⟨400, some e⟩
  | .ok domain =>
    let signed := trim (← ofExcept (orEmpty (field "signed" body)).text)
    if signed = "" then return ⟨400, some "paste the signed block"⟩
    let signed := (R.repairSignedBlock signed).getD signed
    let (claims, _) ← awaiting listDomains
    let clash := claims.find? fun c => c.verified && c.domain = domain && c.paymentCode ≠ pc.text
    let ((txt, r), a) ← awaiting (verifyClaim R { paymentCode := pc.text, domain, signed })
    let now := Stamp.at a.clock
    let (prev, _) ← awaiting (getDomain i pc.text false)
    if !r.ok && r.stage = some .signature then return ⟨400, r.error⟩
    let _ ← awaiting (putDomain R i (.submitted {
      paymentCode := pc.text, domain, signed
      verified := r.ok
      verifiedAt := if r.ok then now else .absent
      lastCheck := if r.ok then now else .absent        -- absent so the sweep retries immediately
      lastResult := some (if r.ok then "ok" else (present r.error).getD "awaiting the TXT record")
      createdAt := ((prev.map DomainClaim.createdAt).getD .absent).or now
      alsoClaimedBy := clash.map DomainClaim.paymentCode } txt r))
    let _ ← awaiting (tryPublish i)
    return if r.ok then ⟨200, none⟩ else ⟨202, r.error⟩
where
  /-- `body?.k` -/
  field (k : String) (body : Json) : Option Json :=
    match body.get k with
    | .ok v => v
    | .error _ => none

/-- `POST /api/domain/recheck` -/
def recheckDomain (session : Option PaymentCode) : Action DomainEvent Response := do
  let _ ← Async.wait                                    -- sessionFrom
  let some pc := session | return unauthenticated
  let (found, _) ← awaiting (getDomain i pc.text true)
  let some claim := found | return ⟨404, some "no domain claim to re-check"⟩
  let ((txt, r), a) ← awaiting (verifyClaim R claim)
  let _ ← awaiting (putDomain R i (.rechecked claim txt r a.clock))
  let _ ← awaiting (tryPublish i)
  return if r.ok then ⟨200, none⟩ else ⟨202, r.error⟩

/-- `DELETE /api/domain` -/
def dropDomain (session : Option PaymentCode) : Action DomainEvent Response := do
  let _ ← Async.wait                                    -- sessionFrom
  let some pc := session | return unauthenticated
  let _ ← awaiting (deleteDomain i pc.text)
  let _ ← awaiting (tryPublish i)
  return ⟨200, none⟩

/-- `POST /api/admin/domain/revoke`; `refusal` is what `adminFrom` answers. -/
def revokeDomain (refusal : Option Response) (body : Option Json) : Action DomainEvent Response := do
  let _ ← Async.wait                                    -- adminFrom
  if let some r := refusal then return r
  let _ ← Async.wait                                    -- readBody
  let some body := body | return invalidJson
  let code ← ofExcept (orEmpty (postDomain.field "paymentCode" body)).text
  let (found, a) ← awaiting (getDomain i code true)
  let some claim := found | return ⟨404, some "no domain claim for that payment code"⟩
  let _ ← awaiting (putDomain R i (.revoked claim a.clock))
  let _ ← awaiting (tryPublish i)
  return ⟨200, none⟩

/-- The loop of `sweepDomains` over the claims that it has read; whether a badge has changed. -/
def sweepDomains.loop : List DomainClaim → Int → Bool → Action DomainEvent Bool
  | [], _, changed => return changed
  | claim :: claims, now, changed => do
    if claim.revoked || !claim.isDue R now then sweepDomains.loop claims now changed
    else
      let a ← Async.wait                                -- recheckClaim
      let result := R.sweepResult claim a.txt
      let next := claim.applyRecheck R.grace result a.clock
      if next = claim then sweepDomains.loop claims a.clock changed
      else
        let (_, b) ← awaiting (putDomain R i (.swept claim a.txt result a.clock))
        sweepDomains.loop claims b.clock (changed || next.verified ≠ claim.verified)

def sweepDomains : Action DomainEvent Response := do
  let _ ← Async.wait                                    -- load
  let claims ← Async.updateGet fun w =>
    (w.store.domains.values, { w with log := w.store.domains.values.map (.saw i) ++ w.log })
  let a ← Async.wait
  let changed ← sweepDomains.loop R i claims a.clock false
  if changed then
    let _ ← awaiting (tryPublish i)
  return ⟨200, none⟩

end Routes

def DomainRequest.handler (R : DomainRules) (i : Nat) : DomainRequest → Action DomainEvent Response
  | submit session body => postDomain R i session body
  | recheck session => recheckDomain R i session
  | delete session => dropDomain i session
  | revoke refusal body => revokeDomain R i refusal body
  | sweep => sweepDomains R i
  | relist submissions objects => do
    Async.update fun w => { w with store := { w.store with submissions, objects } }
    let _ ← awaiting (tryPublish i)
    return ⟨200, none⟩

def serveDomains (R : DomainRules) (i : Nat) (q : DomainRequest) : Action DomainEvent Response := do
  let r ← handled (q.handler R i)
  Async.update (World.emit (.answered i q r.code))
  return r

end Mise.Server
