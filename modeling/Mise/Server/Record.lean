import Mise.Js.Table
import Mise.Js.Value

set_option autoImplicit true

namespace Mise.Server

open Js

/-- What a store operation or a route can throw. -/
inductive Fault where
  | typeError
  | refused (message : String)
  | io
  deriving DecidableEq

inductive Network where
  | mainnet
  | testnet
  deriving DecidableEq

def Network.text : Network → String
  | mainnet => "mainnet"
  | testnet => "testnet"

inductive Status where
  | pending
  | approved
  | rejected
  deriving DecidableEq

/-- A timestamp of a record: missing, a text that `Date.parse` cannot read, or an instant. -/
inductive Stamp where
  | absent
  | unusable
  | at (ms : Int)
  deriving DecidableEq

/-- `Date.parse(s || "")`, where that is a finite number. -/
def Stamp.parse : Stamp → Option Int
  | .at ms => some ms
  | .absent | .unusable => none

/-- `s || t` -/
def Stamp.or : Stamp → Stamp → Stamp
  | .absent, t => t
  | s, _ => s

/-- What a probe of a node says. -/
structure Probe where
  up : Bool := false
  reason : Option String := none
  detectedVersion : Option String := none
  deriving DecidableEq

/-- The two keys of a pairing payload that a signature covers. -/
structure Payload where
  pairing : Option Json := none
  explorer : Option Json := none

/-- A listing. `paymentCodes` is missing where a record predates it and carries one `paymentCode`
instead; what is not a text in it is left out. -/
structure StoreRecord where
  id : String
  network : Network
  name : Option String := none
  status : Status := .pending
  paymentCodes : Option (List String) := none
  paymentCode : Option String := none
  paynym : Option String := none
  jurisdiction : Option String := none
  country : Option String := none
  hardware : Option String := none
  payload : Payload := {}
  signed : Option String := none
  lastProbe : Option Probe := none
  createdAt : Stamp := .absent
  updatedAt : Stamp := .absent

/-- Whether a record carries a signed pairing block at all. -/
def hasSignedBlock (rec : StoreRecord) : Bool :=
  let signed := trim (rec.signed.getD "")
  includes signed "BEGIN BITCOIN SIGNED MESSAGE" && includes signed "BEGIN BITCOIN SIGNATURE"

namespace StoreRecord

def codes (rec : StoreRecord) : List String := rec.paymentCodes.getD []

/-- The codes of a record, or its one code where it has no list of them. -/
def allCodes (rec : StoreRecord) : List String :=
  rec.paymentCodes.getD rec.paymentCode.toList

end StoreRecord

def normaliseSubmission (rec : StoreRecord) : StoreRecord :=
  { rec with
    paymentCodes := some (unique (rec.allCodes.filter (· ≠ "")))
    paymentCode := none }

def isWord (c : Char) : Bool := c.isAlphanum || c == '_'

/-- `/^PM\w{6,}/` -/
def looksLikeCode (c : String) : Bool :=
  match c.toList with
  | 'P' :: 'M' :: cs => 6 ≤ (cs.takeWhile isWord).length
  | _ => false

/-- The guards of `putSubmission`, on a normalised record. -/
def StoreRecord.guard (rec : StoreRecord) : Except Fault Unit :=
  if !rec.codes.any fun c => looksLikeCode (trim c) then
    .error (.refused ("refusing to store " ++ rec.id ++
      ": a listing must carry a BIP47 payment code"))
  else if !hasSignedBlock rec then
    .error (.refused ("refusing to store " ++ rec.id ++
      ": a listing must carry a signed pairing block. " ++
      "Ask the operator to sign their pairing payload, or remove the listing with " ++
      "server/remove-listing.ts."))
  else .ok ()

/-- A record that a write of the store has let through, or that a load has read. -/
def Normal (rec : StoreRecord) : Prop :=
  rec.paymentCode = none ∧ ∃ l, rec.paymentCodes = some l ∧ l.Nodup ∧ "" ∉ l

@[simp] theorem normaliseSubmission_id (rec : StoreRecord) :
    (normaliseSubmission rec).id = rec.id := rfl

@[simp] theorem normaliseSubmission_payload (rec : StoreRecord) :
    (normaliseSubmission rec).payload = rec.payload := rfl

@[simp] theorem normaliseSubmission_signed (rec : StoreRecord) :
    (normaliseSubmission rec).signed = rec.signed := rfl

theorem normal_normalise (rec : StoreRecord) : Normal (normaliseSubmission rec) :=
  ⟨rfl, _, rfl, nodup_unique _, by simp⟩

theorem Normal.normalise (h : Normal rec) : normaliseSubmission rec = rec := by
  obtain ⟨hc, l, hl, hn, he⟩ := h
  have hf : l.filter (· ≠ "") = l := List.filter_eq_self.2 fun c hc => by
    have hne : c ≠ "" := fun e => he (e ▸ hc)
    simpa using hne
  have hcodes : rec.allCodes = l := by simp [StoreRecord.allCodes, hl]
  rw [normaliseSubmission, hcodes, hf, unique_of_nodup hn, ← hl, ← hc]

structure Session where
  paymentCode : Option String
  expires : Int
  deriving DecidableEq

structure Nonce where
  expires : Int
  sid : Option String := none
  deriving DecidableEq

/-- A verified domain, or a claim to one. -/
structure DomainClaim where
  paymentCode : String
  domain : String
  signed : String := ""
  verified : Bool := false
  verifiedAt : Stamp := .absent
  lastCheck : Stamp := .absent
  lastResult : Option String := none
  /-- When a re-check first failed; the grace period runs from here. -/
  failSince : Stamp := .absent
  createdAt : Stamp := .absent
  revoked : Bool := false
  alsoClaimedBy : Option String := none
  deriving DecidableEq

/-- A product, with the fields that `putProduct` reads. A number is `none` where the field holds
something else, and `inventory` is `none` where it is `null`. -/
structure ProductRecord where
  id : String
  priceUsdCents : Option Rat
  inventory : Option (Option Rat) := none
  deriving DecidableEq

structure SignedAddress where
  signed : Option String
  address : Option String
  network : Option String := none
  deriving DecidableEq

structure InvoiceRecord where
  id : String
  network : Option String
  address : Option String
  addressRecord : Option SignedAddress
  amountSats : Option Rat
  rateUsd : Option Rat
  createdAt : Stamp
  rateAt : Stamp
  deriving DecidableEq

/-- `Number.isInteger` -/
def isInteger (n : Option Rat) : Bool := n.any fun q => q.den == 1

def ProductRecord.guard (rec : ProductRecord) : Except Fault Unit :=
  if rec.id = "" then .error (.refused "refusing to store a product with no id")
  else if !isInteger rec.priceUsdCents || rec.priceUsdCents.any (· < 0) then
    .error (.refused ("refusing to store " ++ rec.id ++
      ": price_usd_cents must be a non-negative whole number of cents"))
  else if rec.inventory.any fun n => !isInteger n || n.any (· < 0) then
    .error (.refused ("refusing to store " ++ rec.id ++
      ": inventory must be null (unlimited) or a non-negative integer"))
  else .ok ()

/-- The time between two dates, in whole seconds. -/
def seconds (ms : Int) : String := toString ((ms.natAbs + 500) / 1000)

/-- The guards of `putInvoice`; `maxAge` is `RATE_MAX_AGE_MS`. -/
def InvoiceRecord.guard (maxAge : Int) (rec : InvoiceRecord) : Except Fault Unit := do
  let refuse (why : String) : Except Fault Unit :=
    .error (.refused ("refusing to store invoice " ++ rec.id ++ ": " ++ why))
  if rec.id = "" then
    throw (.refused "refusing to store an invoice with no id")
  if rec.network ≠ some "bitcoin" ∧ rec.network ≠ some "testnet4" then
    refuse ("network must be \"bitcoin\" or \"testnet4\", not " ++
      (rec.network.map fun n => "\"" ++ n ++ "\"").getD "undefined" ++
      ". An invoice that does not name its chain cannot be settled.")
  match rec.addressRecord with
  | some ⟨some signed, some address, _⟩ =>
    if signed = "" ∨ address = "" then
      refuse ("an invoice must carry a signed address record, " ++
        "so the customer can check where their money is going without trusting this server.")
    if rec.address ≠ some address then
      refuse "the invoice address does not match the signed record"
  | _ =>
    refuse ("an invoice must carry a signed address record, " ++
      "so the customer can check where their money is going without trusting this server.")
  if !isInteger rec.amountSats || rec.amountSats.any (· ≤ 0) then
    refuse "amount_sats must be a positive whole number of satoshis"
  if !rec.rateUsd.any (0 < ·) then
    refuse "rate_usd must be a positive number"
  match rec.createdAt.parse, rec.rateAt.parse with
  | some created, some rateAt =>
    if maxAge < (created - rateAt).natAbs then
      refuse ("it was priced from a rate " ++ seconds (created - rateAt) ++
        "s away from its creation, beyond the " ++ seconds maxAge ++
        "s limit. A stale rate is a mispriced sale.")
  | _, _ => refuse "created_at and rate_at must both be timestamps"

end Mise.Server
