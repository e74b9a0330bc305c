import Mise.Gateway.Shop

set_option autoImplicit true

namespace Mise.Gateway

open Js
open Shop (IdentityState given libNetwork)

inductive AddressType where
  | p2pkh
  | p2sh
  | p2wpkh
  deriving DecidableEq

def AddressType.text : AddressType → String
  | p2pkh => "p2pkh"
  | p2sh => "p2sh"
  | p2wpkh => "p2wpkh"

/-- `DEFAULT_ADDRESS_TYPE` -/
def defaultAddressType : AddressType := .p2wpkh

/-- `ADDRESS_TYPES` -/
def addressTypes : List AddressType := [.p2pkh, .p2sh, .p2wpkh]

/-- The setting is read without the white space around it, and a blank one is unset. -/
def parseAddressType (value : Option String) : Except Shop.Fault AddressType :=
  let v := trim (value.getD "")
  if v = "" then .ok defaultAddressType
  else
    match addressTypes.find? fun t => t.text = v with
    | some t => .ok t
    | none => .error (.message ("unknown address type " ++ (Json.str v).stringify ++
        ": expected one of " ++ ", ".intercalate (addressTypes.map AddressType.text)))

/-- A store identity: what holds its keys, and the network that they are for. -/
structure Identity (κ : Type) where
  code : κ
  network : String

/-- What the payment code library and the signing of messages do with the keys of an identity. -/
structure Keys (κ : Type) where
  paymentCode : κ → String
  /-- `publicCode(personal, network).getPaymentAddress(store, index, type)`, on a network of the
  library. -/
  paymentAddress : Option String → String → κ → Int → AddressType → Except String String
  /-- The signature of a text under the notification key. -/
  sign : κ → String → Except String String

/-- An address record before it is signed. -/
structure AddressRecord where
  v : Nat := 1
  address : String
  index : Int
  type : AddressType
  network : Json
  paymentCode : String

structure SignedAddress extends AddressRecord where
  signed : String

def canonicalAddress (r : AddressRecord) : String :=
  (Json.obj [("v", .num (toString r.v)), ("address", .str r.address), ("index", .num (toString r.index)),
    ("type", .str r.type.text), ("network", r.network), ("paymentCode", .str r.paymentCode)]).stringify

section Records

variable {κ : Type} (K : Keys κ)

def ofMessage : Except String α → Except Shop.Fault α
  | .ok a => .ok a
  | .error message => .error (.message message)

def addressFor (store : κ) (personal : String) (index : Int) (type : AddressType) (network : Json) :
    Except Shop.Fault String := do
  if index < 0 then
    throw (.message ("refusing to derive at index " ++ toString index ++
      ": must be a non-negative integer"))
  let key ← Shop.ofThrow network.text
  let net ← ofMessage (libNetwork (some network) key)
  ofMessage (K.paymentAddress net personal store index type)

def signAddress (id : Identity κ) (r : AddressRecord) : Except Shop.Fault SignedAddress := do
  let signed ← ofMessage (K.sign id.code (canonicalAddress r))
  return { r with signed }

end Records

/-- What a handler is built from: a shop with its identity and its index store for each network, or
one identity with one index store. -/
inductive Wiring (κ σ : Type) where
  | shop (state : IdentityState) (identities : Table (Identity κ)) (indexStores : Table σ)
  | wallet (identity : Identity κ) (indexStore : σ)

structure Handler (κ σ : Type) where
  wiring : Wiring κ σ
  personalCode : Option String
  addressType : AddressType := defaultAddressType

/-- The chain that a request runs on. -/
structure Active (κ σ : Type) where
  id : Identity κ
  network : Json
  store : σ

namespace Handler

variable {κ σ : Type} (K : Keys κ)

/-- The gateway's own handler, with the address type that the environment sets. -/
def start (addressType : Option String) (wiring : Wiring κ σ) (personalCode : Option String) :
    Except Shop.Fault (Handler κ σ) := do
  return { wiring, personalCode, addressType := ← parseAddressType addressType }

/-- An inherited property is no identity and no store. -/
def active (h : Handler κ σ) : Except Shop.Fault (Active κ σ) :=
  match h.wiring with
  | .wallet identity indexStore => .ok ⟨identity, .str identity.network, indexStore⟩
  | .shop state identities indexStores => do
    let key ← Shop.ofThrow state.active.text
    match identities.find [] key, indexStores.find [] key with
    | .own id, .own store => return ⟨id, state.active, store⟩
    | .absent, _ | _, .absent =>
      throw (.message ("this gateway has no identity or index store for " ++ key))
    | _, _ => throw .typeError

/-- The receiver that the shop has for the network, or else the one of the environment. -/
def receiver (h : Handler κ σ) (network : Json) : Option String :=
  let bound : Option String :=
    match h.wiring, network.text with
    | .shop state _ _, .ok key =>
      match state.networks.find [] key with
      | .own b => b.receiverPaymentCode
      | .inherited | .absent => none
    | _, _ => none
  if given bound then bound else if given h.personalCode then h.personalCode else none

def needReceiver (network : Json) : Shop.Fault :=
  .message ("this shop has no receiver yet: bind the operator's personal payment code for " ++
    (network.text.toOption.getD "") ++
    " before asking for an address, or every payment would derive on a chain nobody owns")

def recordFor (h : Handler κ σ) (cur : Active κ σ) (index : Int) (personal : String) :
    Except Shop.Fault SignedAddress := do
  let address ← addressFor K cur.id.code personal index h.addressType cur.network
  signAddress K cur.id
    { address
      index
      type := h.addressType
      network := cur.network
      paymentCode := K.paymentCode cur.id.code }

/-- `allocate` is what the index store answers. -/
def next (allocate : σ → Except Shop.Fault Int) (h : Handler κ σ) : Except Shop.Fault SignedAddress := do
  let cur ← h.active
  match h.receiver cur.network with
  | none => throw (needReceiver cur.network)
  | some personal =>
    let index ← allocate cur.store
    h.recordFor K cur index personal

/-- `index` is the integer of the request, if it has one. -/
def peek (h : Handler κ σ) (index : Option Int) : Except Shop.Fault SignedAddress := do
  let cur ← h.active
  match h.receiver cur.network with
  | none => throw (needReceiver cur.network)
  | some personal =>
    match index with
    | none => throw (.message "peek needs a non-negative integer index")
    | some index =>
      if index < 0 then throw (.message "peek needs a non-negative integer index")
      h.recordFor K cur index personal

end Handler

end Mise.Gateway
