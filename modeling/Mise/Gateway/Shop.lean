import Mise.Js.JsonText
import Mise.Js.Table

set_option autoImplicit true

namespace Mise.Gateway.Shop

open Js

/-- `NETWORKS` -/
def networkNames : List String := ["bitcoin", "testnet4"]

/-- One network's half of the shop's identity; `none` is `null` or missing. -/
structure NetworkIdentity where
  paymentCode : Option String := none
  notificationAddress : Option String := none
  depositAddress : Option String := none
  receiverPaymentCode : Option String := none
  receiverNotificationAddress : Option String := none
  nymName : Option String := none
  nymId : Option String := none
  notificationTxid : Option String := none
  notificationSentAt : Option String := none
  dojo : Option Json := none

structure IdentityState where
  active : Json
  createdAt : String
  networks : Table NetworkIdentity

/-- What the shop's seed derives on one network. -/
structure Derived where
  paymentCode : String
  notificationAddress : String
  depositAddress : String

/-- The identities of the shop's seed, and the payment code library. -/
structure Wallet where
  createdAt : String
  derived : String → Derived
  /-- The notification address of a code on a network of the library, of which there may be no
  such; or what is wrong with the code. -/
  notificationAddress : Option String → String → Except String String

/-- What a request can throw. -/
inductive Fault where
  | typeError
  | message (text : String)
  deriving DecidableEq

/-- `s` as a condition. -/
def given (s : Option String) : Bool := s.any (· ≠ "")

section Load

variable (W : Wallet)

def blankBlock (n : String) : NetworkIdentity where
  paymentCode := some (W.derived n).paymentCode
  notificationAddress := some (W.derived n).notificationAddress
  depositAddress := some (W.derived n).depositAddress

/-- The seed derives another payment code than the state has for the network. -/
def disagrees (s : IdentityState) (n : String) : Bool :=
  let recorded := (s.networks.get n).bind NetworkIdentity.paymentCode
  given recorded && recorded ≠ some (W.derived n).paymentCode

/-- A block that an older state lacks, or whose deposit address it lacks, is added. -/
def backfill (t : Table NetworkIdentity) (n : String) : Table NetworkIdentity :=
  match t.get n with
  | none => t.set n (blankBlock W n)
  | some b =>
    if given b.depositAddress then t
    else t.set n { b with depositAddress := some (W.derived n).depositAddress }

def reseeded (s : IdentityState) (n : String) : Fault :=
  .message ("the store seed no longer derives the recorded " ++ n ++ " payment code (recorded " ++
    slice 12 (((s.networks.get n).bind NetworkIdentity.paymentCode).getD "") ++
    "…, seed derives " ++ slice 12 (W.derived n).paymentCode ++
    "…). Restore the original seed, or delete store-identity.json if this shop has never quoted an address.")

def backfillAll (t : Table NetworkIdentity) : Table NetworkIdentity :=
  networkNames.foldl (backfill W) t

def loadOrCreate : Option IdentityState → Except Fault IdentityState
  | none => .ok { active := .str "bitcoin", createdAt := W.createdAt, networks := backfillAll W {} }
  | some s =>
    match networkNames.find? (disagrees W s) with
    | some n => .error (reseeded W s n)
    | none => .ok { s with networks := backfillAll W s.networks }

/-- What a state file has of a state. -/
def reread (s : IdentityState) : IdentityState where
  active := s.active.reparsed
  createdAt := s.createdAt
  networks := s.networks.filterMap fun b => some { b with dojo := b.dojo.map Json.reparsed }

end Load

section Transform

variable (W : Wallet) (s : IdentityState)

/-- What is spread of the block that `state.networks[network]` finds: an inherited property has
nothing of its own. -/
def block : Found NetworkIdentity → NetworkIdentity
  | .own b => b
  | .inherited | .absent => {}

def ofThrow : Except Throw α → Except Fault α
  | .ok a => .ok a
  | .error .typeError => .error .typeError

/-- `{ ...state, networks: { ...state.networks, [network]: b } }` -/
def assign (key : String) (b : NetworkIdentity) : IdentityState :=
  { s with networks := s.networks.set key b }

def unknownNetwork (key : String) : Fault := .message ("unknown network: " ++ key)

/-- The property of the networks that a request names, and what is there. -/
def lookUp (network : Option Json) : Except Fault (String × NetworkIdentity) := do
  let key ← ofThrow (propertyKey network)
  let found := s.networks.find [] key
  if found.truthy then return (key, block found) else throw (unknownNetwork key)

/-- `LIB_NETWORK` -/
def libNetworks : Table String where
  entries := [("bitcoin", "bitcoin"), ("testnet4", "testnet"), ("regtest", "regtest")]

/-- The library's network, of which there is none for an inherited name. -/
def libNetwork (network : Option Json) (key : String) : Except String (Option String) :=
  match libNetworks.find [] key with
  | .own name => .ok (some name)
  | .inherited => .ok none
  | .absent => .error ("unknown network " ++ (network.map Json.stringify).getD "undefined" ++
      ": expected one of bitcoin, testnet4, regtest")

/-- `publicCode(code, network).getNotificationAddress()` -/
def notificationAddress (network : Option Json) (key code : String) : Except String String := do
  W.notificationAddress (← libNetwork network key) code

/-- `String(personalPaymentCode || "").trim()` -/
def trimmedCode (code : Option Json) : Except Throw String := (orEmpty code).text.map trim

/-- The notification of another receiver is on the chain. -/
def stranded (b : NetworkIdentity) (code : String) : Bool :=
  given b.notificationTxid && given b.receiverPaymentCode && b.receiverPaymentCode ≠ some code

def unusable (message : String) : Fault :=
  .message ("that is not a usable BIP47 payment code: " ++ message)

def ownCode : Fault :=
  .message ("the receiver cannot be the shop's own payment code: " ++
    "a shop paying itself derives nothing the operator can spend")

def alreadyNotified (key : String) : Fault :=
  .message ("the " ++ key ++ " notification transaction for the current receiver is already on-chain; " ++
    "changing the receiver now would strand it. Start a new shop identity instead.")

def bindReceiver (network personalPaymentCode : Option Json) : Except Fault IdentityState := do
  let (key, b) ← lookUp s network
  let code ← ofThrow (trimmedCode personalPaymentCode)
  match notificationAddress W network key code with
  | .error message => throw (unusable message)
  | .ok address =>
    if b.paymentCode = some code then throw ownCode
    if stranded b code then throw (alreadyNotified key)
    return assign s key
      { b with receiverPaymentCode := some code, receiverNotificationAddress := some address }

def setDojo (network dojo : Option Json) : Except Fault IdentityState := do
  let (key, b) ← lookUp s network
  return assign s key { b with dojo }

def setActive (network : Option Json) : Except Fault IdentityState := do
  let _ ← lookUp s network
  return { s with active := network.getD .null }

end Transform

section Handle

/-- `req && req.op` -/
def opOf (req : Json) : Option Json :=
  if req.truthy then (req.get "op").toOption.join else some req

def field (k : String) (req : Json) : Option Json := (req.get k).toOption.join

def isOp (req : Json) (name : String) : Bool :=
  match opOf req with
  | some (.str op) => op = name
  | _ => false

/-- What the requests that change the shop do; the others read it. -/
def transform (W : Wallet) (s : IdentityState) (req : Json) : Except Fault IdentityState :=
  if isOp req "bind-receiver" then bindReceiver W s (field "network" req) (field "code" req)
  else if isOp req "set-active" then setActive s (field "network" req)
  else if isOp req "set-dojo" then setDojo s (field "network" req) (field "dojo" req)
  else .ok s

/-- The state that the shop holds after a request, also where it could not be saved. -/
def after (W : Wallet) (s : IdentityState) (req : Json) : IdentityState :=
  match transform W s req with
  | .ok t => t
  | .error _ => s

/-- The states of a shop that is sent the requests one after the other. -/
def states (W : Wallet) : IdentityState → List Json → List IdentityState
  | s, [] => [s]
  | s, req :: reqs => s :: states W (after W s req) reqs

end Handle

section Steps

variable {W : Wallet} {s t : IdentityState} {network code dojo : Option Json} {key : String}
  {b : NetworkIdentity}

/-- The network of a request is a property of the table, or a name that every object inherits. -/
theorem lookUp_ok (h : lookUp s network = .ok (key, b)) : propertyKey network = .ok key ∧
    (s.networks.get key = some b ∨
      s.networks.get key = none ∧ key ∈ objectPrototype ∧ b = {}) := by
  unfold lookUp at h
  cases hk : propertyKey network with
  | error e =>
    cases e
    rw [hk] at h
    cases h
  | ok k =>
    rw [hk] at h
    simp only [ofThrow, bind, Except.bind] at h
    obtain ⟨v, hfind, hget⟩ | ⟨hfind, hget⟩ | ⟨hfind, hget⟩ := Table.find_cases [] s.networks k
    · rw [hfind] at h
      cases h
      exact ⟨rfl, .inl hget⟩
    · rw [hfind] at h
      cases h
      refine ⟨rfl, .inr ⟨hget, ?_, rfl⟩⟩
      by_contra hproto
      rw [Table.find_ofOption (by simpa using hproto), hget] at hfind
      cases hfind
    · rw [hfind] at h
      cases h

theorem lookUp_own (hk : propertyKey network = .ok key) (hget : s.networks.get key = some b) :
    lookUp s network = .ok (key, b) := by
  unfold lookUp Table.find
  rw [hk, ofThrow]
  simp only [bind, Except.bind]
  rw [hget]
  rfl

theorem lookUp_inherited (hk : propertyKey network = .ok key) (hget : s.networks.get key = none)
    (hproto : key ∈ objectPrototype) : lookUp s network = .ok (key, {}) := by
  unfold lookUp
  rw [hk, ofThrow]
  simp only [bind, Except.bind]
  rw [Table.find_inherited hproto hget]
  rfl

theorem setActive_ok (h : setActive s network = .ok t) :
    (∃ key b, lookUp s network = .ok (key, b)) ∧ t = { s with active := network.getD .null } := by
  unfold setActive at h
  cases hl : lookUp s network with
  | error e =>
    rw [hl] at h
    cases h
  | ok x =>
    rw [hl] at h
    cases h
    exact ⟨⟨x.1, x.2, rfl⟩, rfl⟩

theorem setDojo_ok (h : setDojo s network dojo = .ok t) :
    ∃ key b, lookUp s network = .ok (key, b) ∧ t = assign s key { b with dojo } := by
  unfold setDojo at h
  cases hl : lookUp s network with
  | error e =>
    rw [hl] at h
    cases h
  | ok x =>
    rw [hl] at h
    cases h
    exact ⟨x.1, x.2, rfl, rfl⟩

/-- A receiver that is bound is a usable code, not the one of its own block, and strands none. -/
structure Binds (W : Wallet) (s : IdentityState) (network personalPaymentCode : Option Json)
    (key : String) (b : NetworkIdentity) (code address : String) : Prop where
  found : lookUp s network = .ok (key, b)
  trimmed : trimmedCode personalPaymentCode = .ok code
  usable : notificationAddress W network key code = .ok address
  notOwn : b.paymentCode ≠ some code
  notStranded : stranded b code = false

theorem bindReceiver_ok (h : bindReceiver W s network code = .ok t) :
    ∃ key b c address, Binds W s network code key b c address ∧ t = assign s key
      { b with receiverPaymentCode := some c, receiverNotificationAddress := some address } := by
  unfold bindReceiver at h
  cases hl : lookUp s network with
  | error e =>
    rw [hl] at h
    cases h
  | ok x =>
    obtain ⟨key, b⟩ := x
    rw [hl] at h
    cases hc : trimmedCode code with
    | error e =>
      cases e
      rw [hc] at h
      cases h
    | ok c =>
      rw [hc] at h
      simp only [ofThrow, bind, Except.bind] at h
      split at h
      · cases h
      · next address ha =>
        split at h
        · cases h
        · next hown =>
          split at h
          · cases h
          · next hstranded =>
            cases h
            exact ⟨key, b, c, address, ⟨hl, hc, ha, hown, by simpa using hstranded⟩, rfl⟩

theorem bindReceiver_binds {c address : String} (h : Binds W s network code key b c address) :
    bindReceiver W s network code = .ok (assign s key
      { b with receiverPaymentCode := some c, receiverNotificationAddress := some address }) := by
  unfold bindReceiver
  rw [h.found, h.trimmed]
  simp only [ofThrow, bind, Except.bind]
  rw [h.usable]
  simp only [if_neg h.notOwn, h.notStranded, Bool.false_eq_true, if_false]
  rfl

end Steps

end Mise.Gateway.Shop
