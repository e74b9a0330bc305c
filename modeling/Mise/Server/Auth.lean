import Mise.Server.World

set_option autoImplicit true

namespace Mise.Server

open Js

/-- What the Auth47 library and `URL` say of a posted proof: whether the library accepts it at a
time, and then its `nym`; the `r` parameter and the host name of its challenge; and whether two
texts name one resource. -/
structure Auth47 where
  verifyProof : Json → Int → Except String (Option String)
  resource : Json → Option String
  hostname : Json → Option String
  sameResource : String → String → Bool

/-- The library accepts only proofs over a challenge with an alphanumeric nonce, which is then
the host name of the challenge. -/
def Auth47.Documented (lib : Auth47) : Prop :=
  ∀ proof now nym, lib.verifyProof proof now = .ok nym →
    ∃ nonce, lib.hostname proof = some nonce ∧ ∀ c ∈ nonce.toList, c.isAlphanum

/-- `makeAuth47(...).verify` -/
def Auth47.verify (lib : Auth47) (expectedResource : String) (proof : Json) (now : Int) :
    Except String String :=
  if expectedResource = "" then
    .error "internal: no expected resource supplied, refusing to verify an unbound proof"
  else match lib.verifyProof proof now with
    | .error e => .error e
    | .ok nym =>
      let resource := (lib.resource proof).getD ""
      if resource = "" ∨ ¬ lib.sameResource resource expectedResource then
        .error ("proof was signed for a different site (" ++
          (if resource = "" then "no resource" else resource) ++ "), not this one")
      else if nym.getD "" = "" then
        .error ("proof does not carry a payment code " ++
          "(an address proof cannot identify an operator)")
      else .ok (nym.getD "")

/-- What happens to nonces and sessions, by which request. -/
inductive Login where
  | issued (i : Nat) (nonce : String) (expires : Int)
  | consumed (i : Nat) (nonce : String)
  /-- The session `sid` was created for a proof over the nonce `nonce`, which was judged at `now`. -/
  | session (i : Nat) (proof : Json) (nonce sid paymentCode : String) (now : Int)

def nonceTtl : Int := 5 * 60 * 1000

def sessionTtl : Int := 12 * 60 * 60 * 1000

/-- A request of the login; `body` is `none` where it is not JSON. -/
inductive AuthRequest where
  | challenge (now : Int)
  | callback (body : Option Json)
  | poll (nonce : String)

section Routes

variable (lib : Auth47) (baseUrl : String)

/-- `POST /api/auth47/challenge` -/
def challenge (i : Nat) (now : Int) : Action Login Response := do
  let (_, a) ← awaiting (gcNonces now)
  let nonce := hex 16 a.random
  let expires := a.clock + nonceTtl
  let _ ← awaiting (putNonce nonce { expires } [.issued i nonce expires])
  return ⟨200, none⟩

/-- `POST /api/auth47/callback` -/
def callback (i : Nat) (body : Option Json) : Action Login Response := do
  let a ← Async.wait                                   -- readBody
  let some proof := body | return ⟨400, some "invalid JSON"⟩
  match lib.verify baseUrl proof a.clock with
  | .error e => return ⟨401, some e⟩
  | .ok paymentCode =>
    let nonce := (lib.hostname proof).getD ""
    if nonce = "" then return ⟨401, some "unknown or expired nonce"⟩
    let (found, a) ← awaiting (takeNonce nonce [.consumed i nonce])
    match found with
    | .absent => return ⟨401, some "unknown or expired nonce"⟩
    | .inherited => claim i proof nonce paymentCode a
    | .own n =>
      if n.expires < a.clock then return ⟨401, some "challenge expired"⟩
      claim i proof nonce paymentCode a
where
  /-- The session for a nonce that has been taken, and its claim for the poll. -/
  claim (i : Nat) (proof : Json) (nonce paymentCode : String) (a : Answer) :
      Action Login Response := do
    let sid := hex 32 a.random
    let _ ← awaiting (putSession sid ⟨some paymentCode, a.clock + sessionTtl⟩
      [.session i proof nonce sid paymentCode a.clock])
    let _ ← awaiting (putNonce ("claimed:" ++ nonce) { expires := a.clock + nonceTtl, sid := some sid })
    return ⟨200, none⟩

/-- `GET /api/auth47/poll` -/
def poll (nonce : String) : Action Login Response := do
  let _ ← awaiting (takeNonce ("claimed:" ++ nonce))
  return ⟨200, none⟩

def authRoute (i : Nat) : AuthRequest → Action Login Response
  | .challenge now => handled (challenge i now)
  | .callback body => handled (callback lib baseUrl i body)
  | .poll nonce => handled (poll nonce)

end Routes

end Mise.Server
