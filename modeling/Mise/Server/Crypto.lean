import Mise.Js.JsonLaws
import Mise.Server.Routes

set_option autoImplicit true

namespace Mise.Server

open Js

section Texts

/-- What stands before and after the first occurrence of a text. -/
def cut (mark : List Char) : List Char → Option (List Char × List Char)
  | [] => if mark = [] then some ([], []) else none
  | c :: cs =>
    if mark.isPrefixOf (c :: cs) then some ([], (c :: cs).drop mark.length)
    else (cut mark cs).map fun x => (c :: x.1, x.2)

/-- `.replace(/\r\n/g, "\n")` -/
def lineFeeds : List Char → List Char
  | '\r' :: '\n' :: cs => '\n' :: lineFeeds cs
  | c :: cs => c :: lineFeeds cs
  | [] => []

def isBase64 (c : Char) : Bool := c.isAlphanum || c = '+' || c = '/' || c = '='

/-- `/Address:\s*(\S+)/` -/
def addressLine (cs : List Char) : Option (List Char) := do
  let (_, cs) ← cut "Address:".toList cs
  let address := (trimStart cs).takeWhile (!isSpace ·)
  if address = [] then none else return address

/-- The first line of 80 or more base64 characters after which the text `ends`. -/
def signatureLine (ends : List Char → Bool) : List Char → Option (List Char)
  | [] => none
  | c :: cs =>
    if c = '\n' ∧ 80 ≤ (cs.takeWhile isBase64).length ∧ ends (cs.dropWhile isBase64) then
      some (cs.takeWhile isBase64)
    else signatureLine ends cs

def endMark : List Char := "-----END BITCOIN SIGNATURE".toList

/-- `/^\s*BIP47:\s*\n?(\S+)$/` -/
def codeLine (cs : List Char) : Option (List Char) :=
  let cs := trimStart cs
  if "BIP47:".toList.isPrefixOf cs then
    let code := trimStart (cs.drop 6)
    if code ≠ [] ∧ code.all (!isSpace ·) then some code else none
  else none

/-- `/^([\s\S]*?)\n\s*BIP47:\s*\n?(\S+)$/` -/
def codeTail : List Char → Option (List Char × List Char)
  | [] => none
  | c :: cs =>
    match if c = '\n' then codeLine cs else none with
    | some code => some ([], code)
    | none => (codeTail cs).map fun x => (c :: x.1, x.2)

end Texts

/-- The parts of a signed block that a wallet has exported. -/
structure ParsedBlock where
  /-- What the signature covers. -/
  message : String
  /-- The pairing payload alone. -/
  pairingText : String
  /-- The payment code that the message names, where it names one. -/
  paymentCode : Option String
  address : String
  signature : String
  deriving DecidableEq

def parseSignedBlock (text : String) : Option ParsedBlock := do
  let t := lineFeeds text.toList
  let (_, inner) ← cut "BEGIN BITCOIN SIGNED MESSAGE-----\n".toList t
  let (inner, _) ← cut "\n-----BEGIN BITCOIN SIGNATURE".toList inner
  let address ← addressLine t
  let signature ← signatureLine (('\n' :: endMark).isPrefixOf ·) t
  let message := trim (String.ofList inner)
  let tail := codeTail message.toList
  return {
    message
    pairingText := tail.elim message fun x => trim (String.ofList x.1)
    paymentCode := tail.map fun x => String.ofList x.2
    address := trim (String.ofList address)
    signature := trim (String.ofList signature) }

/-- `JSON.stringify({ pairing, explorer })`, without a key that has no value. -/
def canonicalPairing (payload : Payload) : String :=
  (Json.obj ((payload.pairing.map ("pairing", ·)).toList ++
    (payload.explorer.map ("explorer", ·)).toList)).stringify

/-- What a signature can cover of a payload that a document gives. -/
def Payload.given : Option Json → Payload
  | some (.obj fields) => ⟨fields.lookup "pairing", fields.lookup "explorer"⟩
  | _ => {}

section Stable

variable (T : TextForm)

mutual

/-- `stableStringify(v)` -/
def stableStringify : Json → List Char
  | .arr vs => '[' :: [','].intercalate (stableElements vs) ++ [']']
  | .obj fields =>
    let sorted := (stableMembers fields).mergeSort fun x y =>
      decide (T.units x.1 ≤ T.units y.1)
    '\x7b' :: [','].intercalate (sorted.map fun x => quote T x.1 ++ ':' :: x.2) ++ ['\x7d']
  | .null => Json.null.chars T
  | .bool b => (Json.bool b).chars T
  | .num t => (Json.num t).chars T
  | .str s => (Json.str s).chars T

def stableElements : List Json → List (List Char)
  | [] => []
  | v :: vs => stableStringify v :: stableElements vs

def stableMembers : List (String × Json) → List (String × List Char)
  | [] => []
  | (k, v) :: fields => (k, stableStringify v) :: stableMembers fields

end

end Stable

/-- What the libraries of `crypto.ts` compute, and the numbers of the language. -/
structure Crypto where
  numbers : NumberText
  messagePrefix : Network → String
  samePrefix : messagePrefix .testnet = messagePrefix .mainnet
  /-- `message.verify`, of a message, an address, a signature and a prefix; or the message of
  what it throws. -/
  verify : String → String → String → String → Except String Bool
  /-- `notificationAddress`, where it does not throw. -/
  notificationAddress : String → Network → Option String

namespace Crypto

variable (c : Crypto)

/-- `JSON.parse` -/
def parse (text : String) : Option Json := Js.parse c.numbers.text text

/-- Of two texts that are kept in the form `T`. -/
def sameSignedPayload (T : TextForm) (signedText expected : String) : Bool :=
  let a := trim signedText
  let b := trim expected
  if a = b then true
  else match parseIn T c.numbers.text a, parseIn T c.numbers.text b with
    | some pa, some pb => stableStringify T pa = stableStringify T pb
    | _, _ => false

def notificationAddresses (paymentCode : String) : List String :=
  unique ([.mainnet, .testnet].filterMap (c.notificationAddress paymentCode))

/-- The signing address and the payment code inside the message, or what is wrong with a block. -/
def verifySignedPayload (signedText : String) (expectedMessage : Option String)
    (expectedAddress : Option (List String)) (network : Network) :
    Except String (String × Option String) :=
  match parseSignedBlock signedText with
  | none => .error "unrecognised signed message format"
  | some parsed =>
    if expectedMessage.any fun m => !c.sameSignedPayload .scalars parsed.pairingText m then
      .error "signed message does not match the submitted pairing code"
    else match c.verify parsed.message parsed.address parsed.signature (c.messagePrefix network) with
      | .error e => .error ("signature could not be verified (" ++ e ++ ")")
      | .ok false => .error "invalid signature"
      | .ok true =>
        if parsed.paymentCode.any fun code => c.notificationAddresses code = [] then
          .error ("signature is valid, but the BIP47 line inside the signed message is not a " ++
            "valid payment code")
        else if parsed.paymentCode.any fun code =>
            parsed.address ∉ c.notificationAddresses code then
          .error ("signature is valid, but the signing address is not the notification address " ++
            "of the payment code inside the message")
        else if expectedAddress.any (parsed.address ∉ ·) then
          .error "signed by a different address than the authenticated payment code"
        else .ok (parsed.address, parsed.paymentCode)

/-- `/BIP47:\s*(PM8T[1-9A-HJ-NP-Za-km-z]+)/` -/
def declaredCode : List Char → Option (List Char)
  | [] => none
  | ch :: cs =>
    let code := trimStart ((ch :: cs).drop 6)
    let rest := (code.drop 4).takeWhile fun d => d.isAlphanum && d ∉ ['0', 'I', 'O', 'l']
    if "BIP47:".toList.isPrefixOf (ch :: cs) ∧ "PM8T".toList.isPrefixOf code ∧ rest ≠ [] then
      some ("PM8T".toList ++ rest)
    else declaredCode cs

/-- Without the line feeds at the end. -/
def trimLines (cs : List Char) : List Char := (cs.reverse.dropWhile (· = '\n')).reverse

/-- A text without its `BIP47:` line and what follows it, and without the empty lines before it. -/
def withoutCode (inner : List Char) : List Char :=
  match cut "BIP47:".toList inner with
  | some (json, _) =>
    trimLines (json.reverse.dropWhile fun d => d = ' ' || d = '\t').reverse
  | none => trimLines inner

/-- `/SIGNED MESSAGE-----[ \t]*\n/`, and what follows it. -/
def openMark : List Char → Option (List Char)
  | [] => none
  | ch :: cs =>
    let mark := "SIGNED MESSAGE-----".toList
    match ((ch :: cs).drop mark.length).dropWhile fun d => d = ' ' || d = '\t' with
    | '\n' :: inner => if mark.isPrefixOf (ch :: cs) then some inner else openMark cs
    | _ => openMark cs

def restored : String := "a blank line before the BIP47 line was restored"

/-- What the wallet may have signed, and what was mended. -/
def candidates (inner json : String) : Option String → List (Option String × String)
  | none => [(none, inner)]
  | some code => [(none, inner), (some restored, json ++ "\n\nBIP47: " ++ code),
      (some restored, json ++ "\n\nBIP47:\n" ++ code)]

/-- A block as it is written after a repair. -/
def signedBlock (message address signature : String) : String :=
  "-----BEGIN BITCOIN SIGNED MESSAGE-----\n" ++ message ++
    "\n-----BEGIN BITCOIN SIGNATURE-----\nVersion: Bitcoin-qt (1.0)\nAddress: " ++ address ++
    "\n\n" ++ signature ++ "\n-----END BITCOIN SIGNATURE-----"

/-- The block with its blank lines mended, and what was mended, where a candidate verifies. -/
def repairSignedBlock (text : String) : Option (String × Option String) := do
  let raw := lineFeeds text.toList
  let address ← addressLine raw
  let signature ← signatureLine (fun cs => endMark.isPrefixOf (cs.dropWhile (· = '\n'))) raw
  let (inner, _) ← cut "\n-----BEGIN BITCOIN SIGNATURE".toList (← openMark raw)
  let address := trim (String.ofList address)
  let signature := trim (String.ofList signature)
  let code := (declaredCode inner).map String.ofList
  if code.any fun code => address ∉ c.notificationAddresses code then none
  else
    let accepted := (candidates (String.ofList inner) (String.ofList (withoutCode inner)) code).find?
      fun x => c.verify x.2 address signature (c.messagePrefix .mainnet) matches .ok true
    return (signedBlock (← accepted).2 address signature, (← accepted).1)

/-- `.replace(/\/+$/, "")` -/
def trimSlashes (s : String) : String :=
  String.ofList (s.toList.reverse.dropWhile (· = '/')).reverse

/-- `/BEGIN BITCOIN SIGNED MESSAGE-----[ \t]*\n?([\s\S]*?)\n-----BEGIN BITCOIN SIGNATURE/` -/
def claimPart (cs : List Char) : Option (List Char) := do
  let mark := "\n-----BEGIN BITCOIN SIGNATURE".toList
  let (_, rest) ← cut "BEGIN BITCOIN SIGNED MESSAGE-----".toList cs
  let rest := rest.dropWhile fun d => d = ' ' || d = '\t'
  match cut mark (if rest.head? = some '\n' then rest.tail else rest) with
  | some (inner, _) => return inner
  | none => if mark.isPrefixOf rest then return [] else none

/-- The parts that a block lacks. -/
def missingParts (message address signature : Option (List Char)) : String :=
  ", ".intercalate (
    (if message.isNone then ["the BEGIN BITCOIN SIGNED MESSAGE section"] else []) ++
    (if address.isNone then ["the Address: line"] else []) ++
    if signature.isNone then ["the signature line before END BITCOIN SIGNATURE"] else [])

/-- `String(u || "").trim().replace(/\/+$/, "")` -/
def plainUrl (u : Option Json) : Except Throw String :=
  (orEmpty u).text.map fun t => trimSlashes (trim t)

/-- The signer of an instance's operator document, or what is wrong with it. -/
def verifyOperatorDoc (doc : Json) (expectedOnion : String) : Except Throw (Except String String) := do
  unless doc matches .obj _ | .arr _ do return .error "operator.json missing or unreadable"
  let paymentCode ← doc.get "paymentCode"
  unless truthy paymentCode do return .error "operator.json has no paymentCode"
  let verifySigned ← doc.get "verifySigned"
  unless truthy verifySigned do return .error "operator.json has no verifySigned block"
  let t := lineFeeds (← (orEmpty verifySigned).text).toList
  let message := claimPart t
  let address := addressLine t
  let signature := signatureLine (fun cs => endMark.isPrefixOf (cs.dropWhile (· = '\n'))) t
  match message, address, signature with
  | some message, some address, some signature =>
    let message := trimLines message
    let firstLine := trim (String.ofList (message.takeWhile (· ≠ '\n')))
    let onion ← plainUrl (← doc.get "onion")
    if trimSlashes firstLine ≠ onion then
      return .error "signed message does not match the declared onion"
    if onion ≠ trimSlashes (trim expectedOnion) then
      return .error "declared onion does not match the address this document was fetched from"
    match (declaredCode message).map String.ofList, paymentCode with
    | some code, some (.str declared) =>
      if code ≠ declared then return .error undeclared
      let signer := trim (String.ofList address)
      let accept := c.notificationAddresses code
      if signer ∉ accept then
        let expected := match accept with
          | main :: test :: _ => main ++ " on mainnet, or " ++ test ++ " from a testnet wallet"
          | [main] => (orNull main).getD undecoded
          | [] => undecoded
        return .error ("signed by " ++ signer ++ ", but the payment code's notification address is " ++
          expected ++ " — sign under PayNym → Sign message, which uses your PayNym's notification " ++
          "address")
      match c.verify (String.ofList message) signer (trim (String.ofList signature))
          (c.messagePrefix .mainnet) with
      | .ok true => return .ok signer
      | .ok false => return .error "invalid signature"
      | .error e => return .error ("signature could not be verified (" ++ e ++ ")")
    | _, _ => return .error undeclared
  | _, _, _ => return .error ("verifySigned is not a recognisable signed block (missing " ++
      missingParts message address signature ++ ") — the paste may have been truncated; " ++
      "paste the whole block again")
where
  undeclared : String :=
    "the BIP47 line inside the signed message does not match the declared payment code"
  undecoded : String := "(the code could not be decoded)"

/-- The gates of a server that checks signatures with these libraries. -/
def gates (g : Gates) : Gates where
  __ := g
  repairSignedBlock text := (c.repairSignedBlock text).map Prod.fst
  verifySignedPayload block payload pc network :=
    match c.verifySignedPayload block (some (canonicalPairing (.given payload)))
        (some (pc.elim [] c.notificationAddresses)) network with
    | .ok _ => none
    | .error e => some e

end Crypto

/-- What an audit says of a record. -/
inductive AuditBucket where
  | verified
  | failed
  | unsigned
  deriving DecidableEq

section Audit

variable (c : Crypto) (rec : StoreRecord) (signed : String)

/-- The loop of `auditRecord` over the codes of the record; `tried` is what the earlier codes gave. -/
def auditCodes : List String → List String → AuditBucket × String
  | [], tried => (.failed, "\n           ".intercalate tried)
  | code :: codes, tried =>
    match c.notificationAddresses code with
    | [] => auditCodes codes (tried ++ [slice 12 code ++ "…: undecodable code"])
    | addr :: addrs =>
      match c.verifySignedPayload signed (some (canonicalPairing rec.payload)) (some (addr :: addrs))
          rec.network with
      | .ok _ => (.verified, slice 12 code ++ "… → " ++ addr)
      | .error e => auditCodes codes
          (tried ++ [slice 12 code ++ "… (" ++ " / ".intercalate (addr :: addrs) ++ "): " ++ e])

/-- `auditRecord`: the bucket and the detail. -/
def Crypto.auditRecord : AuditBucket × String :=
  match present rec.signed with
  | none => (.unsigned, if rec.codes = [] then "no signed block and no payment code"
      else "record has a payment code but no signed block")
  | some signed =>
    if rec.codes = [] then
      match c.verifySignedPayload signed (some (canonicalPairing rec.payload)) none rec.network with
      | .ok _ => (.failed, "signature is internally valid but the record carries no payment code " ++
          "to bind it to")
      | .error e => (.failed, e)
    else auditCodes c rec signed rec.codes []

end Audit

end Mise.Server
