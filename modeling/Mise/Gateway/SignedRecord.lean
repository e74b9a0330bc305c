import Mise.Gateway.AddressPool
import Mise.Js.Canonical

set_option autoImplicit true

namespace Mise.Gateway

open Js
open Shop (libNetwork libNetworks)

/-- What a customer checks a record with: the notification address of a payment code on a network of
the library, and the signature of a text under an address. -/
structure Verifier where
  notificationAddress : Option String → String → Except String String
  /-- `message.verify`, of a text, an address and whatever the record has for a signature. -/
  verify : String → String → Option Json → Except String Bool

/-- The properties that a signature covers, in their order. -/
def recordKeys : List String := ["v", "address", "index", "type", "network", "paymentCode"]

/-- `canonicalAddress(rec)`, of a record that may lack some of its properties. -/
def canonicalText (rec : List (String × Json)) : String :=
  (Json.obj (recordKeys.filterMap fun k => (rec.lookup k).map (k, ·))).stringify

def isNumber (t : String) : Option Json → Bool
  | some (.num u) => u = t
  | _ => false

def isText (s : String) : Option Json → Bool
  | some (.str t) => t = s
  | _ => false

namespace Verifier

variable (V : Verifier)

/-- `publicCode(code, network).getNotificationAddress()`, or what it throws. -/
def addressOf (code : String) (network : Json) : Except Shop.Fault String := do
  let key ← Shop.ofThrow network.text
  let net ← ofMessage (libNetwork (some network) key)
  ofMessage (V.notificationAddress net code)

/-- Whether a record is signed for the payment code, or what is wrong with it. -/
def verifySignedAddress (rec : Json) (expected : String) : Except Throw (Except String Unit) :=
  match rec with
  | .null | .bool _ | .num _ | .str _ => .ok (.error "no address record")
  | .arr _ => checked []
  | .obj fields => checked fields
where
  checked (rec : List (String × Json)) : Except Throw (Except String Unit) := do
    unless isNumber "1" (rec.lookup "v") do
      return .error ("unsupported record version " ++ (← propertyKey (rec.lookup "v")))
    if expected = "" then
      return .error "internal: no expected payment code, refusing to verify an unbound record"
    unless isText expected (rec.lookup "paymentCode") do
      return .error "this address was signed by a different store than the one you are buying from"
    let network := ((rec.lookup "network").filter Json.truthy).getD (.str "bitcoin")
    match V.addressOf expected network with
    | .error _ => return .error "the expected payment code is not a valid BIP47 code"
    | .ok expectedAddress =>
      match V.verify (canonicalText rec) expectedAddress (rec.lookup "signed") with
      | .error e => return .error ("signature check failed: " ++ e)
      | .ok false => return .error "the signature does not match this address record"
      | .ok true => return .ok ()

/-- A record that is accepted has the code, and a signature that verifies under an address of it. -/
theorem verifySignedAddress_ok {V : Verifier} {rec : Json}
    (h : V.verifySignedAddress rec expected = .ok (.ok ())) :
    ∃ fields network address, rec = .obj fields ∧ isNumber "1" (fields.lookup "v") = true ∧
      isText expected (fields.lookup "paymentCode") = true ∧
      V.addressOf expected network = .ok address ∧
      V.verify (canonicalText fields) address (fields.lookup "signed") = .ok true := by
  have hchecked : ∀ fields, verifySignedAddress.checked V expected fields = .ok (.ok ()) →
      ∃ network address, isNumber "1" (fields.lookup "v") = true ∧
        isText expected (fields.lookup "paymentCode") = true ∧
        V.addressOf expected network = .ok address ∧
        V.verify (canonicalText fields) address (fields.lookup "signed") = .ok true := by
    intro fields h
    unfold verifySignedAddress.checked at h
    cases hv : isNumber "1" (fields.lookup "v") with
    | false =>
      rw [hv] at h
      cases hk : propertyKey (fields.lookup "v") <;> rw [hk] at h <;> cases h
    | true =>
      rw [hv] at h
      by_cases he : expected = ""
      · rw [if_pos he] at h
        cases h
      · rw [if_neg he] at h
        cases hc : isText expected (fields.lookup "paymentCode") with
        | false =>
          rw [hc] at h
          cases h
        | true =>
          rw [hc] at h
          cases ha : V.addressOf expected
              (((fields.lookup "network").filter Json.truthy).getD (.str "bitcoin")) with
          | error e =>
            simp only [ha] at h
            cases h
          | ok address =>
            simp only [ha] at h
            refine ⟨_, address, rfl, rfl, ha, ?_⟩
            cases hs : V.verify (canonicalText fields) address (fields.lookup "signed") with
            | error e =>
              simp only [hs] at h
              cases h
            | ok b =>
              cases b with
              | true => rfl
              | false =>
                simp only [hs] at h
                cases h
  cases rec with
  | obj fields =>
    obtain ⟨network, address, h⟩ := hchecked fields h
    exact ⟨fields, network, address, rfl, h⟩
  | arr vs =>
    obtain ⟨network, address, hv, -⟩ := hchecked [] h
    cases hv
  | null => cases h
  | bool b => cases h
  | num t => cases h
  | str s => cases h

theorem verifySignedAddress_signed {V : Verifier} {fields : List (String × Json)}
    (hv : isNumber "1" (fields.lookup "v") = true) (hne : expected ≠ "")
    (hcode : isText expected (fields.lookup "paymentCode") = true)
    (haddress : V.addressOf expected
      (((fields.lookup "network").filter Json.truthy).getD (.str "bitcoin")) = .ok address)
    (hverify : V.verify (canonicalText fields) address (fields.lookup "signed") = .ok true) :
    V.verifySignedAddress (.obj fields) expected = .ok (.ok ()) := by
  change verifySignedAddress.checked V expected fields = _
  unfold verifySignedAddress.checked
  rw [hv, if_neg hne, hcode]
  simp only [haddress, hverify]
  rfl

end Verifier

section Networks

/-- A text, or an array with nothing but such a value. -/
inductive Wrapped (s : String) : Json → Prop
  | text : Wrapped s (.str s)
  | array (h : Wrapped s v) : Wrapped s (.arr [v])

theorem Wrapped.eq_of_reparsed {v w : Json} (hv : Wrapped s v) (h : w.reparsed = v.reparsed) :
    w = v := by
  induction hv generalizing w with
  | text =>
    cases w with
    | str t => exact h
    | num t =>
      rw [Json.reparsed, Json.reparsed] at h
      split at h <;> cases h
    | null => cases h
    | bool b => cases h
    | arr vs => cases h
    | obj fields => cases h
  | array hv ih =>
    cases w with
    | arr ws =>
      have h : Json.reparsedAll ws = [Json.reparsed _] := Json.arr.inj h
      cases ws with
      | nil => cases h
      | cons w ws =>
        obtain ⟨hw, hws⟩ := List.cons.inj h
        cases ws with
        | nil => rw [ih hw]
        | cons x ws => cases hws
    | num t =>
      rw [Json.reparsed, Json.reparsed] at h
      split at h <;> cases h
    | null => cases h
    | bool b => cases h
    | str t => cases h
    | obj fields => cases h

/-- The names that `LIB_NETWORK[network]` finds something under. -/
def networkKeys : List String := libNetworks.entries.map Prod.fst ++ objectPrototype

theorem mem_networkKeys {network : Option Json} (h : libNetwork network key = .ok net) :
    key ∈ networkKeys := by
  unfold libNetwork at h
  unfold networkKeys
  cases hf : libNetworks.find [] key with
  | own name =>
    obtain ⟨name', -, hget⟩ | ⟨hi, -⟩ | ⟨ha, -⟩ := libNetworks.find_cases [] key
    · exact List.mem_append_left _ (List.mem_map_of_mem (Table.mem_of_lookup hget))
    · rw [hf] at hi
      cases hi
    · rw [hf] at ha
      cases ha
  | inherited =>
    unfold Table.find at hf
    split at hf
    · cases hf
    · split at hf
      · next hk => exact List.mem_append_right _ (by simpa using hk)
      · cases hf
  | absent =>
    rw [hf] at h
    cases h

/-- None of the names is how a value is written that is neither a text nor an array. -/
theorem networkKeys_plain : ∀ key ∈ networkKeys, key ≠ "" ∧ key ≠ "null" ∧ key ≠ "true" ∧
    key ≠ "false" ∧ key ≠ "[object Object]" ∧ finite key = true ∧
    numberLiteral key.toList ≠ some (key.toList, []) ∧ ',' ∉ key.toList := by
  decide +kernel

theorem texts_cons {v : Json} {vs : List Json} {ts : List String}
    (h : Json.texts (v :: vs) = .ok ts) :
    ∃ t ts', ts = t :: ts' ∧ Json.texts vs = .ok ts' ∧ (v = .null ∧ t = "" ∨ v.text = .ok t) := by
  have hmore : ∀ v : Json, (do
      let t ← v.text
      let ts ← Json.texts vs
      return t :: ts) = .ok ts → ∃ t ts', ts = t :: ts' ∧ Json.texts vs = .ok ts' ∧ v.text = .ok t := by
    intro v h
    cases ht : v.text with
    | error e =>
      rw [ht] at h
      cases h
    | ok t =>
      cases hts : Json.texts vs with
      | error e =>
        rw [ht, hts] at h
        cases h
      | ok ts' =>
        rw [ht, hts] at h
        cases h
        exact ⟨t, ts', rfl, rfl, rfl⟩
  cases v with
  | null =>
    rw [Json.texts] at h
    cases hts : Json.texts vs with
    | error e =>
      rw [hts] at h
      cases h
    | ok ts' =>
      rw [hts] at h
      cases h
      exact ⟨"", ts', rfl, rfl, .inl ⟨rfl, rfl⟩⟩
  | _ =>
    rw [Json.texts] at h
    · obtain ⟨t, ts', hts, hvs, hv⟩ := hmore _ h
      exact ⟨t, ts', hts, hvs, .inr hv⟩
    · intro hnull
      cases hnull

/-- A JSON value with the name of a network for its text is that name, wrapped or not. -/
theorem wrapped_of_text {nt : String → String} (hkey : key ∈ networkKeys) :
    (v : Json) → v.Parsed nt → v.text = .ok key → Wrapped key v
  | .null, _, h => by
    cases h
    exact absurd rfl (networkKeys_plain _ hkey).2.1
  | .bool b, _, h => by
    cases b with
    | true =>
      cases h
      exact absurd rfl (networkKeys_plain _ hkey).2.2.1
    | false =>
      cases h
      exact absurd rfl (networkKeys_plain _ hkey).2.2.2.1
  | .num t, hp, h => by
    cases h
    obtain ⟨-, -, -, -, -, hf, hl, -⟩ := networkKeys_plain _ hkey
    exact absurd (hp hf).1 hl
  | .str s, _, h => by
    cases h
    exact .text
  | .obj fields, _, h => by
    rw [Json.text] at h
    split at h
    · cases h
    · cases h
      exact absurd rfl (networkKeys_plain _ hkey).2.2.2.2.1
  | .arr [], _, h => by
    cases h
    exact absurd rfl (networkKeys_plain _ hkey).1
  | .arr [v], hp, h => by
    rw [Json.text] at h
    cases ht : Json.texts [v] with
    | error e =>
      rw [ht] at h
      cases h
    | ok ts =>
      rw [ht] at h
      obtain ⟨t, ts', rfl, hnil, hv⟩ := texts_cons ht
      cases hnil
      have hkeyt : t = key := Except.ok.inj h
      obtain ⟨-, hblank⟩ | hv := hv
      · exact absurd (hkeyt ▸ hblank) (networkKeys_plain _ hkey).1
      · exact .array (wrapped_of_text hkey v hp.1 (hkeyt ▸ hv))
  | .arr (v :: w :: vs), hp, h => by
    rw [Json.text] at h
    cases ht : Json.texts (v :: w :: vs) with
    | error e =>
      rw [ht] at h
      cases h
    | ok ts =>
      rw [ht] at h
      obtain ⟨t, ts', rfl, htail, -⟩ := texts_cons ht
      obtain ⟨u, us, rfl, -, -⟩ := texts_cons htail
      have hkeyt : ",".intercalate (t :: u :: us) = key := Except.ok.inj h
      have hcomma : ',' ∈ key.toList := by
        rw [← hkeyt, String.toList_intercalate]
        simp
      exact absurd hcomma (networkKeys_plain _ hkey).2.2.2.2.2.2.2

end Networks

section Signed

variable {κ σ : Type} (nt : String → String) (K : Keys κ)

/-- What an identity passes to `signAddress`: the gateway for an address of the active network, and
the pool for one of the identity's own. The shop's active network comes from its state file. -/
inductive Passed : Identity κ → AddressRecord → Prop
  | live (h : Handler κ σ) (cur : Active κ σ) (hnetwork : cur.network.Parsed nt)
      (haddress : addressFor K cur.id.code personal index h.addressType cur.network = .ok address) :
      Passed cur.id
        { address, index
          type := h.addressType
          network := cur.network
          paymentCode := K.paymentCode cur.id.code }
  | pool (identity : Identity κ)
      (haddress : addressFor K identity.code personal index type (.str identity.network) = .ok address) :
      Passed identity
        { address, index, type
          network := .str identity.network
          paymentCode := K.paymentCode identity.code }

variable {nt K}

theorem recordFor_passed {h : Handler κ σ} {cur : Active κ σ} {r : SignedAddress}
    (hnetwork : cur.network.Parsed nt) (hr : h.recordFor K cur index personal = .ok r) :
    Passed (σ := σ) nt K cur.id r.toAddressRecord := by
  unfold Handler.recordFor signAddress at hr
  cases ha : addressFor K cur.id.code personal index h.addressType cur.network with
  | error e =>
    rw [ha] at hr
    cases hr
  | ok address =>
    rw [ha] at hr
    simp only [bind, Except.bind] at hr
    split at hr
    · cases hr
    · cases hr
      exact .live h cur hnetwork ha

theorem poolRecord_passed {identity : Identity κ} {r : SignedAddress}
    (hr : poolRecord K identity personal type i = .ok r) :
    Passed (σ := σ) nt K identity r.toAddressRecord := by
  unfold poolRecord signAddress at hr
  cases ha : addressFor K identity.code personal i type (.str identity.network) with
  | error e =>
    rw [ha] at hr
    cases hr
  | ok address =>
    rw [ha] at hr
    simp only [bind, Except.bind] at hr
    split at hr
    · cases hr
    · cases hr
      exact .pool identity ha

theorem addressFor_ok {code : κ}
    (h : addressFor K code personal index type network = .ok address) :
    0 ≤ index ∧ ∃ key net, network.text = .ok key ∧ libNetwork (some network) key = .ok net := by
  unfold addressFor at h
  split at h
  · cases h
  · next hindex =>
    refine ⟨by omega, ?_⟩
    cases hk : network.text with
    | error e =>
      rw [hk] at h
      cases h
    | ok key =>
      rw [hk] at h
      cases hn : libNetwork (some network) key with
      | error e =>
        simp only [Shop.ofThrow, bind, Except.bind, hn, ofMessage] at h
        cases h
      | ok net => exact ⟨key, net, rfl, hn⟩

theorem Passed.fields {identity : Identity κ} {r : AddressRecord}
    (h : Passed (σ := σ) nt K identity r) :
    (∃ n : Nat, r.index = n) ∧ (∃ key, Wrapped key r.network) ∧
      r.paymentCode = K.paymentCode identity.code := by
  cases h with
  | live h cur hnetwork haddress =>
    obtain ⟨hindex, key, net, hkey, hnet⟩ := addressFor_ok haddress
    exact ⟨⟨_, (Int.toNat_of_nonneg hindex).symm⟩,
      ⟨key, wrapped_of_text (mem_networkKeys hnet) _ hnetwork hkey⟩, rfl⟩
  | pool identity haddress =>
    exact ⟨⟨_, (Int.toNat_of_nonneg (addressFor_ok haddress).1).symm⟩, ⟨_, .text⟩, rfl⟩

/-- The signed properties of a record. -/
def AddressRecord.fields (r : AddressRecord) : List (String × Json) :=
  [("v", .num (toString r.v)), ("address", .str r.address), ("index", .num (toString r.index)),
    ("type", .str r.type.text), ("network", r.network), ("paymentCode", .str r.paymentCode)]

/-- A value that is written and read again as nothing else is. -/
def Sole (w : Json) : Prop := w.reparsed.Plain ∧ ∀ v : Json, v.reparsed = w.reparsed → v = w

theorem sole_wrapped (h : Wrapped s w) : Sole w := by
  constructor
  · induction h with
    | text => trivial
    | array _ ih => exact ⟨ih, trivial⟩
  · intro v hv
    exact h.eq_of_reparsed hv

theorem sole_nat (n : Nat) : Sole (.num (toString n)) := by
  constructor
  · rw [Json.reparsed, if_pos (finite_nat n)]
    exact ⟨finite_nat n, numberLiteral_nat n⟩
  · intro v hv
    rw [Json.reparsed, if_pos (finite_nat n)] at hv
    cases v with
    | num t =>
      rw [Json.reparsed] at hv
      split at hv
      · exact hv
      · cases hv
    | null => cases hv
    | bool b => cases hv
    | str t => cases hv
    | arr vs => cases hv
    | obj fields => cases hv

theorem Passed.sole {identity : Identity κ} {r : AddressRecord}
    (h : Passed (σ := σ) nt K identity r) : ∀ x ∈ r.fields, Sole x.2 := by
  obtain ⟨⟨n, hn⟩, ⟨key, hkey⟩, -⟩ := h.fields
  have hindex : Sole (.num (toString r.index)) := by
    rw [hn]
    exact sole_nat n
  simp only [AddressRecord.fields, List.forall_mem_cons]
  exact ⟨sole_nat r.v, sole_wrapped .text, hindex, sole_wrapped .text, sole_wrapped hkey,
    sole_wrapped .text, by simp⟩

theorem lookup_keys {f : String → Option Json} {keys : List String} (h : k ∈ keys) :
    (keys.filterMap fun k => (f k).map (k, ·)).lookup k = f k := by
  induction keys with
  | nil => cases h
  | cons l keys ih =>
    rw [List.filterMap_cons]
    by_cases hl : k = l
    · subst hl
      cases hf : f k with
      | some v => rw [Option.map_some, Table.lookup_cons, if_pos rfl]
      | none =>
        rw [Option.map_none]
        by_cases hk : k ∈ keys
        · rw [ih hk, hf]
        · apply Table.lookup_none
          intro hmem
          simp only [List.mem_map, List.mem_filterMap] at hmem
          obtain ⟨x, ⟨l, hl, hx⟩, rfl⟩ := hmem
          obtain ⟨v, -, rfl⟩ := Option.map_eq_some_iff.1 hx
          exact hk hl
    · have hih := ih ((List.mem_cons.1 h).resolve_left hl)
      cases hf : f l with
      | none => rw [Option.map_none, hih]
      | some v => rw [Option.map_some, Table.lookup_cons, if_neg hl, hih]

theorem Passed.eq_of_text {identity : Identity κ} {r : AddressRecord} {rec : List (String × Json)}
    (h : Passed (σ := σ) nt K identity r) (hrec : ∀ x ∈ rec, x.2.Parsed nt)
    (htext : canonicalText rec = canonicalAddress r) : ∀ x ∈ r.fields, rec.lookup x.1 = some x.2 := by
  intro x hx
  have hplain : (Json.obj r.fields).reparsed.Plain := by
    rw [Json.reparsed, Json.Plain, reparsedFields_eq, plainFields_iff]
    intro y hy
    obtain ⟨z, hz, rfl⟩ := List.mem_map.1 hy
    exact (h.sole z hz).1
  have hplainRec : (Json.obj (recordKeys.filterMap fun k => (rec.lookup k).map (k, ·))).reparsed.Plain := by
    rw [Json.reparsed, Json.Plain, reparsedFields_eq, plainFields_iff]
    intro y hy
    obtain ⟨z, hz, rfl⟩ := List.mem_map.1 hy
    obtain ⟨k, -, hk⟩ := List.mem_filterMap.1 hz
    obtain ⟨v, hv, rfl⟩ := Option.map_eq_some_iff.1 hk
    exact Json.plain_reparsed v (hrec _ (Table.mem_of_lookup hv))
  have hsame := chars_injective_reparsed hplainRec hplain (String.ofList_inj.1 htext)
  rw [Json.reparsed, Json.reparsed, reparsedFields_eq, reparsedFields_eq] at hsame
  have hlookup := congrArg (List.lookup x.1) (Json.obj.inj hsame)
  have hkey : x.1 ∈ recordKeys := List.mem_map_of_mem (f := Prod.fst) hx
  have hnodup : (r.fields.map Prod.fst).Nodup := by
    change recordKeys.Nodup
    decide
  have hget : r.fields.lookup x.1 = some x.2 := Table.get_of_mem (t := ⟨r.fields, hnodup⟩) hx
  have hmap : ∀ l : List (String × Json), (l.map (Prod.map id Json.reparsed)).lookup x.1 =
      (l.lookup x.1).map Json.reparsed := Table.lookup_map Json.reparsed x.1
  rw [hmap, hmap, lookup_keys hkey, hget, Option.map_some] at hlookup
  obtain ⟨v, hv, hvx⟩ := Option.map_eq_some_iff.1 hlookup
  rw [hv, (h.sole x hx).2 v hvx]

/-- A text verifies under a notification address of the code only if an identity with the code has
signed it. Nothing is said of the texts that other codes sign. -/
def Unforgeable (V : Verifier) (K : Keys κ) (code : String)
    (signed : List (Identity κ × AddressRecord)) : Prop :=
  ∀ net address text signature, V.notificationAddress net code = .ok address →
    V.verify text address signature = .ok true →
    ∃ x ∈ signed, K.paymentCode x.1.code = code ∧ canonicalAddress x.2 = text

theorem Verifier.addressOf_ok {V : Verifier} (h : V.addressOf code network = .ok address) :
    ∃ net, V.notificationAddress net code = .ok address := by
  unfold addressOf at h
  cases hk : network.text with
  | error e =>
    rw [hk] at h
    cases h
  | ok key =>
    rw [hk] at h
    cases hn : libNetwork (some network) key with
    | error e =>
      simp only [Shop.ofThrow, bind, Except.bind, hn, ofMessage] at h
      cases h
    | ok net =>
      cases ha : V.notificationAddress net code with
      | error e =>
        simp only [Shop.ofThrow, bind, Except.bind, hn, ofMessage, ha] at h
        cases h
      | ok address' =>
        simp only [Shop.ofThrow, bind, Except.bind, hn, ofMessage, ha] at h
        cases h
        exact ⟨net, ha⟩

end Signed

/-- A record that verifies for a payment code has the properties of one that the identity of the code
has passed to be signed. -/
theorem verified_record_passed {κ σ : Type} (numbers : NumberText) (K : Keys κ) (V : Verifier)
    (identities : List (Identity κ)) (signed : List (Identity κ × AddressRecord))
    (expected source : String) (rec : Json)
    (hpassed : ∀ x ∈ signed, x.1 ∈ identities ∧ Passed (σ := σ) numbers.text K x.1 x.2)
    (hdistinct : ∀ id ∈ identities, ∀ id' ∈ identities,
      K.paymentCode id.code = K.paymentCode id'.code → id = id')
    (hunforgeable : Unforgeable V K expected signed)
    (hrec : parse numbers.text source = some rec)
    (hok : V.verifySignedAddress rec expected = .ok (.ok ())) :
    ∃ id ∈ identities, K.paymentCode id.code = expected ∧
      (∀ id' ∈ identities, K.paymentCode id'.code = expected → id' = id) ∧
      ∃ r, (id, r) ∈ signed ∧ ∀ x ∈ r.fields, rec.get x.1 = .ok (some x.2) := by
  obtain ⟨fields, network, address, rfl, -, -, haddress, hverify⟩ := Verifier.verifySignedAddress_ok hok
  obtain ⟨net, hnet⟩ := Verifier.addressOf_ok haddress
  obtain ⟨⟨id, r⟩, hmem, hcode, htext⟩ := hunforgeable net address _ _ hnet hverify
  obtain ⟨hid, hr⟩ := hpassed _ hmem
  refine ⟨id, hid, hcode, ?_, r, hmem, ?_⟩
  · intro id' hid' hcode'
    exact hdistinct id' hid' id hid (hcode'.trans hcode.symm)
  · intro x hx
    have hparsed : ∀ y ∈ fields, y.2.Parsed numbers.text := parsedFields_iff.1 (parse_parsed hrec).2
    rw [Json.get, hr.eq_of_text hparsed htext.symm x hx]

section Sample

def storeKeys : Keys String where
  paymentCode code := code
  paymentAddress _ _ _ _ _ := .ok "bc1q"
  sign _ _ := .ok "H0sig"

def passedRecord : AddressRecord where
  address := "bc1q"
  index := 5
  type := .p2wpkh
  network := .arr [.str "bitcoin"]
  paymentCode := "PM8T"

/-- It knows the code of the one identity and what that has signed, and the code of an operator that
has signed a pairing. -/
def sampleVerifier : Verifier where
  notificationAddress _ code :=
    if code = "PM8T" then .ok "1Store"
    else if code = "PM8Tnode" then .ok "1Node"
    else .error "Invalid payment code"
  verify text address _ := .ok (decide
    (text = canonicalAddress passedRecord ∧ address = "1Store" ∨
      text = "\x7b\"pairing\":null\x7d" ∧ address = "1Node"))

/-- The record as a customer has it, with its properties in another order and one more. -/
def customerRecord : Json :=
  .obj [("note", .null), ("index", .num "5"), ("network", .arr [.str "bitcoin"]),
    ("signed", .str "H0sig"), ("type", .str "p2wpkh"), ("paymentCode", .str "PM8T"),
    ("address", .str "bc1q"), ("v", .num "1")]

theorem customerRecord_parse :
    parse (numbersBelow fun _ => false).text customerRecord.stringify = some customerRecord := by
  have hnumber : ∀ t ∈ ["1", "5"], Json.Number (numbersBelow fun _ => false).text t := by
    unfold Json.Number
    decide +kernel
  have hparsed : customerRecord.Parsed (numbersBelow fun _ => false).text := by
    refine ⟨properties_names (by decide) (by decide +kernel), ?_⟩
    simp only [Json.ParsedFields, Json.Parsed, Json.ParsedAll, and_true, true_and]
    exact ⟨fun _ => hnumber _ (by simp), fun _ => hnumber _ (by simp)⟩
  have h := parse_stringify hparsed
  simpa [customerRecord, Json.reparsed, Json.reparsedAll, Json.reparsedFields, finite] using h

theorem customer_record_passed :
    ∃ id ∈ [Identity.mk "PM8T" "bitcoin"], id.code = "PM8T" ∧
      (∀ id' ∈ [Identity.mk "PM8T" "bitcoin"], id'.code = "PM8T" → id' = id) ∧
      ∃ r, (id, r) ∈ [(Identity.mk "PM8T" "bitcoin", passedRecord)] ∧
        ∀ x ∈ r.fields, customerRecord.get x.1 = .ok (some x.2) := by
  apply verified_record_passed (σ := Unit) (numbersBelow fun _ => false) storeKeys sampleVerifier
    [⟨"PM8T", "bitcoin"⟩] [(⟨"PM8T", "bitcoin"⟩, passedRecord)] "PM8T" customerRecord.stringify
    customerRecord
  · intro x hx
    cases List.mem_singleton.1 hx
    refine ⟨List.mem_singleton.2 rfl, ?_⟩
    have haddress : addressFor storeKeys "PM8T" "PM8Tme" 5 .p2wpkh (.arr [.str "bitcoin"]) =
        .ok "bc1q" := by
      rfl
    exact .live ⟨.wallet ⟨"PM8T", "bitcoin"⟩ (), none, .p2wpkh⟩
      ⟨⟨"PM8T", "bitcoin"⟩, .arr [.str "bitcoin"], ()⟩ ⟨trivial, trivial⟩ haddress
  · intro id hid id' hid' _
    rw [List.mem_singleton.1 hid, List.mem_singleton.1 hid']
  · intro net address text signature hnet hverify
    have hstore : "1Store" = address := Except.ok.inj hnet
    subst hstore
    refine ⟨_, List.mem_singleton.2 rfl, rfl, ?_⟩
    obtain ⟨htext, -⟩ | ⟨-, hnode⟩ := of_decide_eq_true (Except.ok.inj hverify)
    · exact htext.symm
    · exact absurd hnode (by decide)
  · exact customerRecord_parse
  · have hsigned : canonicalText
        [("note", .null), ("index", .num "5"), ("network", .arr [.str "bitcoin"]),
          ("signed", .str "H0sig"), ("type", .str "p2wpkh"), ("paymentCode", .str "PM8T"),
          ("address", .str "bc1q"), ("v", .num "1")] = canonicalAddress passedRecord := by
      decide +kernel
    have haddress : sampleVerifier.addressOf "PM8T" (.arr [.str "bitcoin"]) = .ok "1Store" := rfl
    exact Verifier.verifySignedAddress_signed rfl (by decide) rfl haddress
      (congrArg Except.ok (decide_eq_true (.inl ⟨hsigned, rfl⟩)))

end Sample

end Mise.Gateway
