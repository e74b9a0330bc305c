import Mise.Server.Attested
import Mise.Server.RepairedBlock
import Mise.Server.SamePayload

set_option autoImplicit true

namespace Mise.Server

open Js

/-- The records of a store file, each under its own id, as the store keys them, with values that
`JSON.parse` gives. -/
structure KeyedStore (c : Crypto) where
  submissions : Table StoreRecord
  keyed : ∀ k rec, submissions.get k = some rec → rec.id = k
  parsed : ∀ k rec, submissions.get k = some rec → rec.payload.Parsed c.numbers.text

/-- `v === w` for values that were read separately, so that no object of the one is in the other. -/
def strictEq : Json → Json → Bool
  | .null, .null => true
  | .bool b, .bool b' => b = b'
  | .num t, .num t' => t = t'
  | .str s, .str s' => s = s'
  | _, _ => false

/-- `v?.k` -/
def property (k : String) : Json → Option Json
  | .obj fields => fields.lookup k
  | _ => none

/-- `payload?.pairing?.version ?? null` -/
def Payload.version (p : Payload) : Json := (p.pairing.bind (property "version")).getD .null

/-- `delete v.version`, where `v` is an object. -/
def deleteVersion : Json → Json
  | .obj fields => .obj (fields.filter fun x => x.1 ≠ "version")
  | v => v

def withoutVersion (p : Payload) : Payload := { p with pairing := p.pairing.map deleteVersion }

/-- `stable` of an object with these two properties, of which `undefined` is written as `null`. -/
def stable (p : Payload) : List Char :=
  stableStringify .scalars (.obj [("pairing", p.pairing.getD .null), ("explorer", p.explorer.getD .null)])

/-- What is done with a record. -/
inductive VersionVerdict where
  | same
  | skipped (why : String)
  | planned (was new : Json)

/-- The version that is written. -/
def VersionVerdict.new : VersionVerdict → Option Json
  | planned _ new => some new
  | same | skipped _ => none

namespace Crypto

variable (c : Crypto)

def versionVerdict (rec : StoreRecord) : VersionVerdict :=
  match present rec.signed with
  | none => .same
  | some signed =>
    match parseSignedBlock signed with
    | none => .skipped "signed block does not parse"
    | some p =>
      match c.parse p.pairingText with
      | none => .skipped "signed text is not a bare pairing JSON (extra content around it)"
      | some signedObj =>
        let sv := (Payload.given (some signedObj)).version
        let cv := rec.payload.version
        if strictEq sv cv then .same
        else if stable (withoutVersion (.given (some signedObj))) ≠
            stable (withoutVersion rec.payload) then
          .skipped ("differs beyond the version (signed " ++ sv.stringify ++ " vs stored " ++
            cv.stringify ++ "), left alone")
        else .planned cv sv

end Crypto

/-- `payload.pairing.version = new`. An array takes the property, but is written without it. -/
def setVersion (new : Json) : Option Json → Except Throw Json
  | some (.obj fields) => .ok (.obj (Table.put "version" new fields))
  | some (.arr vs) => .ok (.arr vs)
  | _ => .error .typeError

/-- `doc.submissions[id].payload.pairing.version = new` -/
def writeVersion (submissions : Table StoreRecord) (x : String × Json) :
    Except Throw (Table StoreRecord) :=
  match submissions.get x.1 with
  | none => .error .typeError
  | some rec => do
    let pairing ← setVersion x.2 rec.payload.pairing
    return submissions.set x.1 { rec with payload := { rec.payload with pairing := some pairing } }

variable (c : Crypto) (le : String → String → Bool)  -- what `localeCompare` makes of two ids

/-- The records that `--apply` writes, from those of the file. -/
def Crypto.fixPayloadVersion (submissions : Table StoreRecord) : Except Throw (Table StoreRecord) :=
  let recs := submissions.values.mergeSort fun a b => le a.id b.id
  let planned := recs.filterMap fun rec => (c.versionVerdict rec).new.map (rec.id, ·)
  planned.foldlM writeVersion submissions

section Canonical

variable {c : Crypto} {p : Payload}

theorem trim_obj (fields : List (String × Json)) :
    trim (Json.obj fields).stringify = (Json.obj fields).stringify := by
  rw [Json.stringify, chars_obj]
  apply trim_self
  · intro d hd
    cases hd
    rfl
  · intro d hd
    rw [List.reverse_append] at hd
    cases hd
    rfl

theorem normal_reparsed (v : Json) : normal v.reparsed = normal v := by
  rw [normal, Json.reparsed_reparsed, normal]

theorem sameSignedPayload_parsed {a b : String} {u v : Json} (ha : c.parse (trim a) = some u)
    (hb : c.parse (trim b) = some v) :
    c.sameSignedPayload .scalars a b = true ↔ normal u = normal v := by
  have hiff := stableStringify_iff (Json.plain_reparsed u (parse_parsed ha))
    (Json.plain_reparsed v (parse_parsed hb))
  have ha : parseIn .scalars c.numbers.text (trim a) = some u := ha
  have hb : parseIn .scalars c.numbers.text (trim b) = some v := hb
  unfold Crypto.sameSignedPayload
  dsimp only
  by_cases he : trim a = trim b
  · rw [he, hb] at ha
    rw [if_pos he, Option.some.inj ha]
    exact ⟨fun _ => rfl, fun _ => rfl⟩
  · rw [if_neg he, ha, hb]
    exact decide_eq_true_iff.trans hiff

/-- The properties of the object that `canonicalPairing` writes. -/
def canonical (p : Payload) : List (String × Json) :=
  (p.pairing.map ("pairing", ·)).toList ++ (p.explorer.map ("explorer", ·)).toList

theorem keys_canonical (p : Payload) : ((canonical p).map Prod.fst).Sublist ["pairing", "explorer"] := by
  obtain ⟨pairing, explorer⟩ := p
  cases pairing with
  | none =>
    cases explorer with
    | none => exact List.nil_sublist _
    | some v => exact (List.Sublist.refl ["explorer"]).cons "pairing"
  | some u =>
    cases explorer with
    | none => exact (List.nil_sublist ["explorer"]).cons_cons "pairing"
    | some v => exact List.Sublist.refl _

theorem nodup_canonical (p : Payload) : ((canonical p).map Prod.fst).Nodup :=
  (keys_canonical p).nodup (by decide)

theorem lookup_canonical (p : Payload) (k : String) : (canonical p).lookup k =
    if k = "pairing" then p.pairing else if k = "explorer" then p.explorer else none := by
  obtain ⟨pairing, explorer⟩ := p
  cases pairing with
  | none =>
    cases explorer with
    | none => simp [canonical]
    | some v =>
      rw [canonical, Option.map_none, Option.map_some, Option.toList_none, Option.toList_some,
        List.nil_append, Table.lookup_cons, List.lookup_nil]
      by_cases hk : k = "pairing"
      · rw [hk]
        rfl
      · rw [if_neg hk]
  | some u =>
    rw [canonical, Option.map_some, Option.toList_some, List.singleton_append, Table.lookup_cons]
    cases explorer with
    | none => simp
    | some v => simp [Table.lookup_cons]

theorem canonical_parsed (h : p.Parsed c.numbers.text) :
    (Json.obj (canonical p)).Parsed c.numbers.text := by
  constructor
  · apply properties_names (nodup_canonical p)
    rw [List.all_eq_true]
    intro k hk
    have hk := (keys_canonical p).subset hk
    rcases List.mem_cons.1 hk with rfl | hk
    · decide
    · rw [List.mem_singleton.1 hk]
      decide
  · rw [parsedFields_iff]
    intro x hx
    have hget := (Json.lookup_eq_some (nodup_canonical p)).2 hx
    rw [lookup_canonical] at hget
    split at hget
    · exact h.pairing _ hget
    · split at hget
      · exact h.explorer _ hget
      · cases hget

/-- What is signed is what a payload says exactly if it has the same properties. -/
theorem sameSignedPayload_canonical {t : String} {u : Json} (ht : trim t = t)
    (hu : c.parse t = some u) (hp : p.Parsed c.numbers.text) :
    c.sameSignedPayload .scalars t (canonicalPairing p) = true ↔ normal u = normal (.obj (canonical p)) := by
  have hparse : c.parse (trim (canonicalPairing p)) = some (Json.obj (canonical p)).reparsed := by
    have hcanonical : canonicalPairing p = (Json.obj (canonical p)).stringify := rfl
    rw [hcanonical, trim_obj]
    exact parse_stringify (canonical_parsed hp)
  have hsigned : c.parse (trim t) = some u := by
    rw [ht]
    exact hu
  rw [sameSignedPayload_parsed hsigned hparse, normal_reparsed]

theorem canonical_same_iff {fields : List (String × Json)} :
    (∀ k, (fields.lookup k).map normal = ((canonical p).lookup k).map normal) ↔
      (fields.lookup "pairing").map normal = p.pairing.map normal ∧
      (fields.lookup "explorer").map normal = p.explorer.map normal ∧
      ∀ k, k ≠ "pairing" → k ≠ "explorer" → fields.lookup k = none := by
  constructor
  · intro h
    have hpairing := h "pairing"
    have hexplorer := h "explorer"
    rw [lookup_canonical, if_pos rfl] at hpairing
    rw [lookup_canonical, if_neg (by decide), if_pos rfl] at hexplorer
    refine ⟨hpairing, hexplorer, fun k hp he => ?_⟩
    have hother := h k
    rw [lookup_canonical, if_neg hp, if_neg he] at hother
    exact Option.map_eq_none_iff.1 hother
  · intro ⟨hpairing, hexplorer, hother⟩ k
    rw [lookup_canonical]
    split
    · next hk =>
      rw [hk]
      exact hpairing
    · next hp =>
      split
      · next hk =>
        rw [hk]
        exact hexplorer
      · next he =>
        rw [hother k hp he]

end Canonical

section Planned

variable {c : Crypto} {rec : StoreRecord} {was new : Json}

def isObj : Json → Bool
  | .obj _ => true
  | _ => false

theorem isObj_normal (v : Json) : isObj (normal v) = isObj v := by
  cases v with
  | num t =>
    rw [normal, Json.reparsed]
    split <;> rfl
  | _ => rfl

theorem isObj_deleteVersion (v : Json) : isObj (deleteVersion v) = isObj v := by
  cases v <;> rfl

theorem isObj_some {v : Option Json} (h : v.any isObj = true) : ∃ fields, v = some (.obj fields) := by
  cases v with
  | none => cases h
  | some v =>
    cases v with
    | obj fields => exact ⟨fields, rfl⟩
    | _ => cases h

theorem plain_deleteVersion {v : Json} (h : v.reparsed.Plain) : (deleteVersion v).reparsed.Plain := by
  cases v with
  | obj fields =>
    rw [Json.reparsed, Json.Plain, reparsedFields_eq, plainFields_iff] at h
    rw [deleteVersion, Json.reparsed, Json.Plain, reparsedFields_eq, plainFields_iff]
    intro x hx
    obtain ⟨y, hy, rfl⟩ := List.mem_map.1 hx
    exact h _ (List.mem_map_of_mem (List.mem_of_mem_filter hy))
  | _ => exact h

theorem normal_pair {a b a' b' : Json} :
    normal (.obj [("pairing", a), ("explorer", b)]) = normal (.obj [("pairing", a'), ("explorer", b')]) ↔
      normal a = normal a' ∧ normal b = normal b' := by
  have hnodup (a b : Json) : ([("pairing", a), ("explorer", b)].map Prod.fst).Nodup := by
    change ["pairing", "explorer"].Nodup
    decide
  rw [normal_obj_iff (hnodup a b) (hnodup a' b')]
  constructor
  · intro h
    exact ⟨Option.some.inj (h "pairing"), Option.some.inj (h "explorer")⟩
  · intro h k
    rw [Table.lookup_cons, Table.lookup_cons, Table.lookup_cons, Table.lookup_cons]
    split
    · exact congrArg some h.1
    · split
      · exact congrArg some h.2
      · rfl

theorem plain_getD {v : Option Json} (h : ∀ x, v = some x → x.reparsed.Plain) :
    (v.getD .null).reparsed.Plain := by
  cases v with
  | none => trivial
  | some x => exact h x rfl

/-- The two payloads are the same without their versions, as far as `stable` tells. -/
theorem stable_iff {p q : Payload} (hp : p.Parsed c.numbers.text) (hq : q.Parsed c.numbers.text) :
    stable (withoutVersion p) = stable (withoutVersion q) ↔
      normal ((p.pairing.map deleteVersion).getD .null) =
        normal ((q.pairing.map deleteVersion).getD .null) ∧
      normal (p.explorer.getD .null) = normal (q.explorer.getD .null) := by
  have hplain {p : Payload} (hp : p.Parsed c.numbers.text) :
      (Json.obj [("pairing", (p.pairing.map deleteVersion).getD .null),
        ("explorer", p.explorer.getD .null)]).reparsed.Plain := by
    refine ⟨plain_getD ?_, plain_getD ?_, trivial⟩
    · intro x hx
      obtain ⟨y, hy, rfl⟩ := Option.map_eq_some_iff.1 hx
      exact plain_deleteVersion (Json.plain_reparsed y (hp.pairing y hy))
    · intro x hx
      exact Json.plain_reparsed x (hp.explorer x hx)
  rw [← normal_pair]
  exact stableStringify_iff (hplain hp) (hplain hq)

theorem versionVerdict_planned (h : c.versionVerdict rec = .planned was new) :
    ∃ signed p u, rec.signed = some signed ∧ parseSignedBlock signed = some p ∧
      c.parse p.pairingText = some u ∧ new = (Payload.given (some u)).version ∧
      strictEq (Payload.given (some u)).version rec.payload.version = false ∧
      stable (withoutVersion (.given (some u))) = stable (withoutVersion rec.payload) := by
  rw [Crypto.versionVerdict] at h
  split at h
  · cases h
  · next signed hs =>
    split at h
    · cases h
    · next p hp =>
      split at h
      · cases h
      · next u hu =>
        dsimp only at h
        split at h
        · cases h
        · next hne =>
          split at h
          · cases h
          · next hsame =>
            cases h
            have hs : rec.signed = some signed := Option.eq_some_of_filter_eq_some hs
            exact ⟨signed, p, u, hs, hp, hu, rfl, Bool.eq_false_iff.2 hne, not_not.1 hsame⟩

theorem present_parsed {block : String} {p : ParsedBlock} (h : parseSignedBlock block = some p) :
    present (some block) = some block := by
  apply Option.filter_some_pos
  apply decide_eq_true
  intro he
  rw [he] at h
  cases h

theorem versionVerdict_eq {signed : String} {p : ParsedBlock} {u : Json}
    (hs : rec.signed = some signed) (hp : parseSignedBlock signed = some p)
    (hu : c.parse p.pairingText = some u)
    (hne : strictEq (Payload.given (some u)).version rec.payload.version = false)
    (hsame : withoutVersion (.given (some u)) = withoutVersion rec.payload) :
    c.versionVerdict rec = .planned rec.payload.version (Payload.given (some u)).version := by
  rw [Crypto.versionVerdict, hs, present_parsed hp]
  dsimp only
  rw [hp]
  dsimp only
  rw [hu]
  dsimp only
  rw [hne, hsame, if_neg Bool.false_ne_true, if_neg (not_not.2 rfl)]

theorem given_parsed {v : Option Json} (h : ∀ u, v = some u → u.Parsed c.numbers.text) :
    (Payload.given v).Parsed c.numbers.text := by
  have hnone : Payload.Parsed c.numbers.text {} :=
    ⟨fun x hx => absurd hx (Option.some_ne_none x).symm, fun x hx => absurd hx (Option.some_ne_none x).symm⟩
  cases v with
  | none => exact hnone
  | some u =>
    cases u with
    | obj fields =>
      have hfields := parsedFields_iff.1 (h _ rfl).2
      exact ⟨fun x hx => hfields _ (Table.mem_of_lookup hx), fun x hx => hfields _ (Table.mem_of_lookup hx)⟩
    | _ => exact hnone

theorem isObj_pairing (v : Option Json) : isObj ((v.map deleteVersion).getD .null) = v.any isObj := by
  cases v with
  | none => rfl
  | some x => exact isObj_deleteVersion x

theorem version_null {p : Payload} (h : p.pairing.any isObj = false) : p.version = .null := by
  obtain ⟨pairing, explorer⟩ := p
  cases pairing with
  | none => rfl
  | some v =>
    cases v with
    | obj fields => cases h
    | _ => rfl

/-- Payloads that differ in their versions alone have one, so that the pairings of both are objects. -/
theorem pairings_objects {p q : Payload} (hne : strictEq p.version q.version = false)
    (hsame : normal ((p.pairing.map deleteVersion).getD .null) =
      normal ((q.pairing.map deleteVersion).getD .null)) :
    ∃ sp rp, p.pairing = some (.obj sp) ∧ q.pairing = some (.obj rp) := by
  have hobj : p.pairing.any isObj = q.pairing.any isObj := by
    rw [← isObj_pairing, ← isObj_pairing, ← isObj_normal, hsame, isObj_normal]
  cases hp : p.pairing.any isObj with
  | false =>
    rw [version_null hp, version_null (hobj ▸ hp)] at hne
    cases hne
  | true =>
    obtain ⟨sp, hsp⟩ := isObj_some hp
    obtain ⟨rp, hrp⟩ := isObj_some (hobj ▸ hp)
    exact ⟨sp, rp, hsp, hrp⟩

theorem lookup_deleteVersion {fields : List (String × Json)} (h : (fields.map Prod.fst).Nodup)
    (k : String) : (fields.filter fun x => x.1 ≠ "version").lookup k =
      if k = "version" then none else fields.lookup k := by
  have hfilter := Table.lookup_filter (fun k _ => k == "version") h k
  have hsame : (fields.filter fun x => x.1 ≠ "version") =
      fields.filter fun x => !(x.1 == "version") := by
    apply List.filter_congr
    intro x hx
    by_cases hk : x.1 = "version" <;> simp [hk]
  rw [hsame, hfilter]
  by_cases hk : k = "version"
  · cases hl : fields.lookup k <;> simp [hk]
  · cases hl : fields.lookup k <;> simp [hk]

/-- Putting the signed version in makes the pairings the same, if there is one. -/
theorem pairing_same_iff {sp rp : List (String × Json)} (hs : (sp.map Prod.fst).Nodup)
    (hr : (rp.map Prod.fst).Nodup)
    (h : normal (deleteVersion (.obj sp)) = normal (deleteVersion (.obj rp))) :
    normal (.obj sp) = normal (.obj (Table.put "version" ((sp.lookup "version").getD .null) rp)) ↔
      (sp.lookup "version").isSome := by
  rw [deleteVersion, deleteVersion, normal_obj_iff (hs.sublist (List.filter_sublist.map _))
    (hr.sublist (List.filter_sublist.map _))] at h
  rw [normal_obj_iff hs (Table.nodup_put hr)]
  constructor
  · intro hall
    have hversion := hall "version"
    rw [Table.lookup_put, if_pos rfl] at hversion
    cases hv : sp.lookup "version" with
    | none =>
      rw [hv] at hversion
      cases hversion
    | some v => rfl
  · intro hsome k
    rw [Table.lookup_put]
    split
    · next hk =>
      obtain ⟨v, hv⟩ := Option.isSome_iff_exists.1 hsome
      rw [hk, hv]
      rfl
    · next hk =>
      have hkeys := h k
      rw [lookup_deleteVersion hs, lookup_deleteVersion hr, if_neg hk, if_neg hk] at hkeys
      exact hkeys

theorem explorer_same_iff {v w : Option Json} (h : normal (v.getD .null) = normal (w.getD .null)) :
    v.map normal = w.map normal ↔ v.isSome = w.isSome := by
  cases v <;> cases w <;> simp_all

end Planned

/-- The record with this version in its pairing. -/
def StoreRecord.withVersion (rec : StoreRecord) (new : Json) : StoreRecord :=
  let pairing := rec.payload.pairing.map fun
    | .obj fields => .obj (Table.put "version" new fields)
    | v => v
  { rec with payload := { rec.payload with pairing } }

/-- The payload of a record says what its signed block says. -/
def Crypto.Agrees (c : Crypto) (rec : StoreRecord) : Prop :=
  ∃ signed p, rec.signed = some signed ∧ parseSignedBlock signed = some p ∧
    c.sameSignedPayload .scalars p.pairingText (canonicalPairing rec.payload) = true

/-- The signed text has a version, an `explorer` if the payload has one, and nothing else beside its
pairing. -/
def Crypto.SignedWhole (c : Crypto) (rec : StoreRecord) : Prop :=
  ∃ signed p fields pairing, rec.signed = some signed ∧ parseSignedBlock signed = some p ∧
    c.parse p.pairingText = some (.obj fields) ∧ fields.lookup "pairing" = some (.obj pairing) ∧
    (pairing.lookup "version").isSome ∧
    (fields.lookup "explorer").isSome = rec.payload.explorer.isSome ∧
    ∀ k, k ≠ "pairing" → k ≠ "explorer" → fields.lookup k = none

section Agreement

variable {c : Crypto} {rec : StoreRecord} {was new : Json}

/-- The pairing payload is what stands before the `BIP47:` line of the message. -/
theorem parse_tail {block : String} {p : ParsedBlock} (h : parseSignedBlock block = some p) :
    p.pairingText = (codeTail p.message.toList).elim p.message (fun x => trim (String.ofList x.1)) ∧
      p.paymentCode = (codeTail p.message.toList).map fun x => String.ofList x.2 := by
  unfold parseSignedBlock at h
  dsimp only at h
  obtain ⟨x, -, h⟩ := Option.bind_eq_some_iff.1 h
  obtain ⟨y, -, h⟩ := Option.bind_eq_some_iff.1 h
  obtain ⟨a, -, h⟩ := Option.bind_eq_some_iff.1 h
  obtain ⟨s, -, h⟩ := Option.bind_eq_some_iff.1 h
  cases h
  dsimp only
  exact And.intro rfl rfl

theorem parse_pairingText {block : String} {p : ParsedBlock} (h : parseSignedBlock block = some p) :
    trim p.pairingText = p.pairingText := by
  rw [(parse_tail h).1]
  cases codeTail p.message.toList with
  | none => exact Crypto.parse_message h
  | some x => exact trim_trim _

theorem given_pairing {u v : Json} (h : (Payload.given (some u)).pairing = some v) :
    ∃ fields, u = .obj fields ∧ fields.lookup "pairing" = some v := by
  cases u with
  | obj fields => exact ⟨fields, rfl, h⟩
  | _ => cases h

theorem put_parsed {fields : List (String × Json)} (h : (Json.obj fields).Parsed c.numbers.text)
    (hv : new.Parsed c.numbers.text) :
    (Json.obj (Table.put "version" new fields)).Parsed c.numbers.text := by
  refine ⟨properties_put (by decide) new h.1, ?_⟩
  rw [parsedFields_iff]
  intro x hx
  rcases mem_put hx with rfl | hx
  · exact hv
  · exact parsedFields_iff.1 h.2 x hx

theorem parsed_nodup {fields : List (String × Json)} (h : (Json.obj fields).Parsed c.numbers.text) :
    (fields.map Prod.fst).Nodup := (Json.Parsed.keyed _ h).1

/-- A record that is written agrees with its signed block exactly if all of that is in it. -/
theorem agrees_iff (h : c.versionVerdict rec = .planned was new)
    (hq : rec.payload.Parsed c.numbers.text) :
    c.Agrees (rec.withVersion new) ↔ c.SignedWhole rec := by
  obtain ⟨signed, p, u, hs, hp, hu, hnew, hne, hstable⟩ := versionVerdict_planned h
  have hparsed := parse_parsed hu
  have hgiven : (Payload.given (some u)).Parsed c.numbers.text :=
    given_parsed fun x hx => Option.some.inj hx ▸ hparsed
  obtain ⟨hpair, hexplorer⟩ := (stable_iff hgiven hq).1 hstable
  obtain ⟨sp, rp, hsp, hrp⟩ := pairings_objects hne hpair
  obtain ⟨fields, rfl, hfields⟩ := given_pairing hsp
  have hnodup := parsed_nodup hparsed
  have hspParsed := hgiven.pairing _ hsp
  have hrpParsed := hq.pairing _ hrp
  rw [hsp, hrp] at hpair
  have hversion : new = (sp.lookup "version").getD .null := by
    rw [hnew, Payload.version, hsp]
    rfl
  have hnewParsed : new.Parsed c.numbers.text := by
    rw [hversion]
    cases hv : sp.lookup "version" with
    | none => trivial
    | some v => exact parsedFields_iff.1 hspParsed.2 _ (Table.mem_of_lookup hv)
  have hpayload : (rec.withVersion new).payload =
      ⟨some (.obj (Table.put "version" new rp)), rec.payload.explorer⟩ := by
    rw [StoreRecord.withVersion, hrp]
    rfl
  have hparsed' : (rec.withVersion new).payload.Parsed c.numbers.text := by
    rw [hpayload]
    exact ⟨fun v hv => Option.some.inj hv ▸ put_parsed hrpParsed hnewParsed, hq.explorer⟩
  have hsame := sameSignedPayload_canonical (parse_pairingText hp) hu hparsed'
  rw [normal_obj_iff hnodup (nodup_canonical _), hpayload, canonical_same_iff, hfields] at hsame
  have hpairing := pairing_same_iff (parsed_nodup hspParsed) (parsed_nodup hrpParsed) hpair
  rw [← hversion] at hpairing
  have hexplorer := explorer_same_iff hexplorer
  have hfour : normal (.obj sp) = normal (.obj (Table.put "version" new rp)) ↔
      some (normal (.obj sp)) = (some (Json.obj (Table.put "version" new rp))).map normal :=
    ⟨congrArg some, Option.some.inj⟩
  constructor
  · intro ⟨signed', p', hs', hp', hagree⟩
    cases hs.symm.trans hs'
    cases hp.symm.trans hp'
    rw [hpayload] at hagree
    obtain ⟨hvalue, hrest, hother⟩ := hsame.1 hagree
    exact ⟨signed, p, fields, sp, hs, hp, hu, hfields, hpairing.1 (hfour.2 hvalue),
      hexplorer.1 hrest, hother⟩
  · intro ⟨signed', p', fields', sp', hs', hp', hu', hf', hversion', hrest, hother⟩
    cases hs.symm.trans hs'
    cases hp.symm.trans hp'
    cases hu.symm.trans hu'
    cases hfields.symm.trans hf'
    refine ⟨signed, p, hs, hp, ?_⟩
    rw [hpayload]
    exact hsame.2 ⟨hfour.1 (hpairing.2 hversion'), hexplorer.2 hrest, hother⟩

end Agreement

section Run

variable {c : Crypto}

theorem KeyedStore.ids (doc : KeyedStore c) :
    doc.submissions.values.map StoreRecord.id = doc.submissions.keys := by
  rw [Table.values, Table.keys, List.map_map]
  apply List.map_congr_left
  intro x hx
  exact doc.keyed x.1 x.2 (Table.get_of_mem hx)

theorem KeyedStore.mem_values (doc : KeyedStore c) {rec : StoreRecord} (h : rec ∈ doc.submissions.values) :
    doc.submissions.get rec.id = some rec := by
  obtain ⟨x, hx, rfl⟩ := List.mem_map.1 h
  have hget := Table.get_of_mem hx
  rw [doc.keyed x.1 x.2 hget]
  exact hget

theorem nodup_planned (doc : KeyedStore c) {recs : List StoreRecord}
    (hperm : recs.Perm doc.submissions.values) (f : StoreRecord → Option β) :
    ((recs.filterMap fun rec => (f rec).map (rec.id, ·)).map Prod.fst).Nodup := by
  have hids : (recs.map StoreRecord.id).Nodup := by
    rw [(hperm.map StoreRecord.id).nodup_iff, doc.ids]
    exact doc.submissions.nodup
  refine hids.sublist ?_
  clear hperm hids
  induction recs with
  | nil => exact List.Sublist.refl _
  | cons rec recs ih =>
    rw [List.filterMap_cons]
    cases f rec with
    | none => exact ih.cons _
    | some v => exact ih.cons_cons _

theorem lookup_planned {β : Type} (doc : KeyedStore c) {recs : List StoreRecord}
    (hperm : recs.Perm doc.submissions.values) (f : StoreRecord → Option β) {k : String}
    {rec : StoreRecord} (h : doc.submissions.get k = some rec) :
    (recs.filterMap fun rec => (f rec).map (rec.id, ·)).lookup k = f rec := by
  apply Option.ext
  intro v
  rw [Json.lookup_eq_some (nodup_planned doc hperm f), List.mem_filterMap]
  constructor
  · intro ⟨rec', hmem, hv⟩
    have hget := doc.mem_values (hperm.mem_iff.1 hmem)
    obtain ⟨w, hw, he⟩ := Option.map_eq_some_iff.1 hv
    cases he
    cases hget.symm.trans h
    exact hw
  · intro hv
    have hid := doc.keyed k rec h
    refine ⟨rec, hperm.mem_iff.2 (Table.mem_values h), ?_⟩
    rw [hv, hid]
    rfl

theorem writeVersion_eq {t : Table StoreRecord} {rec : StoreRecord} {x : String × Json}
    {fields : List (String × Json)} (h : t.get x.1 = some rec)
    (hp : rec.payload.pairing = some (.obj fields)) :
    writeVersion t x = .ok (t.set x.1 (rec.withVersion x.2)) := by
  rw [writeVersion, h]
  dsimp only
  rw [hp, StoreRecord.withVersion, hp]
  rfl

/-- Writes of versions to different records, each of which has a pairing to write to. -/
theorem writeVersions {l : List (String × Json)} {t : Table StoreRecord}
    (hnodup : (l.map Prod.fst).Nodup) (h : ∀ x ∈ l, ∃ rec fields, t.get x.1 = some rec ∧
      rec.payload.pairing = some (.obj fields)) :
    ∃ after, l.foldlM writeVersion t = .ok after ∧
      ∀ k, after.get k = (t.get k).map fun rec => (l.lookup k).elim rec rec.withVersion := by
  induction l generalizing t with
  | nil =>
    refine ⟨t, rfl, fun k => ?_⟩
    cases t.get k <;> rfl
  | cons x l ih =>
    rw [List.map_cons, List.nodup_cons] at hnodup
    obtain ⟨rec, fields, hrec, hp⟩ := h x List.mem_cons_self
    have hrest : ∀ y ∈ l, ∃ rec' fields, (t.set x.1 (rec.withVersion x.2)).get y.1 = some rec' ∧
        rec'.payload.pairing = some (.obj fields) := by
      intro y hy
      obtain ⟨rec', fields', hrec', hp'⟩ := h y (List.mem_cons_of_mem x hy)
      refine ⟨rec', fields', ?_, hp'⟩
      rw [Table.get_set, if_neg]
      · exact hrec'
      · intro he
        exact hnodup.1 (he ▸ List.mem_map_of_mem hy)
    obtain ⟨after, hrun, hafter⟩ := ih hnodup.2 hrest
    refine ⟨after, ?_, fun k => ?_⟩
    · rw [List.foldlM_cons, writeVersion_eq hrec hp]
      exact hrun
    · rw [hafter, Table.get_set, Table.lookup_cons]
      by_cases hk : k = x.1
      · rw [if_pos hk, if_pos hk, hk, hrec, Table.lookup_none hnodup.1]
        rfl
      · rw [if_neg hk, if_neg hk]

theorem planned_pairing {rec : StoreRecord} {new : Json} (hp : rec.payload.Parsed c.numbers.text)
    (h : (c.versionVerdict rec).new = some new) :
    ∃ fields, rec.payload.pairing = some (.obj fields) := by
  cases hv : c.versionVerdict rec with
  | planned was new' =>
    obtain ⟨signed, p, u, -, -, hu, -, hne, hstable⟩ := versionVerdict_planned hv
    have hgiven : (Payload.given (some u)).Parsed c.numbers.text :=
      given_parsed fun x hx => Option.some.inj hx ▸ parse_parsed hu
    obtain ⟨sp, rp, -, hrp⟩ := pairings_objects hne ((stable_iff hgiven hp).1 hstable).1
    exact ⟨rp, hrp⟩
  | _ =>
    rw [hv] at h
    cases h

theorem fixPayloadVersion_run (le : String → String → Bool) (doc : KeyedStore c) :
    ∃ after, c.fixPayloadVersion le doc.submissions = .ok after ∧
      ∀ k, after.get k = (doc.submissions.get k).map fun rec =>
        (c.versionVerdict rec).new.elim rec rec.withVersion := by
  have hperm := List.mergeSort_perm doc.submissions.values fun a b => le a.id b.id
  obtain ⟨after, hrun, hafter⟩ := writeVersions (t := doc.submissions)
    (nodup_planned doc hperm fun rec => (c.versionVerdict rec).new) (by
      intro x hx
      obtain ⟨rec, hmem, hv⟩ := List.mem_filterMap.1 hx
      obtain ⟨new, hnew, rfl⟩ := Option.map_eq_some_iff.1 hv
      have hget := doc.mem_values (hperm.mem_iff.1 hmem)
      obtain ⟨fields, hfields⟩ := planned_pairing (doc.parsed _ rec hget) hnew
      exact ⟨rec, fields, hget, hfields⟩)
  refine ⟨after, hrun, fun k => ?_⟩
  rw [hafter]
  cases hget : doc.submissions.get k with
  | none => rfl
  | some rec =>
    rw [Option.map_some, Option.map_some,
      lookup_planned doc hperm (fun rec => (c.versionVerdict rec).new) hget]

/-- Each record that a run has changed has another version only, and agrees with its signed block. -/
structure VersionsRestored (c : Crypto) (before after : Table StoreRecord) : Prop where
  absent : ∀ k, before.get k = none → after.get k = none
  kept : ∀ k rec, before.get k = some rec → (c.versionVerdict rec).new = none → after.get k = some rec
  restored : ∀ k rec new, before.get k = some rec → (c.versionVerdict rec).new = some new →
    after.get k = some (rec.withVersion new) ∧ c.Agrees (rec.withVersion new)

/-- The version fixer restores what was signed in the records whose signed text has a version, and
beside its pairing an `explorer` exactly if the stored payload has one. -/
theorem versionFix_restores_iff (le : String → String → Bool) (doc : KeyedStore c) :
    (∃ after, c.fixPayloadVersion le doc.submissions = .ok after ∧
      VersionsRestored c doc.submissions after) ↔
    ∀ k rec new, doc.submissions.get k = some rec → (c.versionVerdict rec).new = some new →
      c.SignedWhole rec := by
  have hverdict (rec : StoreRecord) (new : Json) (h : (c.versionVerdict rec).new = some new) :
      ∃ was, c.versionVerdict rec = .planned was new := by
    cases hv : c.versionVerdict rec with
    | planned was new' =>
      rw [hv] at h
      cases h
      exact ⟨was, rfl⟩
    | _ =>
      rw [hv] at h
      cases h
  constructor
  · intro ⟨after, hrun, h⟩ k rec new hget hnew
    obtain ⟨was, hv⟩ := hverdict rec new hnew
    exact (agrees_iff hv (doc.parsed k rec hget)).1 (h.restored k rec new hget hnew).2
  · intro h
    obtain ⟨after, hrun, hafter⟩ := fixPayloadVersion_run le doc
    refine ⟨after, hrun, fun k hget => ?_, fun k rec hget hnew => ?_, fun k rec new hget hnew => ?_⟩
    · rw [hafter, hget]
      rfl
    · rw [hafter, hget, Option.map_some, hnew]
      rfl
    · obtain ⟨was, hv⟩ := hverdict rec new hnew
      refine ⟨?_, (agrees_iff hv (doc.parsed k rec hget)).2 (h k rec new hget hnew)⟩
      rw [hafter, hget, Option.map_some, hnew]
      rfl

end Run

section Sample

/-- A payload that was signed without a version. -/
def unversioned : Json := .obj [("pairing", .obj [("type", .str "dojo.api")])]

def unversionedBlock : String :=
  Crypto.signedBlock unversioned.stringify "1Operator" lineSignature

/-- The record of an operator who has had the version 1.2 since. -/
def upgradedRecord : StoreRecord where
  id := "mainnet-a"
  network := .mainnet
  payload := ⟨some (.obj [("type", .str "dojo.api"), ("version", .str "1.2")]), none⟩
  signed := some unversionedBlock

theorem unversioned_parsed : unversioned.Parsed largeCrypto.numbers.text := by
  refine ⟨properties_names (by decide) (by decide), ⟨?_, trivial⟩⟩
  exact ⟨properties_names (by decide) (by decide), trivial, trivial⟩

theorem unversioned_values : cut ('\n' :: signatureHeader) unversioned.stringify.toList = none ∧
    lineFeeds unversioned.stringify.toList = unversioned.stringify.toList ∧
    cut "Address:".toList unversioned.stringify.toList = none ∧
    signatureLine (('\n' :: endMark).isPrefixOf ·) ('\n' :: unversioned.stringify.toList) = none ∧
    codeTail unversioned.stringify.toList = none := by
  decide +kernel

theorem unversionedBlock_parse : ∃ p, parseSignedBlock unversionedBlock = some p ∧
    largeCrypto.parse p.pairingText = some unversioned := by
  obtain ⟨hcut, hfeeds, hno, hdirect, htail⟩ := unversioned_values
  have hread := (Crypto.parse_block_iff lineBlock_parts hcut).2 ⟨trim_obj _, hfeeds,
    fun x hx => absurd (hno.symm.trans hx) (Option.some_ne_none x).symm,
    fun s hs => absurd (hdirect.symm.trans hs) (Option.some_ne_none s).symm⟩
  obtain ⟨p, hp, hparts⟩ := Option.map_eq_some_iff.1 hread
  have hmessage : p.message = unversioned.stringify := congrArg Prod.fst hparts
  have htext : p.pairingText = unversioned.stringify := by
    rw [(parse_tail hp).1, hmessage, htail]
    rfl
  refine ⟨p, hp, ?_⟩
  rw [htext]
  exact parse_stringify unversioned_parsed

theorem upgradedRecord_parsed : upgradedRecord.payload.Parsed largeCrypto.numbers.text := by
  constructor
  · intro v hv
    cases hv
    exact ⟨properties_names (by decide) (by decide), trivial, trivial, trivial⟩
  · intro v hv
    cases hv

def upgradedStore : KeyedStore largeCrypto where
  submissions := ⟨[("mainnet-a", upgradedRecord)], by decide⟩
  keyed k rec h := by
    obtain ⟨rfl, rfl⟩ := Prod.mk.inj (List.mem_singleton.1 (Table.mem_of_lookup h))
    rfl
  parsed k rec h := by
    obtain ⟨rfl, rfl⟩ := Prod.mk.inj (List.mem_singleton.1 (Table.mem_of_lookup h))
    exact upgradedRecord_parsed

theorem upgradedRecord_planned :
    largeCrypto.versionVerdict upgradedRecord = .planned (.str "1.2") .null := by
  obtain ⟨p, hp, hu⟩ := unversionedBlock_parse
  exact versionVerdict_eq rfl hp hu rfl rfl

/-- A version that was not signed is set to `null`, which was not signed either. -/
theorem signed_null_disagrees :
    largeCrypto.versionVerdict upgradedRecord = .planned (.str "1.2") .null ∧
    ¬ ∃ after, largeCrypto.fixPayloadVersion (fun _ _ => true) upgradedStore.submissions = .ok after ∧
      VersionsRestored largeCrypto upgradedStore.submissions after := by
  refine ⟨upgradedRecord_planned, fun ⟨after, hrun, h⟩ => ?_⟩
  have hnew : (largeCrypto.versionVerdict upgradedRecord).new = some .null := by
    rw [upgradedRecord_planned]
    rfl
  obtain ⟨signed, p, fields, pairing, hs, hp, hu, hpairing, hversion, -⟩ :=
    (agrees_iff upgradedRecord_planned upgradedRecord_parsed).1
      (h.restored "mainnet-a" upgradedRecord .null rfl hnew).2
  obtain ⟨p', hp', hu'⟩ := unversionedBlock_parse
  cases hs
  cases hp.symm.trans hp'
  cases hu.symm.trans hu'
  cases hpairing
  cases hversion

end Sample

end Mise.Server
