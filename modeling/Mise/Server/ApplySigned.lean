import Mise.Server.TrimmedBlock
import Mise.Server.VersionFix

set_option autoImplicit true

namespace Mise.Server

open Js

/-- An update that is applied to a record. -/
structure PlannedBlock where
  id : String
  payload : Json
  signed : String
  /-- What a repair has mended. -/
  note : Option String

/-- What is done with a file. -/
inductive BlockVerdict where
  | refused (why : String)
  | planned (p : PlannedBlock)

/-- Of the listings of a payment code, the one of the id that is pinned, or the only one. -/
def blockTarget (pinned : Option String) (owned : List StoreRecord) : Option StoreRecord :=
  match present pinned with
  | some id => owned.find? (·.id = id)
  | none => if owned.length = 1 then owned.head? else none

namespace Crypto

variable (c : Crypto)

/-- The text that is read, with its blank lines mended where a candidate verifies. -/
def mended (text : String) : String × Option String := (c.repairSignedBlock text).getD (text, none)

/-- The planning loop's step for a file, which may not be readable. -/
def blockVerdict (pinned : Option String) (records : List StoreRecord) :
    Except String String → BlockVerdict
  | .error e => .refused ("cannot read: " ++ e)
  | .ok text =>
    let (signed, note) := c.mended text
    match parseSignedBlock signed with
    | none => .refused "not a recognisable signed block"
    | some parsed =>
      match present parsed.paymentCode with
      | none => .refused
          "the signed text has no BIP47 line, so it cannot be matched to an operator"
      | some code =>
        match c.parse parsed.pairingText with
        | none => .refused "the signed text is not a bare pairing JSON"
        | some payload =>
          let pairing := property "pairing" payload
          if !truthy (pairing.bind (property "url")) || !truthy (pairing.bind (property "type")) then
            .refused "the signed payload has no pairing.url/type"
          else
            let addrs := c.notificationAddresses code
            match c.verifySignedPayload signed (some (canonicalPairing (.given (some payload))))
                (some addrs) .mainnet with
            | .error e => .refused e
            | .ok _ =>
              let owned := records.filter (code ∈ ·.codes)
              if owned = [] then
                .refused ("signature is valid, but " ++ slice 12 code ++ "… owns no record here")
              else match blockTarget pinned owned with
                | none => .refused ("that code owns " ++ toString owned.length ++ " records (" ++
                    ", ".intercalate (owned.map StoreRecord.id) ++ "); re-run with --id")
                | some rec => .planned ⟨rec.id, payload, trim signed, note⟩

end Crypto

def BlockVerdict.block : BlockVerdict → Option PlannedBlock
  | planned p => some p
  | refused _ => none

/-- The record with the payload and the block of an update, at this time. -/
def StoreRecord.updated (now : Int) (rec : StoreRecord) (p : PlannedBlock) : StoreRecord :=
  { rec with
    payload := .given (some p.payload)
    signed := some p.signed
    updatedAt := .at now }

/-- The body of the loop over what is planned. -/
def writeBlock (now : Int) (submissions : Table StoreRecord) (p : PlannedBlock) :
    Except Throw (Table StoreRecord) :=
  match submissions.get p.id with
  | none => .error .typeError
  | some rec => .ok (submissions.set p.id (rec.updated now p))

section Tool

variable (c : Crypto) (pinned : Option String)

/-- What the planning loop has found for these files. -/
def Crypto.plannedBlocks (records : List StoreRecord) (files : List (Except String String)) :
    List PlannedBlock := files.filterMap fun file => (c.blockVerdict pinned records file).block

/-- The records that `--apply` writes, from those of the file. -/
def Crypto.applySignedPayload (now : Int) (files : List (Except String String))
    (submissions : Table StoreRecord) : Except Throw (Table StoreRecord) :=
  (c.plannedBlocks pinned submissions.values files).foldlM (writeBlock now) submissions

end Tool

section Planned

variable {c : Crypto} {pinned : Option String} {records : List StoreRecord}
  {file : Except String String} {p : PlannedBlock}

theorem blockTarget_mem {owned : List StoreRecord} {rec : StoreRecord}
    (h : blockTarget pinned owned = some rec) : rec ∈ owned := by
  rw [blockTarget] at h
  split at h
  · exact List.mem_of_find?_eq_some h
  · split at h
    · exact List.mem_of_head? h
    · cases h

/-- The text of a planned file, the block in it as the tool has verified it, and the record. -/
structure Crypto.Verified (c : Crypto) (records : List StoreRecord) (p : PlannedBlock)
    (signed : String) (parsed : ParsedBlock) (code : String) (fields : List (String × Json))
    (rec : StoreRecord) : Prop where
  read : parseSignedBlock signed = some parsed
  named : parsed.paymentCode = some code
  nonempty : code ≠ ""
  value : c.parse parsed.pairingText = some (.obj fields)
  valid : ∃ r, c.verifySignedPayload signed
    (some (canonicalPairing (.given (some (.obj fields))))) (some (c.notificationAddresses code))
    .mainnet = .ok r
  record : rec ∈ records
  owned : code ∈ rec.codes
  id : p.id = rec.id
  payload : p.payload = .obj fields
  signed : p.signed = trim signed

theorem blockVerdict_planned {text : String}
    (h : c.blockVerdict pinned records (.ok text) = .planned p) :
    ∃ parsed code fields rec, c.Verified records p (c.mended text).1 parsed code fields rec := by
  rw [Crypto.blockVerdict] at h
  generalize c.mended text = mended at h ⊢
  obtain ⟨signed, note⟩ := mended
  dsimp only at h ⊢
  split at h
  · cases h
  · next parsed hparsed =>
    split at h
    · cases h
    · next code hcode =>
      obtain ⟨hcode, hne⟩ := Option.filter_eq_some_iff.1 hcode
      split at h
      · cases h
      · next payload hpayload =>
        split at h
        · cases h
        · next hfields =>
          split at h
          · cases h
          · next r hvalid =>
            split at h
            · cases h
            · split at h
              · cases h
              · next rec htarget =>
                cases h
                obtain ⟨hrec, howned⟩ := List.mem_filter.1 (blockTarget_mem htarget)
                cases payload with
                | obj fields =>
                  exact ⟨parsed, code, fields, rec, hparsed, hcode, of_decide_eq_true hne, hpayload,
                    ⟨r, hvalid⟩, hrec, of_decide_eq_true howned, rfl, rfl, rfl⟩
                | _ => exact absurd rfl hfields

theorem blockVerdict_eq {text code : String} {parsed : ParsedBlock} {fields : List (String × Json)}
    {rec : StoreRecord} {r : String × Option String} (hm : c.repairSignedBlock text = none)
    (hp : parseSignedBlock text = some parsed) (hc : present parsed.paymentCode = some code)
    (hv : c.parse parsed.pairingText = some (.obj fields))
    (hurl : truthy ((fields.lookup "pairing").bind (property "url")) = true)
    (htype : truthy ((fields.lookup "pairing").bind (property "type")) = true)
    (hok : c.verifySignedPayload text (some (canonicalPairing (.given (some (.obj fields)))))
      (some (c.notificationAddresses code)) .mainnet = .ok r)
    (htarget : blockTarget pinned (records.filter (code ∈ ·.codes)) = some rec) :
    c.blockVerdict pinned records (.ok text) = .planned ⟨rec.id, .obj fields, trim text, none⟩ := by
  have hpairing : property "pairing" (.obj fields) = fields.lookup "pairing" := rfl
  have howned : records.filter (code ∈ ·.codes) ≠ [] := List.ne_nil_of_mem (blockTarget_mem htarget)
  have hmended : c.mended text = (text, none) := by
    rw [Crypto.mended, hm]
    rfl
  rw [Crypto.blockVerdict, hmended]
  dsimp only
  rw [hp]
  dsimp only
  rw [hc]
  dsimp only
  rw [hv]
  dsimp only
  rw [hpairing, hurl, htype, if_neg (by decide), hok]
  dsimp only
  rw [if_neg howned, htarget]

end Planned

/-- The first signature line of the text without the white space around it is one that verifies. -/
def Crypto.KeepsSignature (c : Crypto) (text : String) : Prop :=
  ∃ parsed s, parseSignedBlock text = some parsed ∧
    signatureLine (('\n' :: endMark).isPrefixOf ·) (lineFeeds (trim text).toList) = some s ∧
    c.verify parsed.message parsed.address (trim (String.ofList s)) (c.messagePrefix .mainnet) = .ok true

/-- The record has the payload of its new block, whose payment code owned it, is as it was otherwise,
and is found verified when it is read back, by itself or by the server. -/
def Crypto.UpdatedTo (c : Crypto) (now : Int) (rec rec' : StoreRecord) : Prop :=
  ∃ signed parsed code fields, parseSignedBlock signed = some parsed ∧
    parsed.paymentCode = some code ∧ code ∈ rec.codes ∧
    c.parse parsed.pairingText = some (.obj fields) ∧
    (∀ k, k ≠ "pairing" → k ≠ "explorer" → fields.lookup k = none) ∧
    rec' = { rec with
      payload := .given (some (.obj fields))
      signed := some signed
      updatedAt := .at now } ∧
    (c.auditRecord (rec'.reread c)).1 = .verified ∧
    (c.auditRecord (normaliseSubmission (rec'.reread c))).1 = .verified

section Standard

variable {c : Crypto} {records : List StoreRecord} {p : PlannedBlock} {signed code : String}
  {parsed : ParsedBlock} {fields : List (String × Json)} {rec : StoreRecord}

theorem auditCodes_ok {codes tried : List String}
    (h : (auditCodes c rec signed codes tried).1 = .verified) :
    ∃ code ∈ codes, ∃ r, c.verifySignedPayload signed (some (canonicalPairing rec.payload))
      (some (c.notificationAddresses code)) rec.network = .ok r := by
  induction codes generalizing tried with
  | nil => cases h
  | cons k codes ih =>
    rw [auditCodes] at h
    split at h
    · obtain ⟨code, hc, hok⟩ := ih h
      exact ⟨code, List.mem_cons_of_mem k hc, hok⟩
    · next addr addrs haddrs =>
      split at h
      · next r hok =>
        refine ⟨k, List.mem_cons_self, r, ?_⟩
        rw [haddrs]
        exact hok
      · obtain ⟨code, hc, hok⟩ := ih h
        exact ⟨code, List.mem_cons_of_mem k hc, hok⟩

theorem auditRecord_ok (h : (c.auditRecord rec).1 = .verified) :
    ∃ signed r m a, rec.signed = some signed ∧ c.verifySignedPayload signed m a rec.network = .ok r := by
  rw [Crypto.auditRecord] at h
  split at h
  · cases h
  · next signed hs =>
    have hs := (Option.filter_eq_some_iff.1 hs).1
    split at h
    · split at h <;> cases h
    · obtain ⟨code, -, r, hok⟩ := auditCodes_ok h
      exact ⟨signed, r, _, _, hs, hok⟩

theorem verifySignedPayload_of {m : Option String} {a : Option (List String)} {n : Network}
    (hp : parseSignedBlock signed = some parsed)
    (hm : ∀ t ∈ m, c.sameSignedPayload .scalars parsed.pairingText t)
    (hv : c.verify parsed.message parsed.address parsed.signature (c.messagePrefix n) = .ok true)
    (hk : ∀ k ∈ parsed.paymentCode, parsed.address ∈ c.notificationAddresses k)
    (ha : ∀ l ∈ a, parsed.address ∈ l) :
    c.verifySignedPayload signed m a n = .ok (parsed.address, parsed.paymentCode) := by
  have hmessage : ¬ (m.any fun t => !c.sameSignedPayload .scalars parsed.pairingText t) = true := by
    rw [Option.any_eq_true]
    intro ⟨t, ht, hno⟩
    rw [hm t ht] at hno
    cases hno
  have hcode : ¬ (parsed.paymentCode.any fun code => c.notificationAddresses code = []) = true := by
    rw [Option.any_eq_true]
    intro ⟨k, hk', hno⟩
    exact List.ne_nil_of_mem (hk k hk') (of_decide_eq_true hno)
  have hsigner : ¬ (parsed.paymentCode.any fun code =>
      parsed.address ∉ c.notificationAddresses code) = true := by
    rw [Option.any_eq_true]
    intro ⟨k, hk', hno⟩
    exact of_decide_eq_true hno (hk k hk')
  have haccept : ¬ (a.any (parsed.address ∉ ·)) = true := by
    rw [Option.any_eq_true]
    intro ⟨l, hl, hno⟩
    exact of_decide_eq_true hno (ha l hl)
  rw [Crypto.verifySignedPayload, hp]
  dsimp only
  rw [if_neg hmessage, hv]
  dsimp only
  rw [if_neg hcode, if_neg hsigner, if_neg haccept]

/-- The value that was signed has no other properties than those that are compared. -/
theorem Crypto.Verified.keys (h : c.Verified records p signed parsed code fields rec) (k : String)
    (hp : k ≠ "pairing") (he : k ≠ "explorer") : fields.lookup k = none := by
  obtain ⟨r, hvalid⟩ := h.valid
  obtain ⟨parsed', hread, -, hsame, -⟩ := verifySignedPayload_ok hvalid
  cases h.read.symm.trans hread
  have hvalue := parse_parsed h.value
  have hgiven : (Payload.given (some (.obj fields))).Parsed c.numbers.text :=
    given_parsed fun u hu => Option.some.inj hu ▸ hvalue
  have hnormal := (sameSignedPayload_canonical (parse_pairingText h.read) h.value hgiven).1
    (hsame _ rfl)
  rw [normal_obj_iff (parsed_nodup hvalue) (nodup_canonical _), canonical_same_iff] at hnormal
  exact hnormal.2.2 k hp he

theorem codes_normalise (h : code ∈ rec.codes) (hne : code ≠ "") :
    code ∈ (normaliseSubmission rec).codes := by
  have hall : code ∈ rec.allCodes := by
    rw [StoreRecord.codes] at h
    rw [StoreRecord.allCodes]
    cases hc : rec.paymentCodes with
    | none =>
      rw [hc] at h
      cases h
    | some codes =>
      rw [hc] at h
      exact h
  exact mem_unique.2 (List.mem_filter.2 ⟨hall, decide_eq_true hne⟩)

/-- An update meets the standard exactly if the text that is written keeps a signature. -/
theorem updatedTo_iff (now : Int) (h : c.Verified records p signed parsed code fields rec) :
    c.UpdatedTo now rec (rec.updated now p) ↔ c.KeepsSignature signed := by
  have htrim := parse_trim h.read
  constructor
  · intro ⟨signed', parsed', code', fields', _, _, _, _, _, _, haudit, _⟩
    obtain ⟨block, r, m, a, hblock, hok⟩ := auditRecord_ok haudit
    have hblock : p.signed = block := Option.some.inj hblock
    rw [h.signed] at hblock
    obtain ⟨q, hq, -, -, hverify, -⟩ := verifySignedPayload_ok
      ((verifySignedPayload_network _ _ _ _).symm.trans hok)
    rw [← hblock, htrim] at hq
    obtain ⟨s, hs, rfl⟩ := Option.map_eq_some_iff.1 hq
    exact ⟨parsed, s, h.read, hs, hverify⟩
  · intro ⟨parsed', s, hread, hs, hverify⟩
    cases h.read.symm.trans hread
    rw [hs, Option.map_some] at htrim
    obtain ⟨r, hvalid⟩ := h.valid
    obtain ⟨parsed', hread', -, hsame, -, hcodes, haddress⟩ := verifySignedPayload_ok hvalid
    cases h.read.symm.trans hread'
    have hgiven : (Payload.given (some (.obj fields))).Parsed c.numbers.text :=
      given_parsed fun u hu => Option.some.inj hu ▸ parse_parsed h.value
    have hreread := hgiven.reread.2
    have hok := verifySignedPayload_of htrim hsame hverify hcodes haddress
    have hsigns (rec' : StoreRecord) (hs : rec'.signed = some (trim signed))
        (hp : rec'.payload = (Payload.given (some (.obj fields))).reread c) :
        c.Signs code rec'.details := by
      refine ⟨trim signed, (parsed.address, parsed.paymentCode), hs, ?_⟩
      change c.verifySignedPayload (trim signed) (some (canonicalPairing rec'.payload)) _ _ = _
      rw [hp, hreread]
      exact hok
    have hupdated : rec.updated now p = { rec with
        payload := .given (some (.obj fields))
        signed := some (trim signed)
        updatedAt := .at now } := by
      rw [StoreRecord.updated, h.payload, h.signed]
    have hattested : c.Attested ((rec.updated now p).reread c) := by
      rw [hupdated]
      exact ⟨code, h.owned, hsigns _ rfl rfl⟩
    have hnormalised : c.Attested (normaliseSubmission ((rec.updated now p).reread c)) := by
      rw [hupdated]
      exact ⟨code, codes_normalise h.owned h.nonempty, hsigns _ rfl rfl⟩
    exact ⟨trim signed, _, code, fields, htrim, h.named, h.owned, h.value, h.keys, hupdated,
      hattested.audit, hnormalised.audit⟩

end Standard

section Run

variable {c : Crypto} {now : Int} {pinned : Option String} {files : List (Except String String)}

/-- What the updates that are planned for the record of this id make of it. -/
def afterBlocks (now : Int) (k : String) (rec : StoreRecord) (planned : List PlannedBlock) : StoreRecord :=
  planned.foldl (fun rec p => if p.id = k then rec.updated now p else rec) rec

theorem writeBlocks (now : Int) {l : List PlannedBlock} {t : Table StoreRecord}
    (h : ∀ p ∈ l, ∃ rec, t.get p.id = some rec) :
    ∃ after, l.foldlM (writeBlock now) t = .ok after ∧
      ∀ k, after.get k = (t.get k).map fun rec => afterBlocks now k rec l := by
  induction l generalizing t with
  | nil =>
    refine ⟨t, rfl, fun k => ?_⟩
    cases t.get k <;> rfl
  | cons p l ih =>
    obtain ⟨rec, hrec⟩ := h p List.mem_cons_self
    have hrest : ∀ q ∈ l, ∃ rec', (t.set p.id (rec.updated now p)).get q.id = some rec' := by
      intro q hq
      rw [Table.get_set]
      split
      · exact ⟨_, rfl⟩
      · exact h q (List.mem_cons_of_mem p hq)
    obtain ⟨after, hrun, hafter⟩ := ih hrest
    refine ⟨after, ?_, fun k => ?_⟩
    · rw [List.foldlM_cons, writeBlock, hrec]
      exact hrun
    · rw [hafter, Table.get_set]
      by_cases hk : k = p.id
      · rw [if_pos hk, hk, hrec, Option.map_some, Option.map_some, afterBlocks, afterBlocks,
          List.foldl_cons, if_pos rfl]
      · rw [if_neg hk]
        cases t.get k with
        | none => rfl
        | some rec' =>
          rw [Option.map_some, Option.map_some, afterBlocks, afterBlocks, List.foldl_cons,
            if_neg (Ne.symm hk)]

theorem afterBlocks_updated (k : String) (rec : StoreRecord) (l : List PlannedBlock)
    (p : PlannedBlock) : (afterBlocks now k rec l).updated now p = rec.updated now p := by
  induction l generalizing rec with
  | nil => rfl
  | cons q l ih =>
    rw [afterBlocks, List.foldl_cons]
    refine (ih _).trans ?_
    split <;> rfl

theorem afterBlocks_append (k : String) (rec : StoreRecord) (l m : List PlannedBlock) :
    afterBlocks now k rec (l ++ m) = afterBlocks now k (afterBlocks now k rec l) m := List.foldl_append

variable {f : α → Option PlannedBlock}

theorem afterBlocks_other {k : String} {l : List α} (h : ∀ x ∈ l, ∀ p, f x = some p → p.id ≠ k)
    (rec : StoreRecord) : afterBlocks now k rec (l.filterMap f) = rec := by
  induction l with
  | nil => rfl
  | cons x l ih =>
    have hrest := ih fun y hy => h y (List.mem_cons_of_mem x hy)
    rw [List.filterMap_cons]
    cases hp : f x with
    | none => exact hrest
    | some p =>
      rw [afterBlocks, List.foldl_cons, if_neg (h x List.mem_cons_self p hp)]
      exact hrest

theorem afterBlocks_last {x : α} {p : PlannedBlock} {later : List α} (hp : f x = some p)
    (h : ∀ y ∈ later, ∀ q, f y = some q → q.id ≠ p.id) (before : List α) (rec : StoreRecord) :
    afterBlocks now p.id rec ((before ++ x :: later).filterMap f) = rec.updated now p := by
  rw [List.filterMap_append, List.filterMap_cons, hp, afterBlocks_append]
  change afterBlocks now p.id (if p.id = p.id then _ else _) (later.filterMap f) = _
  rw [if_pos rfl, afterBlocks_other h, afterBlocks_updated]

theorem exists_last {P : α → Prop} {l : List α} (h : ∃ x ∈ l, P x) :
    ∃ before x later, l = before ++ x :: later ∧ P x ∧ ∀ y ∈ later, ¬ P y := by
  induction l with
  | nil =>
    obtain ⟨x, hx, -⟩ := h
    exact absurd hx List.not_mem_nil
  | cons z l ih =>
    by_cases hl : ∃ x ∈ l, P x
    · obtain ⟨before, x, later, rfl, hx, hlater⟩ := ih hl
      exact ⟨z :: before, x, later, rfl, hx, hlater⟩
    · obtain ⟨x, hx, hP⟩ := h
      rcases List.mem_cons.1 hx with rfl | hx
      · exact ⟨[], x, l, rfl, hP, fun y hy hy' => hl ⟨y, hy, hy'⟩⟩
      · exact absurd ⟨x, hx, hP⟩ hl

/-- Each record that a run has written meets the standard of the gate, and the others are as before. -/
structure MeetsStandard (c : Crypto) (now : Int) (planned : List PlannedBlock)
    (before after : Table StoreRecord) : Prop where
  absent : ∀ k, before.get k = none → after.get k = none
  kept : ∀ k rec, before.get k = some rec → (∀ p ∈ planned, p.id ≠ k) → after.get k = some rec
  updated : ∀ p ∈ planned, ∃ rec rec', before.get p.id = some rec ∧ after.get p.id = some rec' ∧
    c.UpdatedTo now rec rec'

/-- What is planned comes from a text whose block is verified, for a record of the store. -/
theorem planned_verified (doc : KeyedStore c) {file : Except String String} {p : PlannedBlock}
    (h : (c.blockVerdict pinned doc.submissions.values file).block = some p) :
    ∃ text parsed code fields rec, file = .ok text ∧ doc.submissions.get p.id = some rec ∧
      c.Verified doc.submissions.values p (c.mended text).1 parsed code fields rec := by
  cases hv : c.blockVerdict pinned doc.submissions.values file with
  | refused why =>
    rw [hv] at h
    cases h
  | planned q =>
    rw [hv] at h
    cases h
    cases file with
    | error e => cases hv
    | ok text =>
      obtain ⟨parsed, code, fields, rec, hver⟩ := blockVerdict_planned hv
      have hget := doc.mem_values hver.record
      rw [← hver.id] at hget
      exact ⟨text, parsed, code, fields, rec, rfl, hget, hver⟩

/-- The run ends, and has made of every record what its updates make of it. -/
theorem applySignedPayload_run (now : Int) (pinned : Option String)
    (files : List (Except String String)) (doc : KeyedStore c) :
    ∃ after, c.applySignedPayload pinned now files doc.submissions = .ok after ∧
      ∀ k, after.get k = (doc.submissions.get k).map fun rec =>
        afterBlocks now k rec (c.plannedBlocks pinned doc.submissions.values files) := by
  apply writeBlocks
  intro p hp
  obtain ⟨file, -, hfile⟩ := List.mem_filterMap.1 hp
  obtain ⟨-, -, -, -, rec, -, hget, -⟩ := planned_verified doc hfile
  exact ⟨rec, hget⟩

theorem standard_keeps {doc : KeyedStore c} {after : Table StoreRecord}
    {before later : List (Except String String)} {text : String} {p : PlannedBlock}
    (hrun : c.applySignedPayload pinned now (before ++ .ok text :: later) doc.submissions = .ok after)
    (h : MeetsStandard c now (c.plannedBlocks pinned doc.submissions.values
      (before ++ .ok text :: later)) doc.submissions after)
    (hp : (c.blockVerdict pinned doc.submissions.values (.ok text)).block = some p)
    (hlater : ∀ file ∈ later, ∀ q,
      (c.blockVerdict pinned doc.submissions.values file).block = some q → q.id ≠ p.id) :
    c.KeepsSignature (c.mended text).1 := by
  have hmem : p ∈ c.plannedBlocks pinned doc.submissions.values (before ++ .ok text :: later) :=
    List.mem_filterMap.2 ⟨.ok text, List.mem_append_right before List.mem_cons_self, hp⟩
  obtain ⟨rec, rec', hget, hget', hupdated⟩ := h.updated p hmem
  obtain ⟨text', parsed, code, fields, rec'', htext, hget'', hver⟩ := planned_verified doc hp
  cases htext
  cases hget.symm.trans hget''
  obtain ⟨after', hrun', hafter⟩ := applySignedPayload_run now pinned (before ++ .ok text :: later) doc
  cases hrun.symm.trans hrun'
  rw [hafter, hget, Option.map_some, Crypto.plannedBlocks,
    afterBlocks_last (x := .ok text) hp hlater] at hget'
  cases hget'
  exact (updatedTo_iff now hver).1 hupdated

theorem standard_keeps_one {doc : KeyedStore c} {after : Table StoreRecord} {text : String}
    {p : PlannedBlock}
    (hrun : c.applySignedPayload pinned now [.ok text] doc.submissions = .ok after)
    (h : MeetsStandard c now (c.plannedBlocks pinned doc.submissions.values [.ok text])
      doc.submissions after)
    (hp : (c.blockVerdict pinned doc.submissions.values (.ok text)).block = some p) :
    c.KeepsSignature (c.mended text).1 := by
  rw [← List.nil_append [Except.ok text]] at hrun h
  exact standard_keeps hrun h hp fun file hfile => absurd hfile List.not_mem_nil

/-- Out-of-band updates meet the standard of the gate unless, in the text of the last block for a
record, taking away the white space at its ends takes the signature with it. -/
theorem applySigned_standard_iff (c : Crypto) (now : Int) (pinned : Option String)
    (files : List (Except String String)) (doc : KeyedStore c) :
    (∃ after, c.applySignedPayload pinned now files doc.submissions = .ok after ∧
      MeetsStandard c now (c.plannedBlocks pinned doc.submissions.values files) doc.submissions
        after) ↔
    ∀ before text later p, files = before ++ .ok text :: later →
      (c.blockVerdict pinned doc.submissions.values (.ok text)).block = some p →
      (∀ file ∈ later, ∀ q, (c.blockVerdict pinned doc.submissions.values file).block = some q →
        q.id ≠ p.id) →
      c.KeepsSignature (c.mended text).1 := by
  constructor
  · intro ⟨after, hrun, h⟩ before text later p hfiles hp hlater
    rw [hfiles] at hrun h
    exact standard_keeps hrun h hp hlater
  · intro h
    obtain ⟨after, hrun, hafter⟩ := applySignedPayload_run now pinned files doc
    refine ⟨after, hrun, fun k hk => ?_, fun k rec hk hno => ?_, fun p hp => ?_⟩
    · rw [hafter, hk]
      rfl
    · rw [hafter, hk, Option.map_some, Crypto.plannedBlocks, afterBlocks_other]
      exact fun file hfile p hp => hno p (List.mem_filterMap.2 ⟨file, hfile, hp⟩)
    · obtain ⟨file, hfile, hblock⟩ := List.mem_filterMap.1 hp
      obtain ⟨before, last, later, hfiles, ⟨q, hq, hid⟩, hlater⟩ := exists_last
        (P := fun file => ∃ q, (c.blockVerdict pinned doc.submissions.values file).block = some q ∧
          q.id = p.id) ⟨file, hfile, p, hblock, rfl⟩
      obtain ⟨text, parsed, code, fields, rec, rfl, hget, hver⟩ := planned_verified doc hq
      have hnone : ∀ file ∈ later, ∀ r,
          (c.blockVerdict pinned doc.submissions.values file).block = some r → r.id ≠ q.id :=
        fun file hfile r hr he => hlater file hfile ⟨r, hr, he.trans hid⟩
      have hkeeps := h before text later q hfiles hq hnone
      rw [← hid]
      refine ⟨rec, rec.updated now q, hget, ?_, (updatedTo_iff now hver).2 hkeeps⟩
      rw [hafter, hget, Option.map_some, Crypto.plannedBlocks, hfiles,
        afterBlocks_last (x := .ok text) hq hnone]

end Run

section Sample

/-- The payload of a node that has moved. -/
def movedFields : List (String × Json) :=
  [("pairing", .obj [("type", .str "dojo.api"), ("url", .str "http://new.onion")])]

def movedMessage : String := (Json.obj movedFields).stringify ++ "\nBIP47: PM8Toperator"

/-- A block of that message whose signature line comes first. -/
def movedLines : List Char :=
  List.replicate 88 'A' ++
    "\n-----END BITCOIN SIGNATURE-----\n-----BEGIN BITCOIN SIGNED MESSAGE-----\n".toList ++
    movedMessage.toList ++ "\n\n-----BEGIN BITCOIN SIGNATURE-----\nAddress: 1Operator".toList

def movedFile : String := String.ofList ('\n' :: movedLines)

/-- Libraries for which the operator has signed that message. -/
def movedCrypto : Crypto where
  numbers := numbersBelow fun _ => false
  messagePrefix _ := ""
  samePrefix := rfl
  verify message address _ _ := .ok (decide (message = movedMessage) && decide (address = "1Operator"))
  notificationAddress code _ := if code = "PM8Toperator" then some "1Operator" else none

theorem movedFile_repair : movedCrypto.repairSignedBlock movedFile = none := by
  unfold Crypto.repairSignedBlock
  rw [movedFile, String.toList_ofList]
  decide +kernel

theorem movedFile_parts : (parseSignedBlock movedFile).map
    (fun p => (p.message, p.pairingText, p.paymentCode, p.address)) =
      some (movedMessage, (Json.obj movedFields).stringify, some "PM8Toperator", "1Operator") := by
  unfold parseSignedBlock
  rw [movedFile, String.toList_ofList]
  decide +kernel

theorem movedFile_trimmed : signatureLine (('\n' :: endMark).isPrefixOf ·)
    (lineFeeds (trim movedFile).toList) = none := by
  rw [trim, movedFile, String.toList_ofList, String.toList_ofList]
  decide +kernel

def movedRecord : StoreRecord where
  id := "mainnet-a"
  network := .mainnet
  status := .approved
  paymentCodes := some ["PM8Toperator"]

def movedStore : KeyedStore movedCrypto where
  submissions := ⟨[("mainnet-a", movedRecord)], by decide⟩
  keyed k rec h := by
    obtain ⟨rfl, rfl⟩ := Prod.mk.inj (List.mem_singleton.1 (Table.mem_of_lookup h))
    rfl
  parsed k rec h := by
    obtain ⟨rfl, rfl⟩ := Prod.mk.inj (List.mem_singleton.1 (Table.mem_of_lookup h))
    exact ⟨fun v hv => absurd hv (Option.some_ne_none v).symm,
      fun v hv => absurd hv (Option.some_ne_none v).symm⟩

theorem movedFields_parsed : (Json.obj movedFields).Parsed movedCrypto.numbers.text := by
  refine ⟨properties_names (by decide) (by decide), ⟨?_, trivial⟩⟩
  exact ⟨properties_names (by decide) (by decide), trivial, trivial, trivial⟩

theorem movedFile_planned : (movedCrypto.blockVerdict none movedStore.submissions.values
    (.ok movedFile)).block = some ⟨"mainnet-a", .obj movedFields, trim movedFile, none⟩ := by
  obtain ⟨p, hp, hparts⟩ := Option.map_eq_some_iff.1 movedFile_parts
  simp only [Prod.mk.injEq] at hparts
  obtain ⟨hmessage, htext, hcode, haddress⟩ := hparts
  have hvalue : movedCrypto.parse p.pairingText = some (.obj movedFields) := by
    rw [htext]
    exact parse_stringify movedFields_parsed
  have haddresses : movedCrypto.notificationAddresses "PM8Toperator" = ["1Operator"] := by
    decide +kernel
  have hok := verifySignedPayload_of (c := movedCrypto)
    (m := some (canonicalPairing (.given (some (.obj movedFields)))))
    (a := some (movedCrypto.notificationAddresses "PM8Toperator")) (n := .mainnet) hp (by
      intro t ht
      cases ht
      rw [htext]
      exact Crypto.sameSignedPayload_iff.2 (.inl rfl)) (by
      rw [hmessage, haddress]
      rfl) (by
      intro k hk
      rw [hcode] at hk
      cases hk
      rw [haddress, haddresses]
      exact List.mem_singleton_self _) (by
      intro l hl
      cases hl
      rw [haddress, haddresses]
      exact List.mem_singleton_self _)
  have hpresent : present p.paymentCode = some "PM8Toperator" := by
    rw [hcode]
    decide
  rw [blockVerdict_eq movedFile_repair hp hpresent hvalue rfl rfl hok rfl]
  rfl

/-- The signature that is verified is gone from what is written. -/
theorem moved_signature_lost :
    (movedCrypto.blockVerdict none movedStore.submissions.values (.ok movedFile)).block =
      some ⟨"mainnet-a", .obj movedFields, trim movedFile, none⟩ ∧
    ¬ ∃ after, movedCrypto.applySignedPayload none 0 [.ok movedFile] movedStore.submissions = .ok after ∧
      MeetsStandard movedCrypto 0
        (movedCrypto.plannedBlocks none movedStore.submissions.values [.ok movedFile])
        movedStore.submissions after := by
  refine ⟨movedFile_planned, fun ⟨after, hrun, h⟩ => ?_⟩
  obtain ⟨parsed, s, hread, hs, -⟩ := standard_keeps_one hrun h movedFile_planned
  have hmended : movedCrypto.mended movedFile = (movedFile, none) := by
    rw [Crypto.mended, movedFile_repair]
    rfl
  rw [hmended, movedFile_trimmed] at hs
  cases hs

end Sample

end Mise.Server
