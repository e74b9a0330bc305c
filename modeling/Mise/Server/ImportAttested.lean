import Mise.Server.Gated
import Mise.Server.ImportPlan

set_option autoImplicit true

namespace Mise.Server

open Js

/-- `Object.keys` -/
def keysOf : Option Json → List String
  | some (.obj fields) => fields.map Prod.fst
  | _ => []

section Attested

variable (I : Importer)

/-- The block of the record verifies over its payload for one of its own payment codes, which is how
an audit classifies it, and covers every key of the payload. -/
structure Importer.Vouches (r : ImportRecord) : Prop where
  attested : I.Attested (normaliseSubmission r.stored)
  covered : ∀ k ∈ keysOf r.payload, k = "pairing" ∨ k = "explorer"
  audited : (I.auditRecord (normaliseSubmission r.stored)).1 = .verified

/-- The address that the node's block names belongs to one of the node's payment codes. -/
def Importer.SignedByOwner (n : RemoteNode) : Prop :=
  ∃ block parsed, asText n.signed = some block ∧ parseSignedBlock block = some parsed ∧
    ∃ code ∈ n.texts I.fetchCodes, code ≠ "" ∧ parsed.address ∈ I.notificationAddresses code

variable {I} {R : Remote} {trustedCode : String} {L : LocalState} {n : RemoteNode}

theorem verifySignedPayload_by {c : Crypto} {signed : String} {m : Option String} {nw : Network}
    {addresses : List String} {r : String × Option String}
    (h : c.verifySignedPayload signed m none nw = .ok r) (ha : r.1 ∈ addresses) :
    c.verifySignedPayload signed m (some addresses) nw = .ok r := by
  obtain ⟨parsed, hp, rfl, hm, hv, hk, -⟩ := verifySignedPayload_ok h
  have hm' : (m.any fun t => !c.sameSignedPayload .scalars parsed.pairingText t) = false := by
    cases m with
    | none => rfl
    | some t => simp [hm t rfl]
  unfold Crypto.verifySignedPayload
  rw [hp]
  dsimp only
  rw [hm', hv]
  dsimp only
  cases hc : parsed.paymentCode with
  | none => simpa using ha
  | some code =>
    have haddr := hk code hc
    simp [List.ne_nil_of_mem haddr, haddr, show parsed.address ∈ addresses from ha]

theorem arrives_verifies (h : I.arrives L n = true) :
    ∃ block signer, asText n.signed = some block ∧
      I.verifySignedPayload block (some (canonicalPairing (.given n.payload))) none n.chain =
        .ok signer := by
  simp only [Importer.arrives, Bool.and_eq_true] at h
  have hv := h.1.2
  cases hs : asText n.signed with
  | none =>
    rw [hs, Option.getD_none] at hv
    split at hv
    · next hok => exact absurd hok verifySignedPayload_empty
    · cases hv
  | some block =>
    rw [hs, Option.getD_some] at hv
    split at hv
    · next signer hok => exact ⟨block, signer, rfl, hok⟩
    · cases hv

theorem signed_recordOf {block : String} (h : asText n.signed = some block) (hne : block ≠ "")
    (status : Status) (now : Int) :
    (normaliseSubmission (I.recordOf R status now n).stored).signed = some block := by
  have hn : n.signed = some (.str block) := by
    unfold asText at h
    split at h
    · next hs =>
      cases h
      exact hs
    · cases h
  simp [ImportRecord.stored, Importer.recordOf, RemoteNode.record, hn, orNothing, Option.filter,
    Json.truthy, hne, asText]

/-- What an import stores of a node is attested exactly if the node's owner has signed it. -/
theorem attested_recordOf (h : I.arrives L n = true) (status : Status) (now : Int) :
    I.Attested (normaliseSubmission (I.recordOf R status now n).stored) ↔ I.SignedByOwner n := by
  obtain ⟨block, signer, hs, hv⟩ := arrives_verifies h
  have hne : block ≠ "" := by
    rintro rfl
    exact verifySignedPayload_empty hv
  have hsigned := signed_recordOf (I := I) (R := R) hs hne status now
  obtain ⟨parsed, hp, rfl, -⟩ := verifySignedPayload_ok hv
  constructor
  · rintro ⟨code, hc, block', signer', hb, hv'⟩
    obtain rfl : block = block' := Option.some.inj (hsigned.symm.trans hb)
    obtain ⟨parsed', hp', -, -, -, -, ha⟩ := verifySignedPayload_ok hv'
    cases hp.symm.trans hp'
    obtain ⟨hc, hce⟩ := (mem_codes_recordOf status now).1 hc
    exact ⟨block, parsed, hs, hp, code, hc, hce, ha _ rfl⟩
  · rintro ⟨block', parsed', hs', hp', code, hc, hce, ha⟩
    cases hs.symm.trans hs'
    cases hp.symm.trans hp'
    have hv' := (verifySignedPayload_network _ _ _ n.chain).symm.trans hv
    exact ⟨code, (mem_codes_recordOf status now).2 ⟨hc, hce⟩, block, _, hsigned,
      verifySignedPayload_by hv' ha⟩

/-- Every record that an import writes is attested and covered as a whole exactly if each node that
it stores has been signed by its owner, and has a payload with no other keys. -/
theorem imports_attested (I : Importer) (R : Remote) (trustedCode : String) (L : LocalState)
    (status : Status) (now : Int) :
    (∀ r ∈ (I.bootstrapImport R trustedCode L false status now).written, I.Vouches r) ↔
      ∀ n ∈ I.landing R trustedCode L, I.SignedByOwner n ∧
        ∀ k ∈ keysOf n.payload, k = "pairing" ∨ k = "explorer" := by
  obtain ⟨hw, -⟩ := written_eq I R trustedCode L status now
  rw [hw]
  constructor
  · intro h n hn
    have hr := h _ (List.mem_map_of_mem hn)
    have harrives := arrives_of_mem (landing_arrives hn)
    exact ⟨(attested_recordOf harrives status now).1 hr.attested, hr.covered⟩
  · intro h r hr
    obtain ⟨n, hn, rfl⟩ := List.mem_map.1 hr
    obtain ⟨hsigned, hcovered⟩ := h n hn
    have harrives := arrives_of_mem (landing_arrives hn)
    have hattested : I.Attested (normaliseSubmission (I.recordOf R status now n).stored) :=
      (attested_recordOf harrives status now).2 hsigned
    exact ⟨hattested, hcovered, hattested.audit⟩

end Attested

/-- A list with a node of `PM8Tdavid` that somebody else has signed. -/
def otherSigner : Remote :=
  sampleRemote [sampleNode "mainnet-c" "http://c.onion" "1Maxim" "PM8Tdavid"]

/-- The node is stored for an owner who has not signed it. -/
theorem import_of_unattested :
    ¬ ∀ r ∈ (sampleImporter.bootstrapImport otherSigner "PM8Toperator" bareLocal false .approved
      0).written, sampleImporter.Vouches r := by
  have hnodes : sampleImporter.trustedNodes otherSigner "PM8Toperator" =
      .ok [.ofJson (sampleNode "mainnet-c" "http://c.onion" "1Maxim" "PM8Tdavid")] :=
    sample_nodes [("mainnet-c", "http://c.onion", "1Maxim", "PM8Tdavid")] (by decide)
  have hc : sampleImporter.arrives bareLocal
      (.ofJson (sampleNode "mainnet-c" "http://c.onion" "1Maxim" "PM8Tdavid")) = true :=
    sample_arrives (by decide) (by decide +kernel) sample_blocks.1 (by decide) (by decide)
  have hcoded : sampleImporter.Coded
      (.ofJson (sampleNode "mainnet-c" "http://c.onion" "1Maxim" "PM8Tdavid")) := by
    decide +kernel
  have hland : .ofJson (sampleNode "mainnet-c" "http://c.onion" "1Maxim" "PM8Tdavid") ∈
      sampleImporter.landing otherSigner "PM8Toperator" bareLocal := by
    have hid : asText (RemoteNode.ofJson
        (sampleNode "mainnet-c" "http://c.onion" "1Maxim" "PM8Tdavid")).id = some "mainnet-c" := rfl
    rw [Importer.landing, arrivals_ok hnodes, List.filter_cons, hc, if_pos rfl, List.takeWhile_cons,
      decide_eq_true hcoded, if_pos rfl, List.filter_cons, hid]
    exact List.mem_cons_self
  obtain ⟨hw, -⟩ := written_eq sampleImporter otherSigner "PM8Toperator" bareLocal .approved 0
  rw [hw]
  intro h
  obtain ⟨block, parsed, hs, hp, code, hcode, -, ha⟩ :=
    (attested_recordOf hc .approved 0).1 (h _ (List.mem_map_of_mem hland)).attested
  have hblock : asText (RemoteNode.ofJson
      (sampleNode "mainnet-c" "http://c.onion" "1Maxim" "PM8Tdavid")).signed =
        some (Crypto.signedBlock (samplePayload "http://c.onion").stringify "1Maxim"
          sampleSignature) := rfl
  cases hblock.symm.trans hs
  cases sample_blocks.1.symm.trans hp
  have hother : ∀ code ∈ (RemoteNode.ofJson (sampleNode "mainnet-c" "http://c.onion" "1Maxim"
      "PM8Tdavid")).texts sampleImporter.fetchCodes,
        "1Maxim" ∉ sampleImporter.notificationAddresses code := by
    decide +kernel
  exact hother code hcode ha

end Mise.Server
