import Mise.Server.Publish

set_option autoImplicit true

namespace Mise

open Js

/-- What depends on the elements only through `v` is the same for lists that `v` cannot tell apart. -/
theorem map_eq_of_view {v : α → β} {f : α → γ} {l l' : List α} (h : l.map v = l'.map v)
    (hf : ∀ a b, v a = v b → f a = f b) : l.map f = l'.map f := by
  induction l generalizing l' with
  | nil =>
    cases l' with
    | nil => rfl
    | cons b l' => cases h
  | cons a l ih =>
    cases l' with
    | nil => cases h
    | cons b l' =>
      rw [List.map_cons, List.map_cons, List.cons.injEq] at h
      rw [List.map_cons, List.map_cons, hf a b h.1, ih h.2]

theorem find?_reverse (p : α → Bool) (l : List α) : l.reverse.find? p = (l.filter p).getLast? := by
  rw [← List.head?_filter, List.filter_reverse, List.head?_reverse]

theorem Js.Map.setAll_map {κ β γ : Type} [DecidableEq κ] (key : γ → κ) (value : γ → β) (l : List γ)
    (m : Map κ β) :
    Map.setAll key value l m = Map.setAll Prod.fst Prod.snd (l.map fun x => (key x, value x)) m := by
  induction l generalizing m with
  | nil => rfl
  | cons x l ih => exact ih (m.set (key x) (value x))

theorem Js.Map.setAll_of_view {κ β γ δ : Type} [DecidableEq κ] {key : γ → κ} {value : γ → β}
    {v : γ → δ} {l l' : List γ} (h : l.map v = l'.map v)
    (hf : ∀ a b, v a = v b → (key a, value a) = (key b, value b)) (m : Map κ β) :
    Map.setAll key value l m = Map.setAll key value l' m := by
  rw [setAll_map key value l, setAll_map key value l', map_eq_of_view h hf]

namespace Server

/-- The fields of a record that reach the public list. -/
def listedFields : List String :=
  ["id", "network", "name", "paynym", "jurisdiction", "country", "hardware", "payload", "signed"]

namespace RawRecord

variable {r r' : RawRecord}

def restrict (r : RawRecord) : List (Option Json) := listedFields.map r.get

theorem get_of_restrict (h : r.restrict = r'.restrict) (k : String) (hk : k ∈ listedFields) :
    r.get k = r'.get k := List.map_inj_left.1 h k hk

theorem id_of_restrict (h : r.restrict = r'.restrict) : r.id = r'.id := by
  rw [RawRecord.id, RawRecord.id, get_of_restrict h "id" (by decide)]

theorem pairingVersion_of_restrict (h : r.restrict = r'.restrict) :
    r.pairingVersion = r'.pairingVersion := by
  rw [pairingVersion, pairingVersion, get_of_restrict h "payload" (by decide)]

theorem toPublicNode_of_restrict (h : r.restrict = r'.restrict) (code : Option Json) :
    toPublicNode r code = toPublicNode r' code := by
  have hget := get_of_restrict h
  simp only [toPublicNode, id_of_restrict h, pairingVersion_of_restrict h,
    hget "network" (by decide), hget "name" (by decide), hget "paynym" (by decide),
    hget "jurisdiction" (by decide), hget "country" (by decide), hget "hardware" (by decide),
    hget "payload" (by decide), hget "signed" (by decide)]

/-- What the list takes from an approved submission. -/
def listing (r : RawRecord) : List (Option Json) × List String := (r.restrict, r.paymentCodes)

/-- What the list takes from a seed node. -/
def anchor (r : RawRecord) : List (Option Json) × Option Json := (r.restrict, r.get "paymentCode")

/-- What the list takes from a claim of a domain. -/
def badge (c : RawRecord) : Option String × Option Json × Option Json :=
  (c.verifiedDomain, c.get "signed", c.get "verified_at")

end RawRecord

namespace Instance

/-- The payment codes of the nodes that are published. -/
def owners (S : Instance) : List Json :=
  S.seedNodes.filterMap (fun n => n.get "paymentCode") ++
    S.approvedSubs.flatMap fun s => s.paymentCodes.map .str

def listedIds (S : Instance) : List (Option String) :=
  S.seedNodes.map RawRecord.id ++ S.approvedSubs.map RawRecord.id

/-- The verified claims of a payment code. -/
def claimsOf (S : Instance) (code : Option String) : List RawRecord :=
  S.verifiedClaims.filter fun c => c.claimant = code

/-- The two instances have the same approved submissions and seed nodes to publish, as far as the
listed fields, and the same claims, statuses and pending probes of these. -/
structure Agree (S T : Instance) : Prop where
  approved : S.approvedSubs.map RawRecord.listing = T.approvedSubs.map RawRecord.listing
  seeds : S.seedNodes.map RawRecord.anchor = T.seedNodes.map RawRecord.anchor
  claims : ∀ c ∈ S.owners, (S.claimsOf (asText (some c))).map RawRecord.badge =
    (T.claimsOf (asText (some c))).map RawRecord.badge
  mapping : S.mapping = T.mapping
  nodes : ∀ id ∈ S.listedIds, (S.nodes.filter fun p => p.id = id).map PublicNode.live =
    (T.nodes.filter fun p => p.id = id).map PublicNode.live
  pending : ∀ id ∈ S.listedIds, (S.pending.get (id.getD "undefined")).map PendingEntry.live =
    (T.pending.get (id.getD "undefined")).map PendingEntry.live

variable {S T : Instance}

section Merge

theorem Agree.approved_eq (h : Agree S T) : S.approved = T.approved := by
  unfold Instance.approved
  rw [h.mapping]
  refine map_eq_of_view h.approved fun r r' hr => ?_
  have hrestrict : r.restrict = r'.restrict := congrArg Prod.fst hr
  have hcodes : r.paymentCodes = r'.paymentCodes := congrArg Prod.snd hr
  have hdisplay : displayPaymentCode T.mapping r = displayPaymentCode T.mapping r' := by
    rw [displayPaymentCode, displayPaymentCode, hcodes,
      RawRecord.get_of_restrict hrestrict "paynym" (by decide)]
  rw [RawRecord.toPublicNode_of_restrict hrestrict, hdisplay]

theorem Agree.byId_eq (h : Agree S T) : S.byId = T.byId := by
  have hseeds : Map.setAll RawRecord.id (fun n => toPublicNode n (n.get "paymentCode")) S.seedNodes {} =
      Map.setAll RawRecord.id (fun n => toPublicNode n (n.get "paymentCode")) T.seedNodes {} := by
    refine Map.setAll_of_view h.seeds (fun r r' hr => ?_) _
    have hrestrict : r.restrict = r'.restrict := congrArg Prod.fst hr
    have hcode : r.get "paymentCode" = r'.get "paymentCode" := congrArg Prod.snd hr
    rw [RawRecord.id_of_restrict hrestrict, hcode, RawRecord.toPublicNode_of_restrict hrestrict]
  rw [byId, byId, hseeds, h.approved_eq]

/-- A table that is filled from the seed nodes and then from the approved submissions. -/
theorem Agree.setAll_eq {f : List (Option Json) × List String → β}
    {g : List (Option Json) × Option Json → β} (h : Agree S T) :
    Map.setAll RawRecord.id (fun s => f s.listing) S.approvedSubs
        (Map.setAll RawRecord.id (fun n => g n.anchor) S.seedNodes {}) =
      Map.setAll RawRecord.id (fun s => f s.listing) T.approvedSubs
        (Map.setAll RawRecord.id (fun n => g n.anchor) T.seedNodes {}) := by
  rw [Map.setAll_of_view h.seeds (fun r r' hr => ?_) _, Map.setAll_of_view h.approved (fun r r' hr => ?_) _]
  · rw [RawRecord.id_of_restrict (congrArg Prod.fst hr), hr]
  · rw [RawRecord.id_of_restrict (congrArg Prod.fst hr), hr]

theorem Agree.ownerCodesById_eq (h : Agree S T) : S.ownerCodesById = T.ownerCodesById :=
  h.setAll_eq (f := fun x => x.2.map Json.str) (g := fun x => x.2.toList)

theorem Agree.pairingById_eq (h : Agree S T) : S.pairingById = T.pairingById := by
  have hversion : ∀ r r' : RawRecord, r.restrict = r'.restrict →
      (r.id, r.pairingVersion) = (r'.id, r'.pairingVersion) := by
    intro r r' hr
    rw [RawRecord.id_of_restrict hr, RawRecord.pairingVersion_of_restrict hr]
  unfold pairingById
  rw [Map.setAll_of_view h.seeds (fun r r' hr => hversion r r' (congrArg Prod.fst hr)) _,
    Map.setAll_of_view h.approved (fun r r' hr => hversion r r' (congrArg Prod.fst hr)) _]

end Merge

section Owners

theorem ownerCodes_mem {id : Option String} {codes : List Json} {c : Json}
    (h : S.ownerCodesById.get id = some codes) (hc : c ∈ codes) : c ∈ S.owners := by
  rw [ownerCodesById, Map.get_setAll, Map.get_setAll] at h
  cases hs : S.approvedSubs.reverse.find? (fun s => s.id = id) with
  | some s =>
    rw [hs] at h
    cases h
    exact List.mem_append_right _ (List.mem_flatMap.2
      ⟨s, List.mem_reverse.1 (List.mem_of_find?_eq_some hs), hc⟩)
  | none =>
    cases hn : S.seedNodes.reverse.find? (fun n => n.id = id) with
    | some n =>
      rw [hs, hn] at h
      cases h
      exact List.mem_append_left _ (List.mem_filterMap.2
        ⟨n, List.mem_reverse.1 (List.mem_of_find?_eq_some hn), Option.mem_toList.1 hc⟩)
    | none =>
      rw [hs, hn] at h
      cases h

theorem claimByCode_get (S : Instance) (code : Option String) :
    S.claimByCode.get code = (S.claimsOf code).getLast? := by
  rw [claimByCode, Map.get_setAll, Map.get_empty, Option.or_none, find?_reverse, Option.map_id',
    claimsOf]

theorem domainByCode_get (S : Instance) (code : Option String) :
    S.domainByCode.get code = (S.claimsOf code).getLast?.map RawRecord.verifiedDomain := by
  rw [domainByCode, Map.get_setAll, Map.get_empty, Option.or_none, find?_reverse, claimsOf]

theorem Agree.badge_eq (h : Agree S T) {c : Json} (hc : c ∈ S.owners) :
    (S.claimByCode.get (asText (some c))).map RawRecord.badge =
      (T.claimByCode.get (asText (some c))).map RawRecord.badge := by
  rw [claimByCode_get, claimByCode_get, ← List.getLast?_map, ← List.getLast?_map, h.claims c hc]

theorem Agree.domainOf_eq (h : Agree S T) {c : Json} (hc : c ∈ S.owners) :
    S.domainOf c = T.domainOf c := by
  unfold domainOf
  cases hcode : asText (some c) with
  | none => rfl
  | some code =>
    have hb := congrArg (Option.map Prod.fst) (h.badge_eq hc)
    rw [claimByCode_get, claimByCode_get, hcode, Option.map_map, Option.map_map] at hb
    have hd : S.domainByCode.get (some code) = T.domainByCode.get (some code) := by
      rw [domainByCode_get, domainByCode_get]
      exact hb
    rw [Option.bind_some, Option.bind_some, hd]

theorem domainProof_badge {claim claim' : RawRecord} (h : claim.badge = claim'.badge) (code : Json)
    (domain : String) : domainProof code domain claim = domainProof code domain claim' := by
  have hsigned : claim.get "signed" = claim'.get "signed" := congrArg (fun x => x.2.1) h
  have hat : claim.get "verified_at" = claim'.get "verified_at" := congrArg (fun x => x.2.2) h
  rw [domainProof, domainProof, hsigned, hat]

theorem find?_congr {l : List Json} {p q : Json → Bool} (h : ∀ c ∈ l, p c = q c) :
    l.find? p = l.find? q := by
  induction l with
  | nil => rfl
  | cons c l ih =>
    rw [List.find?_cons, List.find?_cons, h c List.mem_cons_self,
      ih fun d hd => h d (List.mem_cons_of_mem c hd)]

theorem Agree.withDomain_eq (h : Agree S T) (n : PublicNode) : S.withDomain n = T.withDomain n := by
  unfold withDomain
  rw [← h.ownerCodesById_eq]
  have howner : ∀ c ∈ (S.ownerCodesById.get n.id).getD [], c ∈ S.owners := by
    intro c hc
    cases hg : S.ownerCodesById.get n.id with
    | none =>
      rw [hg] at hc
      cases hc
    | some codes =>
      rw [hg] at hc
      exact ownerCodes_mem hg hc
  have hcode : (((S.ownerCodesById.get n.id).getD []).find? fun c => (S.domainOf c).isSome) =
      ((S.ownerCodesById.get n.id).getD []).find? fun c => (T.domainOf c).isSome := by
    refine find?_congr fun c hc => ?_
    rw [h.domainOf_eq (howner c hc)]
  dsimp only
  rw [← hcode]
  cases hf : ((S.ownerCodesById.get n.id).getD []).find? fun c => (S.domainOf c).isSome with
  | none => rfl
  | some c =>
    have hc : c ∈ S.owners := howner c (List.mem_of_find?_eq_some hf)
    have hb := h.badge_eq hc
    simp only [Option.bind_some]
    rw [← h.domainOf_eq hc]
    cases hs : S.claimByCode.get (asText (some c)) with
    | none =>
      rw [hs] at hb
      rw [Option.map_eq_none_iff.1 hb.symm]
    | some claim =>
      rw [hs] at hb
      obtain ⟨claim', ht, hbadge⟩ := Option.map_eq_some_iff.1 hb.symm
      rw [ht]
      cases S.domainOf c with
      | none => rfl
      | some domain => simp only [domainProof_badge hbadge c domain]

end Owners

section Live

theorem mem_listedIds {id : Option String} (h : id ∈ S.byId.keys) : id ∈ S.listedIds := by
  have hnodes : S.approved.map PublicNode.id = S.approvedSubs.map RawRecord.id := by
    rw [Instance.approved, List.map_map]
    rfl
  rw [byId, Map.keys_setAll, Map.keys_setAll, hnodes] at h
  rw [listedIds, List.mem_append]
  obtain (h | h) | h := h
  · cases h
  · exact .inl h
  · exact .inr h

theorem Agree.prior_eq (h : Agree S T) {id : Option String} (hid : id ∈ S.listedIds) :
    (S.prior id).map PublicNode.live = (T.prior id).map PublicNode.live := by
  have hprior : ∀ U : Instance, U.prior id = (U.nodes.filter fun p => p.id = id).getLast? := by
    intro U
    rw [prior, Map.get_setAll, Map.get_empty, Option.or_none, find?_reverse, Option.map_id']
  rw [hprior, hprior, ← List.getLast?_map, ← List.getLast?_map, h.nodes id hid]

theorem Agree.observed_eq (h : Agree S T) {n : PublicNode} (hid : n.id ∈ S.listedIds) :
    S.observed n = T.observed n := by
  have hp := h.prior_eq hid
  unfold observed
  rw [approvedIds, approvedIds, h.approved_eq]
  cases hs : S.prior n.id with
  | none =>
    rw [hs] at hp
    rw [Option.map_eq_none_iff.1 hp.symm, PublicNode.key, h.pending n.id hid]
  | some p =>
    rw [hs] at hp
    obtain ⟨p', ht, hlive⟩ := Option.map_eq_some_iff.1 hp.symm
    rw [ht]
    exact hlive.symm

theorem Agree.withLive_eq (h : Agree S T) {n : PublicNode} (hid : n.id ∈ S.listedIds) :
    S.withLive n = T.withLive n := by
  unfold withLive
  rw [h.observed_eq hid, h.pairingById_eq]

end Live

theorem byId_entry (S : Instance) {id : Option String} {n : PublicNode} (h : S.byId.get id = some n) : n.id = id ∧
    ((∃ s ∈ S.approvedSubs, n = toPublicNode s ((displayPaymentCode S.mapping s).map .str)) ∨
      ∃ s ∈ S.seedNodes, n = toPublicNode s (s.get "paymentCode")) := by
  rw [byId, Map.get_setAll, Map.get_setAll] at h
  cases ha : S.approved.reverse.find? (fun n => n.id = id) with
  | some m =>
    rw [ha] at h
    cases h
    have hm := List.mem_reverse.1 (List.mem_of_find?_eq_some ha)
    obtain ⟨s, hs, hn⟩ := List.mem_map.1 hm
    exact ⟨by simpa using List.find?_some ha, .inl ⟨s, hs, hn.symm⟩⟩
  | none =>
    cases hs : S.seedNodes.reverse.find? (fun n => n.id = id) with
    | some s =>
      rw [ha, hs] at h
      cases h
      have hid : s.id = id := by simpa using List.find?_some hs
      exact ⟨hid, .inr ⟨s, List.mem_reverse.1 (List.mem_of_find?_eq_some hs), rfl⟩⟩
    | none =>
      rw [ha, hs] at h
      cases h

theorem mem_byId (h : n ∈ S.byId.values) : n.id ∈ S.byId.keys ∧ S.byId.get n.id = some n := by
  obtain ⟨⟨id, n'⟩, hx, rfl⟩ := List.mem_map.1 h
  have hg := Map.get_eq_some.2 hx
  obtain ⟨rfl, -⟩ := S.byId_entry hg
  exact ⟨List.mem_map.2 ⟨_, hx, rfl⟩, hg⟩

theorem Agree.published_eq (h : Agree S T) : S.published = T.published := by
  unfold published
  rw [← h.byId_eq, List.map_map, List.map_map]
  refine List.map_congr_left fun n hn => ?_
  have hid : (S.withDomain n).id ∈ S.listedIds := mem_listedIds (mem_byId hn).1
  rw [Function.comp_apply, Function.comp_apply, ← h.withDomain_eq, h.withLive_eq hid]

/-- A published node has all the keys of the allowlist where its record has those that it needs. -/
theorem keys_withLive (S : Instance) {r : RawRecord} (code : Option Json) (hid : r.id.isSome)
    (hnetwork : (r.get "network").isSome) (hpayload : (r.get "payload").isSome) :
    (S.withLive (S.withDomain (toPublicNode r code))).keys = publicNodeKeys := by
  obtain ⟨id, hid⟩ := Option.isSome_iff_exists.1 hid
  obtain ⟨network, hnetwork⟩ := Option.isSome_iff_exists.1 hnetwork
  obtain ⟨payload, hpayload⟩ := Option.isSome_iff_exists.1 hpayload
  have hname : ∃ name, (toPublicNode r code).name = some name := by
    rw [toPublicNode, hid]
    cases orNothing (r.get "name") with
    | some v => exact ⟨v, rfl⟩
    | none =>
      cases orNothing (r.get "paynym") with
      | some v => exact ⟨v, rfl⟩
      | none => exact ⟨.str id, rfl⟩
  have hnullish : ∀ v w, ∃ u, nullish v (some w) = some u := by
    intro v w
    cases v with
    | none => exact ⟨w, rfl⟩
    | some v => cases v <;> exact ⟨_, rfl⟩
  have hproof : ∃ v, (S.withDomain (toPublicNode r code)).operatorDomainProof = some v := by
    unfold withDomain
    dsimp only
    split
    · exact ⟨_, rfl⟩
    · exact ⟨_, rfl⟩
  obtain ⟨name, hname⟩ := hname
  obtain ⟨proof, hproof⟩ := hproof
  unfold PublicNode.keys PublicNode.fields withLive
  dsimp only
  obtain ⟨status, hstatus⟩ := hnullish (S.observed (S.withDomain (toPublicNode r code))).status
    (.str "inactive")
  obtain ⟨checkedAt, hchecked⟩ :=
    hnullish (S.observed (S.withDomain (toPublicNode r code))).checkedAt .null
  obtain ⟨height, hheight⟩ :=
    hnullish (S.observed (S.withDomain (toPublicNode r code))).blockHeight .null
  rw [hproof]
  have hs : (S.withDomain (toPublicNode r code)).status = some (.str "inactive") := rfl
  have hc : (S.withDomain (toPublicNode r code)).checkedAt = some .null := rfl
  have hh : (S.withDomain (toPublicNode r code)).blockHeight = some .null := rfl
  rw [hs, hc, hh, hstatus, hchecked, hheight]
  unfold withDomain
  dsimp only
  rw [hname]
  simp [toPublicNode, hid, hnetwork, hpayload, orNullValue, effectiveVersion, effectiveIndexer,
    publicNodeKeys]

/-- Every published node is that of a record which may be published, under its id and with its
payload, and has the keys of the allowlist where the record has an id, a network and a payload. -/
structure Listed (S : Instance) (n : PublicNode) (r : RawRecord) : Prop where
  mem : r ∈ S.seedNodes ++ S.approvedSubs
  id : n.id = r.id
  payload : n.payload = r.get "payload"
  keys : r.id.isSome → (r.get "network").isSome → (r.get "payload").isSome →
    n.keys = publicNodeKeys

theorem mem_published (h : n ∈ S.published) : ∃ r, Listed S n r := by
  obtain ⟨n₁, hn₁, rfl⟩ := List.mem_map.1 h
  obtain ⟨n₀, hn₀, rfl⟩ := List.mem_map.1 hn₁
  obtain ⟨-, ⟨s, hs, rfl⟩ | ⟨s, hs, rfl⟩⟩ := S.byId_entry (mem_byId hn₀).2
  · exact ⟨s, List.mem_append_right _ hs, rfl, rfl, S.keys_withLive _⟩
  · exact ⟨s, List.mem_append_left _ hs, rfl, rfl, S.keys_withLive _⟩

end Instance

/-- Two instances that agree on what may be published publish the same nodes, with the keys of the
allowlist, whatever else they hold and whenever they rebuild. -/
theorem publishes_only_allowlist (S T : Instance) (h : S.Agree T) (H H' : HistoryRules)
    (now now' : Int) :
    (S.rebuild H now).nodes = (T.rebuild H' now').nodes ∧
      ∀ n ∈ (S.rebuild H now).nodes, ∃ r, S.Listed n r := by
  constructor
  · exact h.published_eq
  · intro n hn
    exact Instance.mem_published hn

/-- An approved submission, with fields that nothing publishes. -/
def sampleSubmission (status id : String) (rest : List (String × Json)) : String × RawRecord :=
  (id, ⟨[("id", .str id), ("network", .str "mainnet"), ("name", .str "dojo"), ("status", .str status),
    ("paymentCodes", .arr [.str "PM8Tmaxim"]), ("payload", .obj [("pairing", .obj [])]),
    ("signed", .str "BEGIN BITCOIN SIGNED MESSAGE BEGIN BITCOIN SIGNATURE")] ++ rest⟩)

def plainInstance : Instance where
  store := { submissions := [("approved", "mainnet-dojo", [])].map fun x =>
    sampleSubmission x.1 x.2.1 x.2.2 }

/-- The same instance with a note on its record, a submission that waits, and a session. -/
def annotatedInstance : Instance where
  store := {
    submissions := [("approved", "mainnet-dojo", [("moderator_note", .str "rude")]),
      ("pending", "mainnet-other", [])].map fun x => sampleSubmission x.1 x.2.1 x.2.2
    sessions := [("sid", .obj [("paymentCode", .str "PM8Tmaxim")])] }

theorem sample_approvedSubs {S : Instance} (l : List (String × String × List (String × Json)))
    (hl : S.store.submissions = l.map fun x => sampleSubmission x.1 x.2.1 x.2.2) :
    S.approvedSubs = (l.filter fun x => x.1 = "approved").map fun x =>
      (sampleSubmission x.1 x.2.1 x.2.2).2 := by
  have hcodes : ∀ status id rest, (sampleSubmission status id rest).2.paymentCodes ≠ [] := by
    intro status id rest
    have hget : (sampleSubmission status id rest).2.get "paymentCodes" =
      some (.arr [.str "PM8Tmaxim"]) := rfl
    have hcodes : (sampleSubmission status id rest).2.paymentCodes = unique ["PM8Tmaxim"] := by
      rw [RawRecord.paymentCodes, hget]
      rfl
    rw [hcodes]
    decide
  have hblock : ∀ status id rest, (sampleSubmission status id rest).2.hasSignedBlock = true := by
    intro status id rest
    have hget : asText ((sampleSubmission status id rest).2.get "signed") =
      some "BEGIN BITCOIN SIGNED MESSAGE BEGIN BITCOIN SIGNATURE" := rfl
    rw [RawRecord.hasSignedBlock, hget]
    decide +kernel
  have hstatus : ∀ status id rest, asText ((sampleSubmission status id rest).2.get "status") =
    some status := fun _ _ _ => rfl
  unfold Instance.approvedSubs
  rw [hl]
  clear hl
  induction l with
  | nil => rfl
  | cons x l ih =>
    simp only [List.map_cons, List.filter_cons, hstatus] at ih ⊢
    by_cases hx : x.1 = "approved"
    · simp [hx, hcodes, hblock, ← ih]
    · simp [hx, ← ih]

theorem publishes_only_allowlist_annotated :
    (plainInstance.rebuild ⟨0, 144, 90⟩ 0).nodes = (annotatedInstance.rebuild ⟨0, 144, 90⟩ 1).nodes ∧
      ∀ n ∈ (plainInstance.rebuild ⟨0, 144, 90⟩ 0).nodes, ∃ r, plainInstance.Listed n r := by
  have hplain : plainInstance.approvedSubs = [(sampleSubmission "approved" "mainnet-dojo" []).2] := by
    rw [sample_approvedSubs _ rfl]
    rfl
  have hannotated : annotatedInstance.approvedSubs =
      [(sampleSubmission "approved" "mainnet-dojo" [("moderator_note", .str "rude")]).2] := by
    rw [sample_approvedSubs _ rfl]
    rfl
  refine publishes_only_allowlist plainInstance annotatedInstance ⟨?_, rfl, ?_, rfl, ?_, ?_⟩ _ _ 0 1
  · rw [hplain, hannotated]
    rfl
  · exact fun c _ => rfl
  · exact fun id _ => rfl
  · exact fun id _ => rfl

end Server

end Mise
