import Mise.Server.Allowlist
import Mise.Server.ImportPlan

set_option autoImplicit true

namespace Mise.Server

open Js

/-- A record of the store as its document has it, as far as a rebuild reads it. -/
def StoreRecord.raw (rec : StoreRecord) : RawRecord where
  fields := [("id", some (.str rec.id)), ("network", some (.str rec.network.text)),
    ("name", rec.name.map .str), ("status", some (.str rec.status.text)),
    ("paymentCodes", rec.paymentCodes.map fun l => .arr (l.map .str)),
    ("paymentCode", rec.paymentCode.map .str), ("paynym", rec.paynym.map .str),
    ("jurisdiction", rec.jurisdiction.map .str), ("country", rec.country.map .str),
    ("hardware", rec.hardware.map .str),
    ("payload", some (.obj ([("pairing", rec.payload.pairing),
      ("explorer", rec.payload.explorer)].filterMap fun x => x.2.map (x.1, ·)))),
    ("signed", rec.signed.map .str)].filterMap fun x => x.2.map (x.1, ·)

/-- A seed node as its file has it. -/
def Seed.raw (n : Seed) : RawRecord where
  fields := [("id", some (.str n.id)), ("network", some (.str n.network.text)),
    ("name", n.name.map .str), ("paymentCode", n.paymentCode.map .str),
    ("payload", some (.obj ([("pairing", n.payload.pairing),
      ("explorer", n.payload.explorer)].filterMap fun x => x.2.map (x.1, ·)))),
    ("signed", n.signed.map .str)].filterMap fun x => x.2.map (x.1, ·)

theorem raw_id (rec : StoreRecord) : rec.raw.id = some rec.id := rfl

/-- An instance that has this store and these seed nodes, and otherwise the files of `S`. -/
def Instance.withStore (S : Instance) (s : Store) (seeds : List Seed) : Instance :=
  { S with
    store := { S.store with submissions := s.listed.map fun rec => (rec.id, rec.raw) }
    seeds := seeds.map Seed.raw }

section Keys

variable {α : Type} (key : α → Option String) (id : α → String)

/-- A table of the ids by key, in which a later element wins. -/
def indexLast (l : List α) (t : Table String) : Table String :=
  l.foldl (fun t r => (key r).elim t fun k => t.set k (id r)) t

/-- A table of the ids by key, in which what is there stays. -/
def indexFirst (l : List α) (t : Table String) : Table String :=
  l.foldl (fun t r => (key r).elim t fun k => if (t.get k).isSome then t else t.set k (id r)) t

variable {key id} {l : List α} {t : Table String} {k : String}

theorem get_indexLast_frame (h : k ∉ l.filterMap key) : (indexLast key id l t).get k = t.get k := by
  induction l generalizing t with
  | nil => rfl
  | cons r l ih =>
    have hs : indexLast key id (r :: l) t =
      indexLast key id l ((key r).elim t fun k => t.set k (id r)) := rfl
    rw [List.filterMap_cons] at h
    cases hr : key r with
    | none =>
      rw [hr] at h
      rw [hs, hr, ih h]
      rfl
    | some k' =>
      rw [hr, List.mem_cons, not_or] at h
      rw [hs, hr, ih h.2, Option.elim_some, Table.get_set, if_neg h.1]

theorem get_indexLast {r : α} (hr : r ∈ l) (hk : key r = some k) (hn : (l.filterMap key).Nodup) :
    (indexLast key id l t).get k = some (id r) := by
  induction l generalizing t with
  | nil => cases hr
  | cons r' l ih =>
    have hs : indexLast key id (r' :: l) t =
      indexLast key id l ((key r').elim t fun k => t.set k (id r')) := rfl
    rw [List.filterMap_cons] at hn
    obtain rfl | hr := List.mem_cons.1 hr
    · rw [hk, List.nodup_cons] at hn
      rw [hs, hk, get_indexLast_frame hn.1, Option.elim_some, Table.get_set, if_pos rfl]
    · rw [hs]
      cases hr' : key r' with
      | none =>
        rw [hr'] at hn
        exact ih hr hn
      | some k' =>
        rw [hr', List.nodup_cons] at hn
        exact ih hr hn.2

theorem indexFirst_cons (r : α) (l : List α) (t : Table String) : indexFirst key id (r :: l) t =
    indexFirst key id l ((key r).elim t fun k =>
      if (t.get k).isSome then t else t.set k (id r)) := rfl

theorem get_indexFirst_here {v : String} (h : t.get k = some v) :
    (indexFirst key id l t).get k = some v := by
  induction l generalizing t with
  | nil => exact h
  | cons r l ih =>
    rw [indexFirst_cons]
    apply ih
    cases key r with
    | none => exact h
    | some k' =>
      rw [Option.elim_some]
      split
      · exact h
      · next hnone =>
        rw [Table.get_set, if_neg]
        · exact h
        · rintro rfl
          rw [h] at hnone
          exact hnone rfl

theorem get_indexFirst {r : α} (hr : r ∈ l) (hk : key r = some k) (hn : (l.filterMap key).Nodup)
    (ht : t.get k = none) : (indexFirst key id l t).get k = some (id r) := by
  induction l generalizing t with
  | nil => cases hr
  | cons r' l ih =>
    rw [List.filterMap_cons] at hn
    rw [indexFirst_cons]
    obtain rfl | hr := List.mem_cons.1 hr
    · apply get_indexFirst_here
      rw [hk, Option.elim_some, ht, Option.isSome_none, if_neg Bool.false_ne_true, Table.get_set,
        if_pos rfl]
    · cases hr' : key r' with
      | none =>
        rw [hr'] at hn
        exact ih hr hn ht
      | some k' =>
        rw [hr', List.nodup_cons] at hn
        have hne : k ≠ k' := by
          rintro rfl
          exact hn.1 (List.mem_filterMap.2 ⟨r, hr, hk⟩)
        refine ih hr hn.2 ?_
        rw [Option.elim_some]
        split
        · exact ht
        · rw [Table.get_set, if_neg hne]
          exact ht

end Keys

/-- The key of a listing's pairing URL. -/
def urlKey (lower : String → String) (p : Payload) : Option String := present (pairingKey lower p)

section Unique

variable (lower : String → String)

/-- The ids and the keys of the pairing URLs of what is listed here. -/
def LocalState.ids (L : LocalState) : List String := L.existingIds ++ L.seeds.map Seed.id

def urlKeys (s : Store) (seeds : List Seed) : List String :=
  s.listed.filterMap (fun r => urlKey lower r.payload) ++
    seeds.filterMap fun n => urlKey lower n.payload

/-- No two listings share an id, or the key of a pairing URL. -/
structure LocalState.Distinct (L : LocalState) : Prop where
  ids : L.ids.Nodup
  keys : (urlKeys lower L.store L.seeds).Nodup

/-- The node lists the same Dojo as a listing here that has an empty id. -/
def LocalState.Nameless (L : LocalState) (k : String) : Prop :=
  (∃ r ∈ L.store.listed, r.id = "" ∧ urlKey lower r.payload = some k) ∨
    ∃ n ∈ L.seeds, n.id = "" ∧ urlKey lower n.payload = some k

/-- An import has neither duplicated nor shadowed a listing. -/
structure Importer.Unshadowed (I : Importer) (L : LocalState) (done : ImportOutcome) : Prop where
  fresh : ∀ r ∈ done.written, r.id ∉ L.ids
  single : (done.written.map ImportRecord.id).Nodup
  keys : (urlKeys I.lower done.store L.seeds).Nodup
  published : ∀ S : Instance, ∀ n ∈ (S.withStore L.store L.seeds).published,
    ∃ n' ∈ (S.withStore done.store L.seeds).published,
      n'.id = n.id ∧ n'.paymentCode = n.paymentCode ∧ n'.payload = n.payload

end Unique

section Import

variable {I : Importer} {R : Remote} {trustedCode : String} {L : LocalState}

/-- Where no two listings share a key, a look-up finds the listing that has it. -/
theorem localByUrl_get (hL : L.Distinct I.lower) {k : String}
    (hk : k ∈ urlKeys I.lower L.store L.seeds)
    (h : present ((L.localByUrl I.lower).get k) = none) : L.Nameless I.lower k := by
  have hkeys := List.nodup_append.1 hL.keys
  have htable : L.localByUrl I.lower = indexFirst (fun n : Seed => urlKey I.lower n.payload) Seed.id
      L.seeds (indexLast (fun r : StoreRecord => urlKey I.lower r.payload) StoreRecord.id
        L.store.listed {}) := rfl
  have hempty : ∀ {id : String}, present (some id) = none → id = "" := by
    intro id hid
    simpa [present, Option.filter] using hid
  obtain hs | hs := List.mem_append.1 hk
  · obtain ⟨r, hr, hrk⟩ := List.mem_filterMap.1 hs
    rw [htable, get_indexFirst_here (get_indexLast hr hrk hkeys.1)] at h
    exact .inl ⟨r, hr, hempty h, hrk⟩
  · obtain ⟨n, hn, hnk⟩ := List.mem_filterMap.1 hs
    have hnone : (indexLast (fun r : StoreRecord => urlKey I.lower r.payload) StoreRecord.id
        L.store.listed {}).get k = none := by
      rw [get_indexLast_frame fun hmem => hkeys.2.2 k hmem k hs rfl]
      rfl
    rw [htable, get_indexFirst hn hnk hkeys.2.1 hnone] at h
    exact .inr ⟨n, hn, hempty h, hnk⟩

/-- A node that arrives has the URL of no listing here, unless that has an empty id. -/
theorem arrives_url (hL : L.Distinct I.lower) {n : RemoteNode} {k : String}
    (h : I.arrives L n = true) (hk : urlKey I.lower (.given n.payload) = some k)
    (hmem : k ∈ urlKeys I.lower L.store L.seeds) : L.Nameless I.lower k := by
  apply localByUrl_get hL hmem
  have hpairing : pairingKey I.lower (.given n.payload) = some k := (Option.filter_eq_some_iff.1 hk).1
  simp only [Importer.arrives, Bool.and_eq_true] at h
  have hurl := h.1.1.1.2
  rw [hpairing, Option.bind_some, Option.isNone_iff_eq_none] at hurl
  exact hurl

/-- A rebuild publishes what it did, where records are added under other ids. -/
theorem published_append {S : Instance} {s s' : Store} {seeds : List Seed} {more : List StoreRecord}
    (hl : s'.listed = s.listed ++ more) (hids : ∀ r ∈ more, r.id ∉ s.listed.map StoreRecord.id)
    (hseeds : ∀ r ∈ more, r.id ∉ seeds.map Seed.id) {n : PublicNode}
    (hn : n ∈ (S.withStore s seeds).published) :
    ∃ n' ∈ (S.withStore s' seeds).published,
      n'.id = n.id ∧ n'.paymentCode = n.paymentCode ∧ n'.payload = n.payload := by
  obtain ⟨n₁, hn₁, rfl⟩ := List.mem_map.1 hn
  obtain ⟨n₀, hn₀, rfl⟩ := List.mem_map.1 hn₁
  obtain ⟨hkeys, hget⟩ := Instance.mem_byId hn₀
  -- a record under a new id is not the last with the id of `n₀`
  have happroved : (S.withStore s' seeds).approved = (S.withStore s seeds).approved ++
      ((((more.map StoreRecord.raw).filter fun s => asText (s.get "status") = some "approved").filter
        fun s => s.paymentCodes ≠ [] && s.hasSignedBlock).map fun s =>
          toPublicNode s ((displayPaymentCode S.mapping s).map .str)) := by
    simp only [Instance.approved, Instance.approvedSubs, Instance.withStore, hl, List.map_append,
      List.filter_append, List.map_map]
    rfl
  have hother : ∀ m ∈ ((((more.map StoreRecord.raw).filter fun s =>
      asText (s.get "status") = some "approved").filter fun s =>
        s.paymentCodes ≠ [] && s.hasSignedBlock).map fun s =>
          toPublicNode s ((displayPaymentCode S.mapping s).map .str)), m.id ≠ n₀.id := by
    intro m hm hid
    obtain ⟨x, hx, rfl⟩ := List.mem_map.1 hm
    obtain ⟨r, hr, rfl⟩ := List.mem_map.1 (List.mem_of_mem_filter (List.mem_of_mem_filter hx))
    have hid : some r.id = n₀.id := hid
    have hlisted := Instance.mem_listedIds hkeys
    rw [← hid, Instance.listedIds, List.mem_append] at hlisted
    obtain hmem | hmem := hlisted
    · obtain ⟨y, hy, hyid⟩ := List.mem_map.1 hmem
      obtain ⟨z, hz, rfl⟩ := List.mem_map.1 (List.mem_of_mem_filter hy)
      exact hseeds r hr (List.mem_map.2 ⟨z, hz, Option.some.inj hyid⟩)
    · obtain ⟨y, hy, hyid⟩ := List.mem_map.1 hmem
      have hy := List.mem_of_mem_filter (List.mem_of_mem_filter hy)
      simp only [Instance.withStore, List.map_map] at hy
      obtain ⟨z, hz, rfl⟩ := List.mem_map.1 hy
      exact hids r hr (List.mem_map.2 ⟨z, hz, Option.some.inj hyid⟩)
  have hget' : (S.withStore s' seeds).byId.get n₀.id = some n₀ := by
    have hseeded : (S.withStore s' seeds).seedNodes = (S.withStore s seeds).seedNodes := rfl
    rw [Instance.byId, happroved, hseeded, Map.setAll_append, Map.get_setAll]
    rw [List.find?_eq_none.2 fun m hm => by simpa using hother m (List.mem_reverse.1 hm)]
    exact hget
  have hmem : n₀ ∈ (S.withStore s' seeds).byId.values :=
    List.mem_map.2 ⟨_, Map.get_eq_some.1 hget', rfl⟩
  exact ⟨_, List.mem_map_of_mem (List.mem_map_of_mem hmem), rfl, rfl, rfl⟩

theorem listed_written (I : Importer) (R : Remote) (trustedCode : String) (L : LocalState)
    (status : Status) (now : Int)
    (h : ((I.landing R trustedCode L).map fun n => asText n.id).Nodup) :
    (I.bootstrapImport R trustedCode L false status now).store.listed = L.store.listed ++
      (I.landing R trustedCode L).map fun n => normaliseSubmission (I.recordOf R status now n).stored := by
  obtain ⟨hw, hs⟩ := written_eq I R trustedCode L status now
  have harrives : ∀ n ∈ I.landing R trustedCode L, n ∈ I.arrivals R trustedCode L :=
    fun n hn => landing_arrives hn
  rw [arrivals_ids harrives status now] at h
  have hnew : ∀ r ∈ (I.landing R trustedCode L).map (I.recordOf R status now),
      L.store.submissions.get r.id = none := by
    intro r hr
    obtain ⟨n, hn, rfl⟩ := List.mem_map.1 hr
    exact existing_none (harrives n hn) status now
  rw [hs, hw, (keep_all L.wellFormed (List.Nodup.of_map _ h) hnew).2, List.map_map]
  rfl

theorem written_ids (I : Importer) (R : Remote) (trustedCode : String) (L : LocalState)
    (status : Status) (now : Int) :
    ((I.bootstrapImport R trustedCode L false status now).written.map ImportRecord.id).map some =
      (I.landing R trustedCode L).map fun n => asText n.id := by
  rw [(written_eq I R trustedCode L status now).1]
  exact (arrivals_ids (fun n hn => landing_arrives hn) status now).symm

theorem urlKeys_written (I : Importer) (R : Remote) (trustedCode : String) (L : LocalState)
    (status : Status) (now : Int)
    (h : ((I.landing R trustedCode L).map fun n => asText n.id).Nodup) :
    (urlKeys I.lower (I.bootstrapImport R trustedCode L false status now).store L.seeds).Perm
      (urlKeys I.lower L.store L.seeds ++
        (I.landing R trustedCode L).filterMap fun n => urlKey I.lower (.given n.payload)) := by
  have hnew : ((I.landing R trustedCode L).map fun n =>
      normaliseSubmission (I.recordOf R status now n).stored).filterMap
        (fun r => urlKey I.lower r.payload) =
      (I.landing R trustedCode L).filterMap fun n => urlKey I.lower (.given n.payload) := by
    rw [List.filterMap_map]
    rfl
  rw [urlKeys, listed_written I R trustedCode L status now h, List.filterMap_append, hnew, urlKeys,
    List.append_assoc, List.append_assoc]
  exact List.Perm.append_left _ List.perm_append_comm

/-- Where no two listings share an id or a URL, an import keeps it so and shadows nothing exactly if
the nodes that it stores have ids and URLs of their own, none the id of a seed node or the URL of a
listing without an id. -/
theorem import_unshadowed (I : Importer) (R : Remote) (trustedCode : String) (L : LocalState)
    (status : Status) (now : Int) (hL : L.Distinct I.lower) :
    I.Unshadowed L (I.bootstrapImport R trustedCode L false status now) ↔
      ((I.landing R trustedCode L).map fun n => asText n.id).Nodup ∧
      ((I.landing R trustedCode L).filterMap fun n => urlKey I.lower (.given n.payload)).Nodup ∧
      ∀ n ∈ I.landing R trustedCode L, asText n.id ∉ L.seeds.map (fun s => some s.id) ∧
        ∀ k, urlKey I.lower (.given n.payload) = some k → ¬ L.Nameless I.lower k := by
  have hids := written_ids I R trustedCode L status now
  have hw := (written_eq I R trustedCode L status now).1
  constructor
  · intro h
    have hnodup : ((I.landing R trustedCode L).map fun n => asText n.id).Nodup := by
      rw [← hids]
      exact h.single.map fun _ _ e => Option.some.inj e
    have hkeys := (urlKeys_written I R trustedCode L status now hnodup).nodup_iff.1 h.keys
    obtain ⟨-, hown, hdisjoint⟩ := List.nodup_append.1 hkeys
    refine ⟨hnodup, hown, fun n hn => ⟨fun hseed => ?_, fun k hk hnameless => ?_⟩⟩
    · obtain ⟨s, hs, hsid⟩ := List.mem_map.1 hseed
      have hwritten : I.recordOf R status now n ∈
          (I.bootstrapImport R trustedCode L false status now).written := by
        rw [hw]
        exact List.mem_map_of_mem hn
      rw [recordOf_id (landing_arrives hn) status now] at hsid
      exact h.fresh _ hwritten (List.mem_append_right _
        (List.mem_map.2 ⟨s, hs, Option.some.inj hsid⟩))
    · have hmem : k ∈ urlKeys I.lower L.store L.seeds := by
        obtain ⟨r, hr, -, hrk⟩ | ⟨s, hs, -, hsk⟩ := hnameless
        · exact List.mem_append_left _ (List.mem_filterMap.2 ⟨r, hr, hrk⟩)
        · exact List.mem_append_right _ (List.mem_filterMap.2 ⟨s, hs, hsk⟩)
      exact hdisjoint k hmem k (List.mem_filterMap.2 ⟨n, hn, hk⟩) rfl
  · rintro ⟨hnodup, hown, hnodes⟩
    have hstored : ∀ n ∈ I.landing R trustedCode L, (I.recordOf R status now n).id ∉ L.existingIds :=
      fun n hn => arrivals_new (landing_arrives hn) status now
    have hseeds : ∀ n ∈ I.landing R trustedCode L,
        (I.recordOf R status now n).id ∉ L.seeds.map Seed.id := by
      intro n hn hmem
      obtain ⟨s, hs, hsid⟩ := List.mem_map.1 hmem
      apply (hnodes n hn).1
      rw [recordOf_id (landing_arrives hn) status now]
      exact List.mem_map.2 ⟨s, hs, congrArg some hsid⟩
    constructor
    · intro r hr hmem
      rw [hw] at hr
      obtain ⟨n, hn, rfl⟩ := List.mem_map.1 hr
      obtain hmem | hmem := List.mem_append.1 hmem
      · exact hstored n hn hmem
      · exact hseeds n hn hmem
    · rw [← hids] at hnodup
      exact List.Nodup.of_map _ hnodup
    · rw [(urlKeys_written I R trustedCode L status now hnodup).nodup_iff]
      refine hL.keys.append hown fun k hmem hk => ?_
      obtain ⟨n, hn, hnk⟩ := List.mem_filterMap.1 hk
      exact (hnodes n hn).2 k hnk (arrives_url hL (arrives_of_mem (landing_arrives hn)) hnk hmem)
    · intro S n hn
      refine published_append (listed_written I R trustedCode L status now hnodup) ?_ ?_ hn
      · intro r hr
        obtain ⟨m, hm, rfl⟩ := List.mem_map.1 hr
        exact hstored m hm
      · intro r hr
        obtain ⟨m, hm, rfl⟩ := List.mem_map.1 hr
        exact hseeds m hm

end Import

/-- An instance with its anchor, and no submissions. -/
def anchoredLocal : LocalState where
  store := {}
  wellFormed := emptyStore_wellFormed
  seeds := [{
    id := "mainnet-c"
    network := .mainnet
    payload := ⟨some (.obj [("url", .str "http://anchor.onion")]), none⟩ }]

theorem anchored_distinct : anchoredLocal.Distinct sampleImporter.lower := by
  constructor
  · decide
  · decide +kernel

theorem import_unshadowed_anchored :
    sampleImporter.Unshadowed anchoredLocal
        (sampleImporter.bootstrapImport partlyCoded "PM8Toperator" anchoredLocal false .approved 0) ↔
      ((sampleImporter.landing partlyCoded "PM8Toperator" anchoredLocal).map fun n =>
        asText n.id).Nodup ∧
      ((sampleImporter.landing partlyCoded "PM8Toperator" anchoredLocal).filterMap fun n =>
        urlKey sampleImporter.lower (.given n.payload)).Nodup ∧
      ∀ n ∈ sampleImporter.landing partlyCoded "PM8Toperator" anchoredLocal,
        asText n.id ∉ anchoredLocal.seeds.map (fun s => some s.id) ∧
          ∀ k, urlKey sampleImporter.lower (.given n.payload) = some k →
            ¬ anchoredLocal.Nameless sampleImporter.lower k :=
  import_unshadowed sampleImporter partlyCoded "PM8Toperator" anchoredLocal .approved 0
    anchored_distinct

/-- A list with a node under the id of the anchor, and of another Dojo. -/
def anchorTwin : Remote :=
  sampleRemote [sampleNode "mainnet-c" "http://c.onion" "1Maxim" "PM8Tmaxim"]

/-- The node is stored under the id of the anchor. -/
theorem import_shadows_anchor : anchoredLocal.Distinct sampleImporter.lower ∧
    ¬ sampleImporter.Unshadowed anchoredLocal
      (sampleImporter.bootstrapImport anchorTwin "PM8Toperator" anchoredLocal false .approved 0) := by
  refine ⟨anchored_distinct, fun h => ?_⟩
  have hnodes : sampleImporter.trustedNodes anchorTwin "PM8Toperator" =
      .ok [.ofJson (sampleNode "mainnet-c" "http://c.onion" "1Maxim" "PM8Tmaxim")] :=
    sample_nodes [("mainnet-c", "http://c.onion", "1Maxim", "PM8Tmaxim")] (by decide)
  have hc : sampleImporter.arrives anchoredLocal
      (.ofJson (sampleNode "mainnet-c" "http://c.onion" "1Maxim" "PM8Tmaxim")) = true :=
    sample_arrives (by decide) (by decide +kernel) sample_blocks.1 (by decide) (by decide)
  have hcoded : sampleImporter.Coded
      (.ofJson (sampleNode "mainnet-c" "http://c.onion" "1Maxim" "PM8Tmaxim")) := by
    decide +kernel
  have hland : sampleImporter.landing anchorTwin "PM8Toperator" anchoredLocal =
      [.ofJson (sampleNode "mainnet-c" "http://c.onion" "1Maxim" "PM8Tmaxim")] := by
    have hid : asText (RemoteNode.ofJson
        (sampleNode "mainnet-c" "http://c.onion" "1Maxim" "PM8Tmaxim")).id = some "mainnet-c" := rfl
    rw [Importer.landing, arrivals_ok hnodes, List.filter_cons, hc, if_pos rfl, List.takeWhile_cons,
      decide_eq_true hcoded, if_pos rfl, List.filter_cons, hid]
    rfl
  have hids := written_ids sampleImporter anchorTwin "PM8Toperator" anchoredLocal .approved 0
  rw [hland] at hids
  have hmem : some "mainnet-c" ∈ ((sampleImporter.bootstrapImport anchorTwin "PM8Toperator"
      anchoredLocal false .approved 0).written.map ImportRecord.id).map some := by
    rw [hids]
    exact List.mem_singleton.2 rfl
  obtain ⟨id, hid, he⟩ := List.mem_map.1 hmem
  obtain ⟨r, hr, rfl⟩ := List.mem_map.1 hid
  apply h.fresh r hr
  rw [Option.some.inj he]
  decide

end Mise.Server
