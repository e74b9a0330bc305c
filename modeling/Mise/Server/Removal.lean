import Mise.Server.UpdateCycle

set_option autoImplicit true

namespace Mise

namespace Js.Map

variable {κ β γ : Type} [DecidableEq κ] {p : κ → Bool} {m m' : Map κ β}

theorem filter_put (p : κ → Bool) (k : κ) (v : β) (l : List (κ × β)) :
    (put k v l).filter (fun x => p x.1) =
      if p k then put k v (l.filter fun x => p x.1) else l.filter fun x => p x.1 := by
  induction l with
  | nil => simp [put, List.filter_cons]
  | cons x l ih =>
    by_cases hx : x.1 = k
    · subst hx
      by_cases hp : p x.1 = true
      · simp [put, hp]
      · simp [put, hp]
    · by_cases hp : p x.1 = true
      · simp only [put, if_neg hx, List.filter_cons, hp, if_true, ih]
        split
        · rfl
        · rfl
      · simp only [put, if_neg hx, List.filter_cons, hp, Bool.false_eq_true, if_false, ih]

/-- Setting only the keys that satisfy `p` gives the entries whose keys do. -/
theorem entries_setAll_filter {key : γ → κ} {value : γ → β} (l : List γ)
    (h : m'.entries = m.entries.filter fun x => p x.1) :
    (setAll key value (l.filter fun x => p (key x)) m').entries =
      (setAll key value l m).entries.filter fun x => p x.1 := by
  induction l generalizing m m' with
  | nil => exact h
  | cons x l ih =>
    have hset := filter_put p (key x) (value x) m.entries
    by_cases hp : p (key x) = true
    · rw [List.filter_cons, if_pos hp]
      apply ih
      rw [if_pos hp, ← h] at hset
      exact hset.symm
    · rw [List.filter_cons, if_neg hp]
      apply ih
      rw [if_neg hp, ← h] at hset
      exact hset.symm

theorem get_of_filter {k : κ} (h : m'.entries = m.entries.filter fun x => p x.1) (hk : p k = true) :
    m'.get k = m.get k := by
  apply Option.ext
  intro v
  rw [get_eq_some, get_eq_some, h, List.mem_filter]
  exact and_iff_left hk

end Js.Map

namespace Server

open Js

/-- How `remove-listing.ts` is called, and whether the service is up. -/
structure Removal where
  ids : List String
  apply : Bool := false
  force : Bool := false
  active : Bool := false

namespace Removal

variable (a : Removal) (S : Instance)

/-- The property that is deleted for an argument that finds something in the store. -/
def foundKey (id : String) : Option String :=
  match S.store.submissions.lookup id with
  | some rec => some (rec.id.getD "undefined")
  | none => if id ∈ objectPrototype then some "undefined" else none

def found : List String := a.ids.filterMap (foundKey S)

/-- Whether a history file has something under one of the ids. -/
def inHistory (m : Table (Bucket ρ)) : Bool := a.ids.any fun id => (m.find [] id).truthy

def purge (m : Table (Bucket ρ)) : Table (Bucket ρ) := a.ids.foldl Table.delete m

/-- What the run leaves of the instance. -/
def run : Instance :=
  if a.ids = [] then S                                 -- usage
  else if a.apply && !a.force && a.active then S       -- refused
  else if a.found S = [] && !a.inHistory S.files.hist && !a.inHistory S.files.daily then S
  else if !a.apply then S                              -- dry run
  else { S with
    store := { S.store with
      submissions := S.store.submissions.filter fun x => x.1 ∉ a.found S }
    files := { hist := a.purge S.files.hist, daily := a.purge S.files.daily } }

/-- Whether the run removes what it finds. -/
def acts : Bool := a.apply && (a.force || !a.active)

end Removal

/-- Each record of the store is under its own id. -/
def Instance.Keyed (S : Instance) : Prop := ∀ x ∈ S.store.submissions, x.2.id = some x.1

/-- What is under the key of a node is none of the removed ones. -/
def spared (ids : List String) (id : Option String) : Bool := id.getD "undefined" ∉ ids

/-- The seed file has none of the nodes. -/
def Instance.Unseeded (ids : List String) (S : Instance) : Prop := ∀ n ∈ S.seeds, spared ids n.id = true

/-- An instance without some of its listings, and without what their histories have. -/
structure Instance.Purged (ids : List String) (S S' : Instance) : Prop where
  submissions : S'.store.submissions = S.store.submissions.filter fun x => x.1 ∉ ids
  domains : S'.store.domains = S.store.domains
  seeds : S'.seeds = S.seeds
  mapping : S'.mapping = S.mapping
  pending : S'.pending = S.pending
  nodes : S'.nodes = S.nodes
  hist : ∀ k, S'.files.hist.get k = if k ∈ ids then none else S.files.hist.get k
  daily : ∀ k, S'.files.daily.get k = if k ∈ ids then none else S.files.daily.get k

section Purge

variable {a : Removal} {S : Instance} {id k : String}

theorem get_purge (m : Table (Bucket ρ)) (k : String) :
    (a.purge m).get k = if k ∈ a.ids then none else m.get k := by
  unfold Removal.purge
  induction a.ids generalizing m with
  | nil => rw [List.foldl_nil, if_neg List.not_mem_nil]
  | cons id ids ih =>
    rw [List.foldl_cons, ih, Table.get_delete]
    by_cases hk : k = id
    · simp [hk]
    · simp [hk]

theorem lookup_of_keyed (h : S.Keyed) {rec : RawRecord} (hr : S.store.submissions.lookup id = some rec) :
    rec.id = some id := h (id, rec) (Table.mem_of_lookup hr)

theorem foundKey_eq (h : S.Keyed) (hid : id ∉ objectPrototype) :
    Removal.foundKey S id = if id ∈ S.store.submissions.map Prod.fst then some id else none := by
  unfold Removal.foundKey
  cases hr : S.store.submissions.lookup id with
  | some rec =>
    have hm : id ∈ S.store.submissions.map Prod.fst := List.mem_map_of_mem (Table.mem_of_lookup hr)
    rw [if_pos hm]
    dsimp only
    rw [lookup_of_keyed h hr]
    rfl
  | none =>
    have hm : id ∉ S.store.submissions.map Prod.fst := by
      intro hm
      obtain ⟨x, hx, rfl⟩ := List.mem_map.1 hm
      simpa using List.lookup_eq_none_iff.1 hr x hx
    rw [if_neg hm]
    exact if_neg hid

theorem mem_found (h : S.Keyed) (hids : ∀ id ∈ a.ids, id ∉ objectPrototype)
    (hk : k ∈ S.store.submissions.map Prod.fst) : k ∈ a.found S ↔ k ∈ a.ids := by
  unfold Removal.found
  rw [List.mem_filterMap]
  constructor
  · rintro ⟨id, hid, he⟩
    rw [foundKey_eq h (hids id hid)] at he
    split at he
    · cases he
      exact hid
    · cases he
  · intro hid
    refine ⟨k, hid, ?_⟩
    rw [foundKey_eq h (hids k hid), if_pos hk]

theorem get_of_notInHistory {m : Table (Bucket ρ)} (h : a.inHistory m = false) (hk : k ∈ a.ids) :
    m.get k = none := by
  have hf := List.any_eq_false.1 h k hk
  cases hg : m.get k with
  | none => rfl
  | some b =>
    rw [Table.find, hg] at hf
    exact absurd rfl hf

theorem purged (hk : S.Keyed) (hids : ∀ id ∈ a.ids, id ∉ objectPrototype) (ha : a.acts = true) :
    S.Purged a.ids (a.run S) := by
  have hact : a.apply = true ∧ (a.apply && !a.force && a.active) = false := by
    unfold Removal.acts at ha
    revert ha
    cases a.apply <;> cases a.force <;> cases a.active <;> decide
  have hsubmissions : (S.store.submissions.filter fun x => x.1 ∉ a.found S) =
      S.store.submissions.filter fun x => x.1 ∉ a.ids := by
    apply List.filter_congr
    intro x hx
    exact decide_eq_decide.2 (not_congr (mem_found hk hids (List.mem_map_of_mem hx)))
  unfold Removal.run
  split
  · next he =>
    rw [he]
    refine ⟨?_, rfl, rfl, rfl, rfl, rfl, fun k => rfl, fun k => rfl⟩
    exact (List.filter_eq_self.2 fun x _ => decide_eq_true List.not_mem_nil).symm
  · rw [hact.2, hact.1, if_neg Bool.false_ne_true]
    split
    · next hn =>
      simp only [Bool.and_eq_true, decide_eq_true_eq, Bool.not_eq_true'] at hn
      obtain ⟨⟨hf, hhist⟩, hdaily⟩ := hn
      have hgone : ∀ {ρ : Type} (m : Table (Bucket ρ)), a.inHistory m = false →
          ∀ k, m.get k = if k ∈ a.ids then none else m.get k := by
        intro ρ m hm k
        split
        · next hk => exact get_of_notInHistory hm hk
        · rfl
      refine ⟨?_, rfl, rfl, rfl, rfl, rfl, hgone _ hhist, hgone _ hdaily⟩
      rw [← hsubmissions, hf]
      exact (List.filter_eq_self.2 fun x _ => decide_eq_true List.not_mem_nil).symm
    · exact ⟨hsubmissions, rfl, rfl, rfl, rfl, rfl, get_purge _, get_purge _⟩

end Purge

section Frame

variable {ids : List String} {S S' : Instance}

namespace Instance.Purged

theorem approvedSubs_eq (h : S.Purged ids S') (hk : S.Keyed) :
    S'.approvedSubs = S.approvedSubs.filter fun s => spared ids s.id := by
  have hlist : (S.store.submissions.filter fun x => x.1 ∉ ids).map Prod.snd =
      (S.store.submissions.map Prod.snd).filter fun s => spared ids s.id := by
    rw [List.filter_map]
    congr 1
    apply List.filter_congr
    intro x hx
    rw [Function.comp_apply, spared, hk x hx]
    rfl
  unfold approvedSubs
  rw [h.submissions, hlist]
  simp only [List.filter_filter]
  apply List.filter_congr
  intro s _
  cases spared ids s.id <;> simp

theorem seedNodes_eq (h : S.Purged ids S') : S'.seedNodes = S.seedNodes := by
  rw [seedNodes, seedNodes, h.seeds]

theorem seeded (hs : S.Unseeded ids) : S.seedNodes = S.seedNodes.filter fun n => spared ids n.id :=
  (List.filter_eq_self.2 fun n hn => hs n (List.mem_filter.1 hn).1).symm

theorem approved_eq (h : S.Purged ids S') (hk : S.Keyed) :
    S'.approved = S.approved.filter fun n => spared ids n.id := by
  unfold approved
  rw [h.approvedSubs_eq hk, h.mapping, List.filter_map]
  rfl

theorem entries_eq (h : S.Purged ids S') (hk : S.Keyed) (hs : S.Unseeded ids) (value value' : RawRecord → β) :
    (Map.setAll RawRecord.id value S'.approvedSubs (Map.setAll RawRecord.id value' S'.seedNodes {})).entries =
      (Map.setAll RawRecord.id value S.approvedSubs
        (Map.setAll RawRecord.id value' S.seedNodes {})).entries.filter fun x => spared ids x.1 := by
  rw [h.approvedSubs_eq hk, h.seedNodes_eq]
  apply Map.entries_setAll_filter
  conv_lhs => rw [seeded hs]
  exact Map.entries_setAll_filter _ rfl

theorem byId_entries (h : S.Purged ids S') (hk : S.Keyed) (hs : S.Unseeded ids) :
    S'.byId.entries = S.byId.entries.filter fun x => spared ids x.1 := by
  unfold byId
  rw [h.approved_eq hk, h.seedNodes_eq]
  apply Map.entries_setAll_filter
  conv_lhs => rw [seeded hs]
  exact Map.entries_setAll_filter _ rfl

theorem withDomain_eq (h : S.Purged ids S') (hk : S.Keyed) (hs : S.Unseeded ids) {n : PublicNode}
    (hn : spared ids n.id = true) : S'.withDomain n = S.withDomain n := by
  have hcodes : S'.ownerCodesById.get n.id = S.ownerCodesById.get n.id :=
    Map.get_of_filter (h.entries_eq hk hs _ _) hn
  have hclaims : S'.verifiedClaims = S.verifiedClaims := by
    rw [verifiedClaims, verifiedClaims, h.domains]
  have hdomains : S'.domainByCode = S.domainByCode := by
    rw [domainByCode, domainByCode, hclaims]
  have hproofs : S'.claimByCode = S.claimByCode := by
    rw [claimByCode, claimByCode, hclaims]
  have hdomain : S'.domainOf = S.domainOf := by
    funext c
    rw [domainOf, domainOf, hdomains]
  unfold withDomain
  rw [hcodes, hdomain, hproofs]

theorem mem_approvedIds (h : S.Purged ids S') (hk : S.Keyed) {n : PublicNode} (hn : spared ids n.id = true) :
    n.id ∈ S'.approvedIds ↔ n.id ∈ S.approvedIds := by
  unfold approvedIds
  rw [h.approved_eq hk]
  constructor
  · intro hm
    obtain ⟨x, hx, hid⟩ := List.mem_map.1 hm
    exact List.mem_map.2 ⟨x, (List.mem_filter.1 hx).1, hid⟩
  · intro hm
    obtain ⟨x, hx, hid⟩ := List.mem_map.1 hm
    exact List.mem_map.2 ⟨x, List.mem_filter.2 ⟨hx, hid ▸ hn⟩, hid⟩

theorem withLive_eq (h : S.Purged ids S') (hk : S.Keyed) (hs : S.Unseeded ids) {n : PublicNode}
    (hn : spared ids n.id = true) : S'.withLive n = S.withLive n := by
  have hprior : S'.prior n.id = S.prior n.id := by
    rw [prior, prior, h.nodes]
  have hobserved : S'.observed n = S.observed n := by
    rw [observed, observed, hprior, h.pending]
    simp only [h.mem_approvedIds hk hn]
  have hpairing : S'.pairingById.get n.id = S.pairingById.get n.id :=
    Map.get_of_filter (h.entries_eq hk hs _ _) hn
  unfold withLive
  rw [hobserved, hpairing]

theorem published_eq (h : S.Purged ids S') (hk : S.Keyed) (hs : S.Unseeded ids) :
    S'.published = S.published.filter fun n => spared ids n.id := by
  have hvalues : S'.byId.values = S.byId.values.filter fun n => spared ids n.id := by
    rw [Map.values, Map.values, h.byId_entries hk hs, List.filter_map]
    congr 1
    apply List.filter_congr
    intro x hx
    rw [Function.comp_apply, (S.byId_entry (Map.get_eq_some.2 hx)).1]
  have hown : (fun n => spared ids n.id) ∘ (S.withLive ∘ S.withDomain) = fun n => spared ids n.id := rfl
  unfold published
  rw [List.map_map, List.map_map, hvalues, List.filter_map, hown]
  apply List.map_congr_left
  intro n hn
  have hsp : spared ids n.id = true := (List.mem_filter.1 hn).2
  have hd : spared ids (S.withDomain n).id = true := hsp
  rw [Function.comp_apply, Function.comp_apply, h.withDomain_eq hk hs hsp, h.withLive_eq hk hs hd]

theorem mem_keys (h : S.Purged ids S') (hk : S.Keyed) (hs : S.Unseeded ids) {k : String} (hid : k ∉ ids) :
    some k ∈ S'.byId.keys ↔ some k ∈ S.byId.keys := by
  have hsp : spared ids (some k) = true := decide_eq_true hid
  unfold Map.keys
  rw [h.byId_entries hk hs]
  constructor
  · intro hm
    obtain ⟨x, hx, he⟩ := List.mem_map.1 hm
    exact List.mem_map.2 ⟨x, (List.mem_filter.1 hx).1, he⟩
  · intro hm
    obtain ⟨x, hx, he⟩ := List.mem_map.1 hm
    exact List.mem_map.2 ⟨x, List.mem_filter.2 ⟨hx, he ▸ hsp⟩, he⟩

section Buckets

variable {rows : PendingNode → List ρ} {m m' : Table (Bucket ρ)} {k : String}

/-- A node that is not among these gets no bucket. -/
theorem get_ensureBuckets_frame {nodes : List PublicNode} (hn : ∀ n ∈ nodes, n.key ≠ k) :
    (S.ensureBuckets rows nodes m).get k = m.get k := by
  induction nodes generalizing m with
  | nil => rfl
  | cons n nodes ih =>
    obtain ⟨hne, hn⟩ := List.forall_mem_cons.1 hn
    rw [Instance.ensureBuckets, ih hn]
    split
    · rfl
    · rw [Table.get_set, if_neg hne.symm]

theorem find_congr {t t' : Table β} (h : t'.get k = t.get k) : t'.find [] k = t.find [] k := by
  rw [Table.find, Table.find, h]

theorem ensureBuckets_eq (h : S.Purged ids S') (hk : S.Keyed) (hm : ∀ k, k ∉ ids → m'.get k = m.get k)
    (nodes : List PublicNode) (hid : k ∉ ids) :
    (S'.ensureBuckets rows (nodes.filter fun n => spared ids n.id) m').get k =
      (S.ensureBuckets rows nodes m).get k := by
  induction nodes generalizing m m' with
  | nil => exact hm k hid
  | cons n nodes ih =>
    rw [List.filter_cons, Instance.ensureBuckets]
    by_cases hn : spared ids n.id = true
    · have hkey : n.key ∉ ids := of_decide_eq_true hn
      have hrows : S'.seedRows rows n = S.seedRows rows n := by
        rw [seedRows, seedRows, h.pending]
        simp only [h.mem_approvedIds hk hn]
      rw [if_pos hn, Instance.ensureBuckets, find_congr (hm n.key hkey)]
      apply ih
      intro q hq
      split
      · exact hm q hq
      · rw [hrows, Table.get_set, Table.get_set]
        split
        · rfl
        · exact hm q hq
    · have hkey : n.key ∈ ids := by simpa [spared, PublicNode.key] using hn
      rw [if_neg hn]
      apply ih
      intro q hq
      split
      · exact hm q hq
      · have hne : q ≠ n.key := fun e => hq (e ▸ hkey)
        rw [Table.get_set, if_neg hne]
        exact hm q hq

theorem rebuildBuckets_eq (h : S.Purged ids S') (hk : S.Keyed) (hs : S.Unseeded ids)
    (hm : ∀ k, m'.get k = if k ∈ ids then none else m.get k) (now grace : Int) (k : String) :
    (S'.rebuildBuckets rows now grace m').get k =
      if k ∈ ids then none else (S.rebuildBuckets rows now grace m).get k := by
  unfold rebuildBuckets
  rw [get_retireUnlisted, get_retireUnlisted, h.published_eq hk hs]
  split
  · next hid =>
    have hframe : ∀ n ∈ S.published.filter fun n => spared ids n.id, n.key ≠ k := by
      intro n hn he
      have hsp : n.key ∉ ids := of_decide_eq_true (List.mem_filter.1 hn).2
      exact hsp (he ▸ hid)
    rw [get_ensureBuckets_frame hframe, hm k, if_pos hid]
    rfl
  · next hid =>
    have hothers : ∀ q, q ∉ ids → m'.get q = m.get q := by
      intro q hq
      rw [hm q, if_neg hq]
    rw [h.ensureBuckets_eq hk hothers S.published hid]
    simp only [h.mem_keys hk hs hid]

end Buckets

end Instance.Purged

end Frame

/-- A cycle, and how many of its three files the reconcile has written before it threw, if it did:
`main` goes on all the same. -/
structure Attempt extends Cycle where
  written : Nat := 3

namespace Updated

variable (H : HistoryRules) (T : CycleText)

/-- The instance when the reconcile has written this many of `dojos.json`, `history.json` and
`history-daily.json`. -/
def reconcileSome (rebuilt : Int) (written : Nat) (u : Updated) : Updated :=
  let r := u.reconcile H rebuilt
  { u with
    nodes := if 1 ≤ written then r.nodes else u.nodes
    generatedAt := if 1 ≤ written then r.generatedAt else u.generatedAt
    probeFault := if 1 ≤ written then r.probeFault else u.probeFault
    files := {
      hist := if 2 ≤ written then r.files.hist else u.files.hist
      daily := if 3 ≤ written then r.files.daily else u.files.daily } }

def attempt (c : Attempt) (u : Updated) : Updated :=
  (u.reconcileSome H c.rebuilt c.written).record H T c.toCycle

/-- The instance after these cycles, newest first. -/
def attempts (u : Updated) : List Attempt → Updated
  | [] => u
  | c :: earlier => (attempts u earlier).attempt H T c

theorem attempt_whole (u : Updated) (c : Cycle) : u.attempt H T { c with } = u.cycle H T c := rfl

end Updated

/-- A removal that has gone through: the next rebuild leaves of the public list and of the histories what
it would have left without the removal, less the removed nodes; the histories have nothing of the nodes;
and once a cycle of the updater has written the list anew, that cycle and whatever others follow it
neither list the nodes nor give them a history. -/
structure Removed (H : HistoryRules) (T : CycleText) (ids : List String) (u u' : Updated) : Prop where
  nodes : ∀ now, (u'.rebuild H now).nodes = (u.rebuild H now).nodes.filter fun n => n.key ∉ ids
  hist : ∀ now k, (u'.rebuild H now).files.hist.get k =
    if k ∈ ids then none else (u.rebuild H now).files.hist.get k
  daily : ∀ now k, (u'.rebuild H now).files.daily.get k =
    if k ∈ ids then none else (u.rebuild H now).files.daily.get k
  forgotten : ∀ id ∈ ids, u'.files.hist.get id = none ∧ u'.files.daily.get id = none
  unlisted : ∀ l first, 1 ≤ first.written →
    ∀ n ∈ (u'.attempts H T (l ++ [first])).nodes, n.key ∉ ids
  unrecorded : ∀ l first, 1 ≤ first.written → ∀ id ∈ ids,
    (u'.attempts H T (l ++ [first])).files.hist.get id = none ∧
      (u'.attempts H T (l ++ [first])).files.daily.get id = none

section Cycles

variable {H : HistoryRules} {T : CycleText} {ids : List String} {u u' : Updated}

/-- An instance that has no listing under the ids, and no history of one. -/
structure Without (ids : List String) (S : Instance) : Prop where
  listings : ∀ r ∈ S.seedNodes ++ S.approvedSubs, spared ids r.id = true
  hist : ∀ id ∈ ids, S.files.hist.get id = none
  daily : ∀ id ∈ ids, S.files.daily.get id = none

theorem Without.published {S : Instance} (h : Without ids S) {n : PublicNode} (hn : n ∈ S.published) :
    n.key ∉ ids := by
  obtain ⟨r, hr⟩ := Instance.mem_published hn
  have hsp := h.listings r hr.mem
  rw [← hr.id] at hsp
  exact of_decide_eq_true hsp

theorem Without.buckets {S : Instance} (h : Without ids S) {rows : PendingNode → List ρ}
    {m : Table (Bucket ρ)} (now grace : Int) {id : String} (hid : id ∈ ids) (hm : m.get id = none) :
    (S.rebuildBuckets rows now grace m).get id = none := by
  have hframe : ∀ n ∈ S.published, n.key ≠ id := fun n hn he => h.published hn (he ▸ hid)
  unfold Instance.rebuildBuckets
  rw [get_retireUnlisted, Instance.Purged.get_ensureBuckets_frame hframe, hm]
  rfl

/-- However far the reconcile gets, the ids are without a listing, and not listed where it has written
the list or where they were not before. -/
theorem Without.reconcileSome (h : Without ids u.toInstance) (rebuilt : Int) (written : Nat)
    (hn : 1 ≤ written ∨ ∀ n ∈ u.nodes, n.key ∉ ids) :
    Without ids (u.reconcileSome H rebuilt written).toInstance ∧
      ∀ n ∈ (u.reconcileSome H rebuilt written).nodes, n.key ∉ ids := by
  refine ⟨⟨h.listings, fun id hid => ?_, fun id hid => ?_⟩, fun n hnodes => ?_⟩
  · unfold Updated.reconcileSome
    dsimp only
    split
    · exact h.buckets rebuilt H.grace hid (h.hist id hid)
    · exact h.hist id hid
  · unfold Updated.reconcileSome
    dsimp only
    split
    · exact h.buckets rebuilt H.grace hid (h.daily id hid)
    · exact h.daily id hid
  · unfold Updated.reconcileSome at hnodes
    dsimp only at hnodes
    split at hnodes
    · exact h.published hnodes
    · next hw => exact hn.resolve_left hw n hnodes

/-- Recording a cycle gives a bucket to no node that it has not probed. -/
theorem recordHistory_none {record : ν → List ρ → List ρ} {nodes : List (String × ν)} {now grace : Int}
    {m : Table (Bucket ρ)} {id : String} (hplain : id ∉ objectPrototype) (hn : id ∉ nodes.map Prod.fst)
    (hm : m.get id = none) : (recordHistory record nodes now grace m).get id = none := by
  obtain ⟨-, hg⟩ | ⟨r, hr, -⟩ := get_recordHistory hplain record nodes now grace m
  · rw [hg, hm]
    rfl
  · exact absurd (List.mem_map_of_mem hr) hn

theorem Without.record (h : Without ids u.toInstance) (hplain : ∀ id ∈ ids, id ∉ objectPrototype)
    (hnodes : ∀ n ∈ u.nodes, n.key ∉ ids) (c : Cycle) :
    Without ids (u.record H T c).toInstance ∧ ∀ n ∈ (u.record H T c).nodes, n.key ∉ ids := by
  unfold Updated.record
  split
  · exact ⟨⟨h.listings, h.hist, h.daily⟩, hnodes⟩
  · have hprobed : ∀ id ∈ ids, id ∉ (u.nodes.map fun n =>
        (n.key, ({ up := (c.probe n).up, height := (c.probe n).height } : NodeProbe))).map Prod.fst := by
      intro id hid hm
      rw [List.map_map] at hm
      obtain ⟨n, hn, rfl⟩ := List.mem_map.1 hm
      exact hnodes n hn hid
    constructor
    · constructor
      · exact h.listings
      · exact fun id hid => recordHistory_none (hplain id hid) (hprobed id hid) (h.hist id hid)
      · exact fun id hid => recordHistory_none (hplain id hid) (hprobed id hid) (h.daily id hid)
    · intro n hn
      obtain ⟨n', hn', rfl⟩ := List.mem_map.1 hn
      exact hnodes n' hn'

/-- The first cycle writes the list anew, and the later ones keep the nodes out. -/
theorem Without.attempts (h : Without ids u.toInstance) (hplain : ∀ id ∈ ids, id ∉ objectPrototype)
    {first : Attempt} (hfirst : 1 ≤ first.written) (l : List Attempt) :
    Without ids (u.attempts H T (l ++ [first])).toInstance ∧
      ∀ n ∈ (u.attempts H T (l ++ [first])).nodes, n.key ∉ ids := by
  induction l with
  | nil =>
    obtain ⟨hw, hn⟩ := h.reconcileSome (H := H) first.rebuilt first.written (.inl hfirst)
    exact hw.record hplain hn first.toCycle
  | cons c l ih =>
    obtain ⟨hw, hn⟩ := ih.1.reconcileSome (H := H) c.rebuilt c.written (.inr ih.2)
    exact hw.record hplain hn c.toCycle

theorem Instance.Purged.without {S S' : Instance} (h : S.Purged ids S') (hk : S.Keyed) (hs : S.Unseeded ids) :
    Without ids S' := by
  constructor
  · rw [h.seedNodes_eq, h.approvedSubs_eq hk]
    intro r hr
    obtain hr | hr := List.mem_append.1 hr
    · exact hs r (List.mem_filter.1 hr).1
    · exact (List.mem_filter.1 hr).2
  · intro id hid
    rw [h.hist, if_pos hid]
  · intro id hid
    rw [h.daily, if_pos hid]

/-- What a removal takes away stays away, and nothing else goes. -/
theorem removal (H : HistoryRules) (T : CycleText) (a : Removal) (u : Updated) (ha : a.acts = true)
    (hids : ∀ id ∈ a.ids, id ∉ objectPrototype) (hk : u.Keyed) (hs : u.Unseeded a.ids) :
    Removed H T a.ids u { u with toInstance := a.run u.toInstance } := by
  have hp : u.Purged a.ids (a.run u.toInstance) := purged hk hids ha
  have hw : Without a.ids (a.run u.toInstance) := hp.without hk hs
  constructor
  · exact fun now => hp.published_eq hk hs
  · exact fun now k => hp.rebuildBuckets_eq hk hs hp.hist now H.grace k
  · exact fun now k => hp.rebuildBuckets_eq hk hs hp.daily now H.grace k
  · exact fun id hid => ⟨hw.hist id hid, hw.daily id hid⟩
  · intro l first hfirst
    have hl : Without a.ids (Updated.toInstance { u with toInstance := a.run u.toInstance }) := hw
    exact (hl.attempts hids hfirst l).2
  · intro l first hfirst id hid
    have hl : Without a.ids (Updated.toInstance { u with toInstance := a.run u.toInstance }) := hw
    exact ⟨(hl.attempts hids hfirst l).1.hist id hid, (hl.attempts hids hfirst l).1.daily id hid⟩

def dojoRemoval : Removal where
  ids := ["mainnet-dojo"]
  apply := true

/-- One of two listings is removed, and with it what the histories have of it. -/
theorem removal_dojo : Removed ⟨86400000, 144, 90⟩ sampleText ["mainnet-dojo"] listedUpdated
    { listedUpdated with toInstance := dojoRemoval.run listedInstance } ∧
    some "mainnet-dojo" ∈ listedInstance.published.map PublicNode.id ∧
    (listedInstance.files.hist.get "mainnet-dojo").isSome ∧
    ((dojoRemoval.run listedInstance).rebuild ⟨86400000, 144, 90⟩ 0).nodes.map PublicNode.id =
      [some "mainnet-oak"] := by
  have hremoved : Removed ⟨86400000, 144, 90⟩ sampleText ["mainnet-dojo"] listedUpdated
      { listedUpdated with toInstance := dojoRemoval.run listedInstance } := by
    refine removal ⟨86400000, 144, 90⟩ sampleText dojoRemoval listedUpdated rfl (by decide) ?_ nofun
    intro x hx
    obtain ⟨y, -, rfl⟩ := List.mem_map.1 hx
    rfl
  have hids := listedInstance.published_ids.trans listed_keys
  refine ⟨hremoved, by rw [hids]; exact List.mem_cons_self, rfl, ?_⟩
  have hfilter := List.filter_map (p := fun id : Option String => decide (id.getD "undefined" ∉ ["mainnet-dojo"]))
    (f := PublicNode.id) (l := listedInstance.published)
  have hnodes : ((dojoRemoval.run listedInstance).rebuild ⟨86400000, 144, 90⟩ 0).nodes =
      listedInstance.published.filter fun n => n.key ∉ ["mainnet-dojo"] := hremoved.nodes 0
  rw [hids] at hfilter
  rw [hnodes]
  exact hfilter.symm

end Cycles

end Server

end Mise
