import Mise.Server.Idempotent

set_option autoImplicit true

namespace Mise.Server

open Js

/-- What a probe of a node returns. -/
structure ProbeResult where
  up : Bool
  height : Option Int := none
  detectedVersion : Option String := none
  detectedIndexer : Option String := none

/-- How a time is written as `checked_at`, and a number as JSON. -/
structure CycleText where
  dateTime : Int → String
  number : Int → String

/-- An instance, with what `dojos.json` says besides its nodes: when it was generated, and the last
fault, with its time and the number of nodes that were probed. -/
structure Updated extends Instance where
  generatedAt : Stamp := .absent
  probeFault : Option (Int × Nat) := none

/-- A cycle of the updater: when it reconciles the list, when it starts to probe, and what the probes
find of a node and of a pending submission. -/
structure Cycle where
  rebuilt : Int
  now : Int
  probe : PublicNode → ProbeResult
  pendingProbe : String → ProbeResult

/-- What the cycle writes of a node that it has probed. -/
def PublicNode.probed (T : CycleText) (now : Int) (r : ProbeResult) (n : PublicNode) : PublicNode :=
  { n with
    status := some (.str (if r.up then "active" else "inactive"))
    checkedAt := some (.str (T.dateTime now))
    blockHeight := (r.height.map fun h => .num (T.number h)) <|> n.blockHeight <|> some .null
    detectedVersion := ((present r.detectedVersion).map .str) <|> n.detectedVersion <|> some .null
    detectedIndexer := ((present r.detectedIndexer).map .str) <|> n.detectedIndexer <|> some .null }

/-- What the cycle writes of a pending submission. -/
def PendingEntry.probed (T : CycleText) (window : Nat) (now : Int) (r : ProbeResult)
    (prev : Option PendingEntry) : PendingEntry where
  checks := addCheck window (now / 60000) { up := r.up } ((prev.map fun p => p.checks).getD [])
  live := {
    status := some (.str (if r.up then "active" else "inactive"))
    checkedAt := some (.str (T.dateTime now))
    blockHeight := (r.height.map fun h => .num (T.number h)) <|>
      nullish (prev.bind fun p => p.live.blockHeight) (some .null)
    detectedVersion := ((present r.detectedVersion).map .str) <|>
      nullish (prev.bind fun p => p.live.detectedVersion) (some .null)
    detectedIndexer := ((present r.detectedIndexer).map .str) <|>
      nullish (prev.bind fun p => p.live.detectedIndexer) (some .null) }

namespace Updated

variable (H : HistoryRules) (T : CycleText)

/-- `rebuild`, which writes `dojos.json` anew. -/
def reconcile (rebuilt : Int) (u : Updated) : Updated where
  toInstance := u.toInstance.rebuild H rebuilt
  generatedAt := .at (isoSec rebuilt)
  probeFault := none

def pendingSubs (u : Updated) : List RawRecord :=
  (u.store.submissions.map Prod.snd).filter fun s => asText (s.get "status") = some "pending"

/-- Every node that was probed has failed. -/
def allFailed (c : Cycle) (u : Updated) : Bool :=
  !u.nodes.isEmpty && u.nodes.all fun n => !(c.probe n).up

/-- What a cycle does once the list is reconciled. -/
def record (c : Cycle) (u : Updated) : Updated :=
  if u.allFailed c then { u with probeFault := some (isoSec c.now, u.nodes.length) }
  else
    { u with
      nodes := u.nodes.map fun n => n.probed T c.now (c.probe n)
      files := u.files.update H (u.nodes.map fun n =>
        (n.key, { up := (c.probe n).up, height := (c.probe n).height })) c.now
      pending := if u.pendingSubs.isEmpty then u.pending
        else u.pendingSubs.foldl (fun t s =>
          let key := s.id.getD "undefined"
          t.set key (.probed T H.window c.now (c.pendingProbe key) (u.pending.get key))) {}
      generatedAt := .at (isoSec c.now)
      probeFault := none }

def cycle (c : Cycle) (u : Updated) : Updated := (u.reconcile H c.rebuilt).record H T c

/-- The instance after these cycles, newest first. -/
def after (u : Updated) : List Cycle → Updated
  | [] => u
  | c :: earlier => (after u earlier).cycle H T c

/-- The nodes that the cycle probes. -/
def probes (u : Updated) (c : Cycle) : List PublicNode := (u.reconcile H c.rebuilt).nodes

/-- At least one node has answered the cycle. -/
def Reaches (u : Updated) (c : Cycle) : Prop := ∃ n ∈ u.probes H c, (c.probe n).up = true

instance (u : Updated) (c : Cycle) : Decidable (u.Reaches H c) :=
  inferInstanceAs (Decidable (∃ n ∈ u.probes H c, (c.probe n).up = true))

/-- The time of the latest of these cycles that has reached a node, or else what the list said before
them. -/
def lastReached (u : Updated) : List Cycle → Stamp
  | [] => u.generatedAt
  | c :: earlier => if (u.after H T earlier).Reaches H c then .at (isoSec c.now)
      else lastReached u earlier

/-- The time with which a cycle that reaches no node stamps the list. -/
def idleStamp (u : Updated) (c : Cycle) : Int :=
  isoSec (if (u.probes H c).isEmpty then c.now else c.rebuilt)

/-- A node is as it was, as far as what probes have found of it. -/
structure Unchanged (p n : PublicNode) : Prop where
  status : n.status = nullish p.status (some (.str "inactive"))
  checkedAt : n.checkedAt = nullish p.checkedAt (some .null)
  blockHeight : n.blockHeight = nullish p.blockHeight (some .null)

/-- No row of a history file has changed, nor any been added, for a node that is listed. -/
def RowsKept (listed : Option String → Prop) (m m' : Table (Bucket ρ)) : Prop :=
  ∀ id b, listed (some id) → m.get id = some b →
    ∃ b', m'.get id = some b' ∧ b'.rows = b.rows

/-- What a cycle that every node has failed leaves: a list of all the nodes that the store and the
seeds name, with all that was known of them, and a marker. -/
structure FaultKept (u u' : Updated) (c : Cycle) : Prop where
  listed : u'.nodes.map PublicNode.id = u.byId.keys
  nodes : ∀ p ∈ u.nodes, (∀ q ∈ u.nodes, q.id = p.id → q = p) →
    ∀ n ∈ u'.nodes, n.id = p.id → Unchanged p n
  hist : RowsKept (· ∈ u.byId.keys) u.files.hist u'.files.hist
  daily : RowsKept (· ∈ u.byId.keys) u.files.daily u'.files.daily
  marker : u'.probeFault = some (isoSec c.now, u'.nodes.length)

/-- After every cycle the list is dated by the latest that reached a node, a cycle that every node
has failed leaves the data as they were, and the marker stays until a cycle reaches a node. -/
structure FaultsUnpublished (u : Updated) (l : List Cycle) : Prop where
  dated : ∀ l', l' <:+ l → (u.after H T l').generatedAt = u.lastReached H T l'
  kept : ∀ c earlier, c :: earlier <:+ l → ((u.after H T earlier).reconcile H c.rebuilt).allFailed c →
    FaultKept (u.after H T earlier) (u.after H T (c :: earlier)) c
  stays : ∀ c d earlier, c :: d :: earlier <:+ l → (u.after H T (d :: earlier)).probeFault ≠ none →
    (u.after H T (c :: d :: earlier)).probeFault = none → (u.after H T (d :: earlier)).Reaches H c

end Updated

section Facts

variable {H : HistoryRules} {T : CycleText} {u : Updated} {c : Cycle}

open Updated

theorem allFailed_iff : (u.reconcile H c.rebuilt).allFailed c = true ↔
    u.probes H c ≠ [] ∧ ¬ u.Reaches H c := by
  unfold allFailed Reaches
  rw [Bool.and_eq_true, List.all_eq_true]
  have hnodes : (u.reconcile H c.rebuilt).nodes = u.probes H c := rfl
  rw [hnodes]
  constructor
  · rintro ⟨hne, hall⟩
    refine ⟨by simpa using hne, ?_⟩
    rintro ⟨n, hn, hup⟩
    have hdown := hall n hn
    rw [hup] at hdown
    cases hdown
  · rintro ⟨hne, hall⟩
    refine ⟨by simpa using hne, fun n hn => ?_⟩
    cases hup : (c.probe n).up with
    | false => rfl
    | true => exact absurd ⟨n, hn, hup⟩ hall

theorem generatedAt_cycle (H : HistoryRules) (T : CycleText) (u : Updated) (c : Cycle) :
    (u.cycle H T c).generatedAt =
      if u.Reaches H c then .at (isoSec c.now) else .at (u.idleStamp H c) := by
  unfold cycle record
  cases hf : (u.reconcile H c.rebuilt).allFailed c with
  | true =>
    obtain ⟨hne, hr⟩ := allFailed_iff.1 hf
    rw [if_pos rfl, if_neg hr, idleStamp, List.isEmpty_eq_false_iff.2 hne]
    rfl
  | false =>
    rw [if_neg Bool.false_ne_true]
    by_cases hr : u.Reaches H c
    · rw [if_pos hr]
    · have hempty : u.probes H c = [] := by
        by_contra hne
        exact Bool.false_ne_true (hf.symm.trans (allFailed_iff.2 ⟨hne, hr⟩))
      rw [if_neg hr, idleStamp, hempty]
      rfl

theorem probeFault_cycle (H : HistoryRules) (T : CycleText) (u : Updated) (c : Cycle) :
    (u.cycle H T c).probeFault =
      if (u.reconcile H c.rebuilt).allFailed c then some (isoSec c.now, (u.probes H c).length)
      else none := by
  unfold cycle record
  cases (u.reconcile H c.rebuilt).allFailed c with
  | true => rfl
  | false => rfl

theorem byId_cycle (H : HistoryRules) (T : CycleText) (u : Updated) (c : Cycle) :
    (u.cycle H T c).byId = u.byId := by
  unfold cycle record
  split <;> rfl

theorem byId_after (H : HistoryRules) (T : CycleText) (u : Updated) (l : List Cycle) :
    (u.after H T l).byId = u.byId := by
  induction l with
  | nil => rfl
  | cons c l ih => exact (byId_cycle H T _ c).trans ih

theorem probes_ids (H : HistoryRules) (u : Updated) (c : Cycle) :
    (u.probes H c).map PublicNode.id = u.byId.keys := u.toInstance.published_ids

/-- Neither a seed node nor a submission has a status, a check or a height before it is probed. -/
theorem fresh_of_byId {S : Instance} {id : Option String} {n : PublicNode} (h : S.byId.get id = some n) :
    n.status = some (.str "inactive") ∧ n.checkedAt = some .null ∧ n.blockHeight = some .null := by
  obtain ⟨-, ⟨s, -, rfl⟩ | ⟨s, -, rfl⟩⟩ := S.byId_entry h
  · exact ⟨rfl, rfl, rfl⟩
  · exact ⟨rfl, rfl, rfl⟩

theorem unchanged_published {S : Instance} {p n : PublicNode} (hp : p ∈ S.nodes)
    (hu : ∀ q ∈ S.nodes, q.id = p.id → q = p) (hn : n ∈ S.published) (hid : n.id = p.id) :
    Updated.Unchanged p n := by
  obtain ⟨n₁, hn₁, rfl⟩ := List.mem_map.1 hn
  obtain ⟨n₀, hn₀, rfl⟩ := List.mem_map.1 hn₁
  obtain ⟨hs, hc, hb⟩ := fresh_of_byId (Instance.mem_byId hn₀).2
  have hprior : S.prior n₀.id = some p := by
    have hid : n₀.id = p.id := hid
    rw [hid]
    exact Instance.prior_unique hp hu
  have hobserved : S.observed (S.withDomain n₀) = p.live := by
    have hprior : S.prior (S.withDomain n₀).id = some p := hprior
    rw [Instance.observed, hprior]
  unfold Instance.withLive
  rw [hobserved]
  exact ⟨congrArg (nullish p.status) hs, congrArg (nullish p.checkedAt) hc,
    congrArg (nullish p.blockHeight) hb⟩

theorem get_ensureBuckets {S : Instance} {rows : PendingNode → List ρ} {m : Table (Bucket ρ)}
    {id : String} (h : m.get id = some b) (nodes : List PublicNode) :
    (S.ensureBuckets rows nodes m).get id = some b := by
  induction nodes generalizing m with
  | nil => exact h
  | cons n nodes ih =>
    rw [Instance.ensureBuckets]
    apply ih
    split
    · exact h
    · next hf =>
      rw [Table.get_set]
      split
      · next hid =>
        subst hid
        rw [Table.find, h] at hf
        exact absurd rfl hf
      · exact h

theorem rowsKept_rebuild {S : Instance} (rows : PendingNode → List ρ) (now grace : Int)
    (m : Table (Bucket ρ)) :
    RowsKept (· ∈ S.byId.keys) m (S.rebuildBuckets rows now grace m) := by
  intro id b hid hb
  refine ⟨{ b with retired := .absent }, ?_, rfl⟩
  rw [Instance.rebuildBuckets, get_retireUnlisted, get_ensureBuckets hb, Option.bind_some,
    decide_eq_true hid]
  rfl

theorem faultKept_cycle (h : (u.reconcile H c.rebuilt).allFailed c = true) :
    FaultKept u (u.cycle H T c) c := by
  have hcycle : u.cycle H T c =
      { u.reconcile H c.rebuilt with probeFault := some (isoSec c.now, (u.probes H c).length) } := by
    unfold cycle record
    rw [h]
    rfl
  have hlisted : (u.probes H c).map PublicNode.id = u.byId.keys := probes_ids H u c
  have hmarker : (u.probes H c).length = (u.cycle H T c).nodes.length := by
    rw [hcycle]
    rfl
  constructor
  · rw [hcycle]
    exact hlisted
  · rw [hcycle]
    intro p hp hu n hn hid
    exact unchanged_published hp hu hn hid
  · rw [hcycle]
    exact rowsKept_rebuild PendingNode.checks c.rebuilt H.grace u.files.hist
  · rw [hcycle]
    exact rowsKept_rebuild PendingNode.days c.rebuilt H.grace u.files.daily
  · rw [← hmarker, hcycle]

/-- Only a cycle that reaches a node takes away the marker that a cycle has left. -/
theorem marker_stays {d : Cycle} {earlier : List Cycle}
    (hm : (u.after H T (d :: earlier)).probeFault ≠ none)
    (hgone : (u.after H T (c :: d :: earlier)).probeFault = none) :
    (u.after H T (d :: earlier)).Reaches H c := by
  have hids (e : Cycle) (l : List Cycle) : ((u.after H T l).probes H e).map PublicNode.id =
      u.byId.keys := (probes_ids H _ e).trans (congrArg Map.keys (byId_after H T u l))
  rw [after, probeFault_cycle] at hm
  split at hm
  · next hf =>
    by_contra hr
    have hne : (u.after H T (d :: earlier)).probes H c ≠ [] := by
      intro he
      have hc := hids c (d :: earlier)
      have hd := hids d earlier
      rw [he] at hc
      rw [← hc] at hd
      exact (allFailed_iff.1 hf).1 (List.map_eq_nil_iff.1 hd)
    rw [after, probeFault_cycle, if_pos (allFailed_iff.2 ⟨hne, hr⟩)] at hgone
    cases hgone
  · exact absurd rfl hm

/-- The list is dated by data exactly if each cycle reaches a node, or stamps the list with the
second of the latest that did. -/
theorem dated_iff (H : HistoryRules) (T : CycleText) (u : Updated) (l : List Cycle) :
    (∀ l', l' <:+ l → (u.after H T l').generatedAt = u.lastReached H T l') ↔
      ∀ c earlier, c :: earlier <:+ l → (u.after H T earlier).Reaches H c ∨
        u.lastReached H T earlier = .at ((u.after H T earlier).idleStamp H c) := by
  constructor
  · intro h c earlier hs
    have hd := h _ hs
    rw [after, generatedAt_cycle, lastReached] at hd
    by_cases hr : (u.after H T earlier).Reaches H c
    · exact .inl hr
    · rw [if_neg hr, if_neg hr] at hd
      exact .inr hd.symm
  · intro h l' hs
    cases l' with
    | nil => rfl
    | cons c earlier =>
      rw [after, generatedAt_cycle, lastReached]
      by_cases hr : (u.after H T earlier).Reaches H c
      · rw [if_pos hr, if_pos hr]
      · rw [if_neg hr, if_neg hr]
        exact ((h c earlier hs).resolve_left hr).symm

end Facts

/-- A local fault is not published as data exactly if each cycle reaches a node, or reconciles the
list within the second in which the latest that did has stamped it. -/
theorem faults_unpublished (H : HistoryRules) (T : CycleText) (u : Updated) (l : List Cycle) :
    u.FaultsUnpublished H T l ↔
      ∀ c earlier, c :: earlier <:+ l → (u.after H T earlier).Reaches H c ∨
        u.lastReached H T earlier = .at ((u.after H T earlier).idleStamp H c) := by
  rw [← dated_iff]
  constructor
  · exact fun h => h.dated
  · intro h
    constructor
    · exact h
    · intro c earlier _ hf
      exact faultKept_cycle hf
    · intro c d earlier _ hm hgone
      exact marker_stays hm hgone

/-- A cycle in which every probe ends in the same way. -/
def uniformCycle (rebuilt now : Int) (up : Bool) : Cycle where
  rebuilt
  now
  probe _ := { up }
  pendingProbe _ := { up }

theorem reaches_uniform (H : HistoryRules) (u : Updated) (rebuilt now : Int) :
    u.Reaches H (uniformCycle rebuilt now true) ↔ u.probes H (uniformCycle rebuilt now true) ≠ [] := by
  constructor
  · rintro ⟨n, hn, -⟩ hempty
    rw [hempty] at hn
    cases hn
  · intro hne
    obtain ⟨n, hn⟩ := List.exists_mem_of_ne_nil _ hne
    exact ⟨n, hn, rfl⟩

def plainUpdated : Updated := ⟨plainInstance, .absent, none⟩

def listedUpdated : Updated := ⟨listedInstance, .absent, none⟩

def sampleText : CycleText := ⟨fun _ => "", fun _ => "0"⟩

theorem plain_keys : plainInstance.byId.keys = [some "mainnet-dojo"] := by
  have happroved : plainInstance.approvedSubs =
      [(sampleSubmission "approved" "mainnet-dojo" []).2] := by
    rw [sample_approvedSubs _ rfl]
    rfl
  have hseeds : plainInstance.seedNodes = [] := rfl
  rw [Instance.byId, Instance.approved, happroved, hseeds]
  rfl

/-- The list is dated ten minutes later by a cycle that has reached nothing. -/
theorem failure_dates_list :
    ¬ plainUpdated.FaultsUnpublished ⟨0, 144, 90⟩ sampleText
      [uniformCycle 600000 601000 false, uniformCycle 0 1000 true] := by
  have hreached : plainUpdated.Reaches ⟨0, 144, 90⟩ (uniformCycle 0 1000 true) := by
    rw [reaches_uniform]
    intro hempty
    have hids := probes_ids ⟨0, 144, 90⟩ plainUpdated (uniformCycle 0 1000 true)
    rw [hempty] at hids
    cases hids.trans plain_keys
  have hlast : plainUpdated.lastReached ⟨0, 144, 90⟩ sampleText [uniformCycle 0 1000 true] = .at 1000 := by
    rw [Updated.lastReached]
    exact if_pos hreached
  intro h
  have hc := (dated_iff _ _ _ _).1 h.dated (uniformCycle 600000 601000 false)
    [uniformCycle 0 1000 true] List.suffix_rfl
  rw [hlast] at hc
  obtain ⟨n, -, hup⟩ | hc := hc
  · cases hup
  · unfold Updated.idleStamp at hc
    split at hc
    · cases hc
    · cases hc

end Mise.Server
