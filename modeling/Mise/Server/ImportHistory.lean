import Mise.Js.Newest
import Mise.Server.Import

set_option autoImplicit true

namespace Mise.Server

open Js

/-- What the entries of a history document have: checks, or days. -/
inductive Series where
  | checks
  | days
  deriving DecidableEq

/-- A row of a history document, with the timestamps that are there and are not empty. -/
structure SeriesRow (κ β : Type) where
  t : Option κ := none
  d : Option κ := none
  body : β
  deriving DecidableEq

def Series.stamp : Series → SeriesRow κ β → Option κ
  | .checks => SeriesRow.t
  | .days => SeriesRow.d

structure SeriesEntry (κ β : Type) where
  checks : Option (List (SeriesRow κ β)) := none
  days : Option (List (SeriesRow κ β)) := none

namespace SeriesEntry

variable {κ β : Type}

/-- `entry[key] || []` -/
def rows (s : Series) (e : SeriesEntry κ β) : List (SeriesRow κ β) :=
  match s with
  | .checks => e.checks.getD []
  | .days => e.days.getD []

/-- `entry.checks ? "checks" : "days"` -/
def key (e : SeriesEntry κ β) : Series := if e.checks.isSome then .checks else .days

/-- `{ [key]: rows }` -/
def only (s : Series) (rows : List (SeriesRow κ β)) : SeriesEntry κ β :=
  match s with
  | .checks => { checks := some rows }
  | .days => { days := some rows }

end SeriesEntry

structure HistoryDoc (κ β : Type) where
  nodes : Table (SeriesEntry κ β) := {}
  windowChecks : Option Nat := none
  intervalMinutes : Option Nat := none

/-- A number that is there and is not 0. -/
def orNumber (n : Option Nat) : Option Nat := n.filter (· ≠ 0)

/-- What is planned, as far as the histories go: which remote nodes are imported, and which are a
local listing under another id. -/
structure HistoryPlan where
  imports : List String
  merges : List (String × String)

def HistoryPlan.ofRows (rows : List (RemoteNode × PlanAction)) : HistoryPlan where
  imports := rows.filterMap fun x => match x.2 with
    | .take _ => asText x.1.id
    | _ => none
  merges := rows.filterMap fun x => match x.2 with
    | .merge dupOf => (asText x.1.id).map fun id => (id, dupOf)
    | _ => none

section Rows

variable {κ β : Type} {nodes : Table (SeriesEntry κ β)} {id k : String} {s : Series}

/-- `(nodes[id] || {})[key] || []` -/
def seriesRows (nodes : Table (SeriesEntry κ β)) (id : String) (s : Series) :
    List (SeriesRow κ β) :=
  match nodes.find [] id with
  | .own e => e.rows s
  | .inherited | .absent => []

/-- How many rows an import leaves of a series. -/
def Series.cap (window : Nat) : Series → Nat
  | .checks => window
  | .days => 90

theorem rows_only (s : Series) (rows : List (SeriesRow κ β)) : (SeriesEntry.only s rows).rows s = rows := by
  cases s <;> rfl

theorem seriesRows_set (nodes : Table (SeriesEntry κ β)) (k id : String) (e : SeriesEntry κ β)
    (s : Series) :
    seriesRows (nodes.set k e) id s = if id = k then e.rows s else seriesRows nodes id s := by
  rw [seriesRows, Table.find, Table.get_set]
  by_cases h : id = k
  · rw [if_pos h, if_pos h]
  · rw [if_neg h, if_neg h, seriesRows, Table.find]

theorem truthy_set (e : SeriesEntry κ β) (h : (nodes.find [] id).truthy = true) :
    ((nodes.set k e).find [] id).truthy = true := by
  rw [Table.find] at h
  rw [Table.find, Table.get_set]
  by_cases hk : id = k
  · rw [if_pos hk]
    rfl
  · rw [if_neg hk]
    exact h

/-- The rows of the entry are those of the series, or it has none. -/
def SeriesEntry.Fits (s : Series) (e : SeriesEntry κ β) : Prop := e.key = s ∨ e.rows .checks = [] ∧ e.rows .days = []

theorem SeriesEntry.Fits.rows_nil {e : SeriesEntry κ β} (h : e.Fits s) (hnil : e.rows e.key = []) :
    e.rows s = [] := by
  rcases h with rfl | ⟨hchecks, hdays⟩
  · exact hnil
  · cases s with
    | checks => exact hchecks
    | days => exact hdays

theorem SeriesEntry.Fits.key_eq {e : SeriesEntry κ β} (h : e.Fits s) (hne : e.rows e.key ≠ []) :
    e.key = s := by
  rcases h with hkey | ⟨hchecks, hdays⟩
  · exact hkey
  · cases hkey : e.key with
    | checks => exact absurd (hkey ▸ hchecks) hne
    | days => exact absurd (hkey ▸ hdays) hne

end Rows

section Import

variable {κ β : Type} [LinearOrder κ]

namespace HistoryPlan

variable (P : HistoryPlan)

/-- What a remote node's history does to the local nodes, and the number of them it was carried to. -/
def carry (window : Nat) (local' : Table (SeriesEntry κ β) × Nat) (x : String × SeriesEntry κ β) :
    Table (SeriesEntry κ β) × Nat :=
  let (nodes, added) := local'
  let (id, entry) := x
  if !(nodes.find [] id).truthy && id ∈ P.imports then (nodes.set id entry, added + 1)
  else
    match P.merges.lookup id with
    | none => (nodes, added)
    | some dupOf =>
      let mine := seriesRows nodes dupOf entry.key
      let theirs := entry.rows entry.key
      if theirs.isEmpty then (nodes, added)
      else
        let all := united entry.key.stamp (theirs ++ mine)
        (nodes.set dupOf (.only entry.key (all.rtake (entry.key.cap window))), added + 1)

/-- A history file after the import. It is not written where nothing was carried. -/
def importHistory (remote mine : HistoryDoc κ β) : HistoryDoc κ β :=
  let window := (orNumber remote.windowChecks <|> orNumber mine.windowChecks).getD 144
  let (nodes, added) := remote.nodes.entries.foldl (P.carry window) (mine.nodes, 0)
  if added = 0 then mine
  else
    { nodes
      intervalMinutes := orNumber mine.intervalMinutes <|> orNumber remote.intervalMinutes <|>
        mine.intervalMinutes
      windowChecks := orNumber mine.windowChecks <|> orNumber remote.windowChecks <|>
        mine.windowChecks }

end HistoryPlan

/-- The rows a document has of a node. -/
def HistoryDoc.rows (doc : HistoryDoc κ β) (id : String) (s : Series) : List (SeriesRow κ β) :=
  seriesRows doc.nodes id s

/-- The window that an instance keeps by its own history file. -/
def HistoryDoc.ownCap (doc : HistoryDoc κ β) (s : Series) : Nat :=
  s.cap ((orNumber doc.windowChecks).getD 144)

namespace HistoryPlan

variable (P : HistoryPlan) (remote mine : HistoryDoc κ β) (id : String) (s : Series)

/-- The histories of the remote nodes that are recognised as the local listing. -/
def recognised : List (SeriesEntry κ β) :=
  remote.nodes.entries.filterMap fun x => if P.merges.lookup x.1 = some id then some x.2 else none

/-- The remote rows and the local ones, where a later row wins: the local rows over the remote, and
among the remote nodes an earlier one over a later. -/
def offered : List (SeriesRow κ β) :=
  ((P.recognised remote id).map fun e => e.rows s).reverse.flatten ++ mine.rows id s

/-- The import costs the local listing none of its history. -/
structure Costless : Prop where
  rows : ∃ all, IsUnion s.stamp (P.offered remote mine id s) all ∧
    (P.importHistory remote mine).rows id s = all.rtake (mine.ownCap s)
  dropped : ∀ r ∈ mine.rows id s, ∀ k, s.stamp r = some k →
    (∃ r' ∈ (P.importHistory remote mine).rows id s, s.stamp r' = some k) ∨
      mine.ownCap s ≤ ((P.importHistory remote mine).rows id s).length ∧
      ∀ r' ∈ (P.importHistory remote mine).rows id s, ∃ b, s.stamp r' = some b ∧ k < b

/-- No node is imported under the local id, or under that of a node that is recognised as it, except
where its place is taken. -/
def Unshared : Prop :=
  ∀ x ∈ remote.nodes.entries, x.1 ∈ P.imports →
    (mine.nodes.find [] x.1).truthy = true ∨ x.1 ≠ id ∧ P.merges.lookup x.1 ≠ some id

/-- Where remote rows arrive, the cut is that of the instance's own window, or both spare all rows;
where none arrive, the local rows are in order and within the window. -/
def WithinWindow : Prop :=
  let cap := s.cap ((orNumber remote.windowChecks <|> orNumber mine.windowChecks).getD 144)
  let distinct := ((P.offered remote mine id s).filterMap s.stamp).dedup.length
  if (P.recognised remote id).all fun e => (e.rows s).isEmpty then
    Ascending s.stamp (mine.rows id s) ∧ (mine.rows id s).length ≤ mine.ownCap s
  else cap = mine.ownCap s ∨ distinct ≤ cap ∧ distinct ≤ mine.ownCap s

end HistoryPlan

section Run

variable {P : HistoryPlan} {nodes : Table (SeriesEntry κ β)} {id : String} {s : Series}

theorem rows_carry (added : Nat) {x : String × SeriesEntry κ β}
    (hfits : P.merges.lookup x.1 = some id → x.2.Fits s)
    (hown : x.1 ∈ P.imports → (nodes.find [] x.1).truthy = true ∨
      x.1 ≠ id ∧ P.merges.lookup x.1 ≠ some id) (window : Nat) :
    seriesRows (P.carry window (nodes, added) x).1 id s =
      if P.merges.lookup x.1 = some id then
        addNewest s.stamp (s.cap window) (seriesRows nodes id s) (x.2.rows s)
      else seriesRows nodes id s := by
  obtain ⟨xid, e⟩ := x
  rw [HistoryPlan.carry]
  dsimp only at hfits hown ⊢
  split
  · next himport =>
    rw [Bool.and_eq_true, Bool.not_eq_true'] at himport
    rcases hown (of_decide_eq_true himport.2) with htruthy | ⟨hne, hmerge⟩
    · rw [himport.1] at htruthy
      cases htruthy
    · rw [if_neg hmerge, seriesRows_set, if_neg (Ne.symm hne)]
  · cases hmerge : P.merges.lookup xid with
    | none =>
      rw [if_neg (by intro h; cases h)]
    | some dupOf =>
      dsimp only
      by_cases hid : dupOf = id
      · subst hid
        have hfits := hfits hmerge
        rw [if_pos rfl, addNewest]
        by_cases hnil : e.rows e.key = []
        · rw [hnil, hfits.rows_nil hnil, List.isEmpty_nil, if_pos rfl, if_pos rfl]
        · have hempty : (e.rows e.key).isEmpty = false := by
            rw [← Bool.not_eq_true, List.isEmpty_iff]
            exact hnil
          rw [hempty, if_neg Bool.false_ne_true]
          dsimp only
          rw [seriesRows_set, if_pos rfl]
          rw [hfits.key_eq hnil] at hempty ⊢
          rw [rows_only, hempty, if_neg Bool.false_ne_true]
      · rw [if_neg (fun h => hid (Option.some.inj h))]
        split
        · rfl
        · rw [seriesRows_set, if_neg (Ne.symm hid)]

theorem truthy_carry (window : Nat) (st : Table (SeriesEntry κ β) × Nat)
    (x : String × SeriesEntry κ β) (h : (st.1.find [] k).truthy = true) :
    ((P.carry window st x).1.find [] k).truthy = true := by
  obtain ⟨nodes, added⟩ := st
  rw [HistoryPlan.carry]
  dsimp only
  split
  · exact truthy_set _ h
  · split
    · exact h
    · split
      · exact h
      · exact truthy_set _ h

theorem rows_carried (window : Nat) (l : List (String × SeriesEntry κ β))
    (st : Table (SeriesEntry κ β) × Nat)
    (hfits : ∀ x ∈ l, P.merges.lookup x.1 = some id → x.2.Fits s)
    (hown : ∀ x ∈ l, x.1 ∈ P.imports → (st.1.find [] x.1).truthy = true ∨
      x.1 ≠ id ∧ P.merges.lookup x.1 ≠ some id) :
    seriesRows (l.foldl (P.carry window) st).1 id s =
      ((l.filterMap fun x => if P.merges.lookup x.1 = some id then some x.2 else none).map
        fun e => e.rows s).foldl (addNewest s.stamp (s.cap window)) (seriesRows st.1 id s) := by
  induction l generalizing st with
  | nil => rfl
  | cons x l ih =>
    have hstep := rows_carry st.2 (hfits x List.mem_cons_self) (hown x List.mem_cons_self) window
    rw [List.foldl_cons, ih _ (fun y hy => hfits y (List.mem_cons_of_mem x hy)), hstep,
      List.filterMap_cons]
    · by_cases hmerge : P.merges.lookup x.1 = some id
      · rw [if_pos hmerge, if_pos hmerge, List.map_cons, List.foldl_cons]
      · rw [if_neg hmerge, if_neg hmerge]
    · intro y hy himport
      exact (hown y (List.mem_cons_of_mem x hy) himport).imp (truthy_carry window st x) fun h => h

theorem carry_added (window : Nat) (l : List (String × SeriesEntry κ β))
    (st : Table (SeriesEntry κ β) × Nat) :
    st.2 ≤ (l.foldl (P.carry window) st).2 ∧
      ((l.foldl (P.carry window) st).2 = st.2 → (l.foldl (P.carry window) st).1 = st.1) := by
  induction l generalizing st with
  | nil => exact ⟨Nat.le_refl _, fun _ => rfl⟩
  | cons x l ih =>
    have hstep : P.carry window st x = st ∨ (P.carry window st x).2 = st.2 + 1 := by
      rw [HistoryPlan.carry]
      dsimp only
      split
      · exact .inr rfl
      · split
        · exact .inl rfl
        · split
          · exact .inl rfl
          · exact .inr rfl
    rw [List.foldl_cons]
    rcases hstep with hsame | hmore
    · rw [hsame]
      exact ih st
    · obtain ⟨hle, -⟩ := ih (P.carry window st x)
      rw [hmore] at hle
      exact ⟨by omega, fun h => by omega⟩

theorem rows_importHistory {remote mine : HistoryDoc κ β}
    (hfits : ∀ e ∈ P.recognised remote id, e.Fits s) (hown : P.Unshared remote mine id) :
    (P.importHistory remote mine).rows id s =
      if (P.recognised remote id).all fun e => (e.rows s).isEmpty then mine.rows id s
      else (united s.stamp (P.offered remote mine id s)).rtake (s.cap
        ((orNumber remote.windowChecks <|> orNumber mine.windowChecks).getD 144)) := by
  have hfits' : ∀ x ∈ remote.nodes.entries, P.merges.lookup x.1 = some id → x.2.Fits s := by
    intro x hx hmerge
    exact hfits x.2 (List.mem_filterMap.2 ⟨x, hx, if_pos hmerge⟩)
  have hrows := rows_carried ((orNumber remote.windowChecks <|> orNumber mine.windowChecks).getD 144)
    remote.nodes.entries (mine.nodes, 0) hfits' hown
  have hadded := (carry_added (P := P)
    ((orNumber remote.windowChecks <|> orNumber mine.windowChecks).getD 144) remote.nodes.entries
    (mine.nodes, 0)).2
  rw [foldl_addNewest, List.all_map] at hrows
  have hdoc : (P.importHistory remote mine).rows id s = seriesRows (remote.nodes.entries.foldl (P.carry
      ((orNumber remote.windowChecks <|> orNumber mine.windowChecks).getD 144))
      (mine.nodes, 0)).1 id s := by
    rw [HistoryDoc.rows, HistoryPlan.importHistory]
    dsimp only
    split
    · next hzero => rw [hadded hzero]
    · rfl
  rw [hdoc, hrows]
  rfl

end Run

theorem rtake_eq_iff {ρ : Type} (l : List ρ) (v w : Nat) :
    l.rtake v = l.rtake w ↔ v = w ∨ l.length ≤ v ∧ l.length ≤ w := by
  constructor
  · intro h
    have hlen := congrArg List.length h
    rw [length_rtake, length_rtake] at hlen
    omega
  · rintro (rfl | ⟨hv, hw⟩)
    · rfl
    · rw [rtake_all hv, rtake_all hw]

theorem costless_iff {P : HistoryPlan} {remote mine : HistoryDoc κ β} {id : String} {s : Series}
    (hfits : ∀ e ∈ P.recognised remote id, e.Fits s) (hown : P.Unshared remote mine id) :
    P.Costless remote mine id s ↔ P.WithinWindow remote mine id s := by
  have hstored := rows_importHistory hfits hown
  have hunion := united_isUnion s.stamp (P.offered remote mine id s)
  have hcostless : P.Costless remote mine id s ↔ (P.importHistory remote mine).rows id s =
      (united s.stamp (P.offered remote mine id s)).rtake (mine.ownCap s) := by
    constructor
    · rintro ⟨⟨all, hall, heq⟩, -⟩
      rw [heq, hall.unique hunion]
    · intro heq
      refine ⟨⟨_, hunion, heq⟩, ?_⟩
      intro r hr k hk
      rw [heq]
      exact hunion.dropped _ (List.mem_append_right _ hr) hk
  rw [hcostless, hstored, HistoryPlan.WithinWindow]
  split
  · next hnone =>
    have hoffered : P.offered remote mine id s = mine.rows id s := by
      rw [HistoryPlan.offered]
      have hnil : ((P.recognised remote id).map fun e => e.rows s).reverse.flatten = [] := by
        rw [List.flatten_eq_nil_iff]
        intro l hl
        obtain ⟨e, he, rfl⟩ := List.mem_map.1 (List.mem_reverse.1 hl)
        exact List.isEmpty_iff.1 (List.all_eq_true.1 hnone e he)
      rw [hnil, List.nil_append]
    rw [hoffered] at hunion ⊢
    constructor
    · intro h
      rw [h]
      refine ⟨hunion.ascending.sublist (List.drop_sublist _ _), ?_⟩
      rw [length_rtake]
      exact Nat.min_le_left _ _
    · rintro ⟨hasc, hlen⟩
      rw [hasc.united, rtake_all hlen]
  · rw [rtake_eq_iff, length_united]

/-- An import leaves a local listing the newest of all rows, for the window of the instance, exactly
where the window of the remote document does not cut them, or where nothing arrives and the local
rows are in order. -/
theorem importHistory_costless_iff (rows : List (RemoteNode × PlanAction))
    (remote mine : HistoryDoc κ β) (id : String) (s : Series)
    (hfits : ∀ e ∈ (HistoryPlan.ofRows rows).recognised remote id, e.Fits s)
    (hown : (HistoryPlan.ofRows rows).Unshared remote mine id) :
    (HistoryPlan.ofRows rows).Costless remote mine id s ↔
      (HistoryPlan.ofRows rows).WithinWindow remote mine id s := costless_iff hfits hown

end Import

section Instance

/-- A remote node that is a local listing under another id. -/
def mergedNode : List (RemoteNode × PlanAction) :=
  [(RemoteNode.ofJson (.obj [("id", .str "mainnet-theirs")]), .merge "mainnet-mine")]

def checksOf (id : String) (ts : List Nat) (window : Option Nat) : HistoryDoc Nat Bool where
  nodes := Table.mk [(id, { checks := some (ts.map fun t => { t := some t, body := true }) })]
    (List.nodup_singleton id)
  windowChecks := window

theorem mergedNode_fits (ts : List Nat) (window : Option Nat) :
    ∀ e ∈ (HistoryPlan.ofRows mergedNode).recognised (checksOf "mainnet-theirs" ts window)
      "mainnet-mine", e.Fits .checks := by
  intro e he
  obtain ⟨x, hx, hmerge⟩ := List.mem_filterMap.1 he
  cases List.mem_singleton.1 hx
  cases hmerge
  exact .inl rfl

theorem mergedNode_unshared (remote mine : HistoryDoc Nat Bool) :
    (HistoryPlan.ofRows mergedNode).Unshared remote mine "mainnet-mine" := by
  intro x _ himport
  cases himport

theorem importHistory_costless_iff_merged :
    (HistoryPlan.ofRows mergedNode).Costless (checksOf "mainnet-theirs" [3] none)
        (checksOf "mainnet-mine" [1, 2] none) "mainnet-mine" .checks ↔
      (HistoryPlan.ofRows mergedNode).WithinWindow (checksOf "mainnet-theirs" [3] none)
        (checksOf "mainnet-mine" [1, 2] none) "mainnet-mine" .checks :=
  importHistory_costless_iff mergedNode _ _ _ _ (mergedNode_fits [3] none) (mergedNode_unshared _ _)

/-- A remote window of one check costs an instance that keeps 144 its own checks. -/
theorem remote_window_cuts :
    ¬ (HistoryPlan.ofRows mergedNode).Costless (checksOf "mainnet-theirs" [3] (some 1))
      (checksOf "mainnet-mine" [1, 2] (some 144)) "mainnet-mine" .checks := by
  rw [costless_iff (mergedNode_fits [3] (some 1)) (mergedNode_unshared _ _), HistoryPlan.WithinWindow,
    if_neg (by decide)]
  decide

end Instance

end Mise.Server
