import Mise.Js.Table
import Mise.Server.Record

set_option autoImplicit true

namespace Mise.Server

open Js

/-- What a cycle learns of a node. Nothing reads `holder`: the payment codes of the listing when the
node was probed. -/
structure NodeProbe where
  up : Bool
  height : Option Int := none
  holder : List String := []

/-- A check of the rolling history, at a minute. -/
structure HistoryCheck where
  t : Int
  up : Bool
  holder : List String
  deriving DecidableEq

/-- The checks of a day. The percentage that goes with them is not modelled. -/
structure DailyRow where
  d : Int
  up : Nat := 0
  total : Nat := 0
  close : Option Int := none
  holders : List (List String) := []
  deriving DecidableEq

/-- What a history file has of a node: checks or days, and since when the node is unlisted. -/
structure Bucket (ρ : Type) where
  rows : List ρ := []
  retired : Stamp := .absent

/-- What a pending submission's probes have found, of which a rebuild takes the checks. The updater
writes no days. -/
structure PendingNode where
  checks : List HistoryCheck := []
  days : List DailyRow := []

structure HistoryFiles where
  hist : Table (Bucket HistoryCheck) := {}
  daily : Table (Bucket DailyRow) := {}

/-- `HISTORY_GRACE_DAYS` in milliseconds, `window_checks` and `RETENTION_DAYS`. -/
structure HistoryRules where
  grace : Int
  window : Nat
  retention : Nat

/-- `if (l.length > n) l.splice(0, l.length - n)` -/
def trimTo (n : Nat) (l : List ρ) : List ρ := l.drop (l.length - n)

namespace Bucket

/-- What retirement makes of a bucket: an unlisted one is stamped, and deleted after the grace
period. -/
def retire (listed : Bool) (now grace : Int) (b : Bucket ρ) : Option (Bucket ρ) :=
  if listed then some { b with retired := .absent }
  else if b.retired = .absent then some { b with retired := .at now }
  else if b.retired.parse.any (· < now - grace) then none
  else some b

end Bucket

section Files

variable {ρ ν : Type}

/-- `retireUnlisted`. Whether it has changed anything only decides whether a file is written again. -/
def retireUnlisted (isListed : String → Bool) (now grace : Int) (m : Table (Bucket ρ)) :
    Table (Bucket ρ) := m.filterMapKeys fun id b => b.retire (isListed id) now grace

/-- A bucket for every node that has none. -/
def seedBuckets (seed : String → List ρ) : List String → Table (Bucket ρ) → Table (Bucket ρ)
  | [], m => m
  | id :: ids, m =>
    seedBuckets seed ids (if (m.find [] id).truthy then m else m.set id ⟨seed id, .absent⟩)

/-- What `rebuild` makes of a history file. -/
def rebuildHistory (seed : String → List ρ) (ids : List String) (now grace : Int)
    (m : Table (Bucket ρ)) : Table (Bucket ρ) :=
  retireUnlisted (· ∈ ids) now grace (seedBuckets seed ids m)

/-- `m[id]?.checks || []` -/
def rowsOf (m : Table (Bucket ρ)) (id : String) : List ρ :=
  match m.find [] id with
  | .own b => b.rows
  | .inherited | .absent => []

/-- The nodes of a cycle with what it records of each. -/
def recordNodes (record : ν → List ρ → List ρ) (m : Table (Bucket ρ)) :
    List (String × ν) → Table (Bucket ρ) → Table (Bucket ρ)
  | [], t => t
  | (id, r) :: nodes, t => recordNodes record m nodes (t.set id ⟨record r (rowsOf m id), .absent⟩)

/-- The other buckets are copied. -/
def copyRest : List (String × Bucket ρ) → Table (Bucket ρ) → Table (Bucket ρ)
  | [], t => t
  | (id, b) :: rest, t => copyRest rest (if (t.find [] id).truthy then t else t.set id b)

/-- What a cycle makes of a history file. -/
def recordHistory (record : ν → List ρ → List ρ) (nodes : List (String × ν)) (now grace : Int)
    (m : Table (Bucket ρ)) : Table (Bucket ρ) :=
  retireUnlisted (· ∈ nodes.map Prod.fst) now grace
    (copyRest m.entries (recordNodes record m nodes ⟨[], List.nodup_nil⟩))

end Files

/-- A cycle appends a check to the rolling history. -/
def addCheck (window : Nat) (minute : Int) (r : NodeProbe) (prev : List HistoryCheck) :
    List HistoryCheck := trimTo window (prev ++ [⟨minute, r.up, r.holder⟩])

def DailyRow.count (rec : DailyRow) (r : NodeProbe) : DailyRow where
  d := rec.d
  up := rec.up + if r.up then 1 else 0
  total := rec.total + 1
  close := r.height <|> rec.close
  holders := r.holder :: rec.holders

/-- The last day goes on where it is today. -/
def countDay (today : Int) (r : NodeProbe) : List DailyRow → List DailyRow
  | [] => [DailyRow.count { d := today } r]
  | [rec] => if rec.d = today then [rec.count r] else [rec, DailyRow.count { d := today } r]
  | rec :: days => rec :: countDay today r days

def addDay (retention : Nat) (today : Int) (r : NodeProbe) (days : List DailyRow) : List DailyRow :=
  trimTo retention (countDay today r days)

/-- The time of a cycle as it stamps it, in whole seconds. -/
def isoSec (now : Int) : Int := now / 1000 * 1000

namespace HistoryFiles

variable (H : HistoryRules)

/-- The checks that a rebuild gives a node without a bucket. -/
def seedChecks (approved : List String) (pending : Table PendingNode) (id : String) :
    List HistoryCheck :=
  match pending.find [] id with
  | .own p => if id ∈ approved then p.checks else []
  | .inherited | .absent => []

def seedDays (approved : List String) (pending : Table PendingNode) (id : String) : List DailyRow :=
  match pending.find [] id with
  | .own p => if id ∈ approved then p.days else []
  | .inherited | .absent => []

/-- What `rebuild` does to the two files. -/
def rebuild (ids approved : List String) (pending : Table PendingNode) (now : Int)
    (f : HistoryFiles) : HistoryFiles where
  hist := rebuildHistory (seedChecks approved pending) ids now H.grace f.hist
  daily := rebuildHistory (seedDays approved pending) ids now H.grace f.daily

/-- What a cycle that has reached a node does to the two files. -/
def update (nodes : List (String × NodeProbe)) (now : Int) (f : HistoryFiles) : HistoryFiles where
  hist := recordHistory (addCheck H.window (now / 60000)) nodes (isoSec now) H.grace f.hist
  daily := recordHistory (addDay H.retention (now / 86400000)) nodes (isoSec now) H.grace f.daily

end HistoryFiles

section Rows

variable {m : Table (Bucket ρ)} {id : String}

theorem get_retireUnlisted (isListed : String → Bool) (now grace : Int) (m : Table (Bucket ρ))
    (id : String) : (retireUnlisted isListed now grace m).get id =
      (m.get id).bind (Bucket.retire (isListed id) now grace) := Table.get_filterMapKeys _ m id

theorem truthy_find {t : Table β} (h : id ∉ objectPrototype) :
    (t.find [] id).truthy = (t.get id).isSome := by
  rw [Table.find_ofOption (by simpa using h)]
  cases t.get id <;> rfl

theorem rowsOf_eq (h : id ∉ objectPrototype) : rowsOf m id = ((m.get id).map Bucket.rows).getD [] := by
  rw [rowsOf, Table.find_ofOption (by simpa using h)]
  cases m.get id <;> rfl

theorem get_seedBuckets (h : id ∉ objectPrototype) (seed : String → List ρ) (ids : List String)
    (m : Table (Bucket ρ)) : (seedBuckets seed ids m).get id =
      (m.get id <|> if id ∈ ids then some ⟨seed id, .absent⟩ else none) := by
  induction ids generalizing m with
  | nil => simp [seedBuckets]
  | cons k ids ih =>
    rw [seedBuckets, ih]
    by_cases hk : id = k
    · subst hk
      rw [truthy_find h]
      cases hg : m.get id with
      | some b => simp [hg]
      | none => simp [Table.get_set]
    · split
      · simp [hk]
      · simp [Table.get_set, hk]

theorem get_recordNodes (record : ν → List ρ → List ρ) (m : Table (Bucket ρ)) (id : String)
    (nodes : List (String × ν)) (t : Table (Bucket ρ)) :
    (id ∉ nodes.map Prod.fst ∧ (recordNodes record m nodes t).get id = t.get id) ∨
      ∃ r, (id, r) ∈ nodes ∧
        (recordNodes record m nodes t).get id = some ⟨record r (rowsOf m id), .absent⟩ := by
  induction nodes generalizing t with
  | nil => exact .inl ⟨by simp, rfl⟩
  | cons x nodes ih =>
    obtain ⟨k, r⟩ := x
    obtain ⟨hn, hg⟩ | ⟨r', hr', hg⟩ := ih (t.set k ⟨record r (rowsOf m k), .absent⟩)
    · by_cases hk : id = k
      · subst hk
        refine .inr ⟨r, List.mem_cons_self, ?_⟩
        rw [recordNodes, hg, Table.get_set, if_pos rfl]
      · refine .inl ⟨by simpa [hk] using hn, ?_⟩
        rw [recordNodes, hg, Table.get_set, if_neg hk]
    · exact .inr ⟨r', List.mem_cons_of_mem _ hr', hg⟩

theorem get_copyRest (h : id ∉ objectPrototype) (rest : List (String × Bucket ρ))
    (t : Table (Bucket ρ)) : (copyRest rest t).get id = (t.get id <|> rest.lookup id) := by
  induction rest generalizing t with
  | nil => simp [copyRest]
  | cons x rest ih =>
    obtain ⟨k, b⟩ := x
    rw [copyRest, ih, Table.lookup_cons]
    by_cases hk : id = k
    · subst hk
      rw [truthy_find h]
      cases hg : t.get id with
      | some b' => simp [hg]
      | none => simp [Table.get_set]
    · split
      · simp
      · simp [Table.get_set, hk]

theorem get_rebuildHistory (h : id ∉ objectPrototype) (seed : String → List ρ) (ids : List String)
    (now grace : Int) (m : Table (Bucket ρ)) : (rebuildHistory seed ids now grace m).get id =
      if id ∈ ids then some ⟨((m.get id).map Bucket.rows).getD (seed id), .absent⟩
      else (m.get id).bind (Bucket.retire false now grace) := by
  rw [rebuildHistory, get_retireUnlisted, get_seedBuckets h]
  by_cases hid : id ∈ ids
  · rw [if_pos hid, if_pos hid]
    cases m.get id <;> simp [Bucket.retire, hid]
  · simp [hid]

theorem get_recordHistory (h : id ∉ objectPrototype) (record : ν → List ρ → List ρ)
    (nodes : List (String × ν)) (now grace : Int) (m : Table (Bucket ρ)) :
    (id ∉ nodes.map Prod.fst ∧ (recordHistory record nodes now grace m).get id =
      (m.get id).bind (Bucket.retire false now grace)) ∨
    ∃ r, (id, r) ∈ nodes ∧ (recordHistory record nodes now grace m).get id =
      some ⟨record r (((m.get id).map Bucket.rows).getD []), .absent⟩ := by
  rw [recordHistory, get_retireUnlisted, get_copyRest h]
  obtain ⟨hn, hg⟩ | ⟨r, hr, hg⟩ := get_recordNodes record m id nodes ⟨[], List.nodup_nil⟩
  · refine .inl ⟨hn, ?_⟩
    rw [hg, decide_eq_false hn]
    rfl
  · have hm : id ∈ nodes.map Prod.fst := List.mem_map_of_mem hr
    refine .inr ⟨r, hr, ?_⟩
    rw [hg, decide_eq_true hm, rowsOf_eq h]
    rfl

end Rows

end Mise.Server
