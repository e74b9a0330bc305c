import Mise.Server.Retention
import Mise.Server.Tally
import Mise.Server.UpdateCycle

set_option autoImplicit true

namespace Mise.Server

open Js

/-- A cycle with the store, the seed nodes and the mapping that it finds. Others write these. -/
structure Turn extends Cycle where
  store : StoreDoc := {}
  seeds : List RawRecord := []
  mapping : List (String × List CodeVariant) := []

namespace Turn

def found (c : Turn) : Instance where
  store := c.store
  seeds := c.seeds
  mapping := c.mapping

/-- The cycle has the node in its list. -/
def Lists (c : Turn) (id : String) : Prop := some id ∈ c.found.byId.keys

instance (c : Turn) (id : String) : Decidable (c.Lists id) :=
  inferInstanceAs (Decidable (some id ∈ c.found.byId.keys))

/-- A submission with the id is pending. -/
def Awaits (c : Turn) (id : String) : Prop :=
  ∃ s ∈ c.store.submissions.map Prod.snd,
    asText (s.get "status") = some "pending" ∧ s.id.getD "undefined" = id

end Turn

namespace Updated

variable (H : HistoryRules) (T : CycleText)

/-- The instance as the cycle finds it. -/
def met (u : Updated) (c : Turn) : Updated :=
  { u with store := c.store, seeds := c.seeds, mapping := c.mapping }

/-- What the reconcile of the cycle makes of it. -/
def reconciled (u : Updated) (c : Turn) : Updated := (u.met c).reconcile H c.rebuilt

def turn (u : Updated) (c : Turn) : Updated := (u.reconciled H c).record H T c.toCycle

/-- The instance after these cycles, newest first. -/
def turns (u : Updated) : List Turn → Updated
  | [] => u
  | c :: earlier => (turns u earlier).turn H T c

/-- The cycle writes results: not every probe of it has failed. -/
def Records (u : Updated) (c : Turn) : Prop := (u.reconciled H c).allFailed c.toCycle = false

instance (u : Updated) (c : Turn) : Decidable (u.Records H c) :=
  inferInstanceAs (Decidable ((u.reconciled H c).allFailed c.toCycle = false))

/-- What a cycle that writes results has found of a node that it lists. -/
def reading (u : Updated) (c : Turn) (id : String) : Option Reading :=
  if u.Records H c then
    ((u.reconciled H c).nodes.find? fun n => n.id = some id).map fun n =>
      ⟨c.now, { up := (c.probe n).up, height := (c.probe n).height }⟩
  else none

/-- All that the cycles have found of a node, newest first. -/
def readings (u : Updated) (id : String) : List Turn → List Reading
  | [] => []
  | c :: earlier => ((u.turns H T earlier).reading H c id).toList ++ readings u id earlier

/-- No probe of a pending submission had the id. -/
structure NeverPending (u : Updated) (id : String) (l : List Turn) : Prop where
  unread : u.pending.get id = none
  unprobed : ∀ c earlier, c :: earlier <:+ l → (u.turns H T earlier).Records H c → ¬ c.Awaits id

end Updated

/-- The clock does not go back, within a cycle or between two of them. -/
structure Clocked (l : List Turn) : Prop where
  within : ∀ c ∈ l, c.rebuilt ≤ c.now
  between : l.Pairwise fun c d => d.now ≤ c.rebuilt

/-- Since when a node that has been listed is missing from the list. -/
def missingSince (id : String) : List Turn → Option Int
  | [] => none
  | c :: earlier =>
    if c.Lists id ∨ ¬ ∃ d ∈ earlier, d.Lists id then none
    else some ((missingSince id earlier).getD c.rebuilt)

/-- A node that has been listed has at no cycle been missing for longer than the grace period. -/
def NeverLongMissing (grace : Int) (id : String) (l : List Turn) : Prop :=
  ∀ c earlier, c :: earlier <:+ l → ∀ t, missingSince id (c :: earlier) = some t → c.now - t ≤ grace

section Table

variable {S : Instance} {id : String} {rows : PendingNode → List ρ}

theorem key_eq_iff (hu : id ≠ "undefined") {n : PublicNode} : n.key = id ↔ n.id = some id := by
  rw [PublicNode.key]
  cases n.id with
  | none =>
    constructor
    · exact fun h => absurd h.symm hu
    · intro h
      cases h
  | some k => exact (Option.some.injEq k id).symm.to_iff

theorem get_ensureBuckets_plain (ho : id ∉ objectPrototype) (hp : S.pending.get id = none)
    (nodes : List PublicNode) (m : Table (Bucket ρ)) : (S.ensureBuckets rows nodes m).get id =
      (m.get id <|> if id ∈ nodes.map PublicNode.key then some ⟨[], .absent⟩ else none) := by
  induction nodes generalizing m with
  | nil => simp [Instance.ensureBuckets]
  | cons n nodes ih =>
    rw [Instance.ensureBuckets, ih, List.map_cons]
    by_cases hk : id = n.key
    · have hseed : S.seedRows rows n = [] := by
        rw [Instance.seedRows, ← hk, hp]
        exact ite_self _
      rw [← hk, truthy_find ho, hseed]
      cases hg : m.get id with
      | some b => simp [hg]
      | none => simp [Table.get_set]
    · split
      · simp [hk]
      · simp [Table.get_set, hk]

theorem mem_published_keys (hu : id ≠ "undefined") :
    id ∈ S.published.map PublicNode.key ↔ some id ∈ S.byId.keys := by
  rw [← S.published_ids, List.mem_map, List.mem_map]
  exact exists_congr fun n => and_congr_right' (key_eq_iff hu)

theorem get_rebuildBuckets (ho : id ∉ objectPrototype) (hu : id ≠ "undefined") (S : Instance)
    (rows : PendingNode → List ρ) (hp : S.pending.get id = none) (now grace : Int)
    (m : Table (Bucket ρ)) : (S.rebuildBuckets rows now grace m).get id =
      if some id ∈ S.byId.keys then some ⟨((m.get id).map Bucket.rows).getD [], .absent⟩
      else (m.get id).bind (Bucket.retire false now grace) := by
  rw [Instance.rebuildBuckets, get_retireUnlisted, get_ensureBuckets_plain ho hp]
  by_cases hid : some id ∈ S.byId.keys
  · rw [if_pos ((mem_published_keys hu).2 hid), if_pos hid, decide_eq_true hid]
    cases m.get id with
    | some b => rfl
    | none => rfl
  · rw [if_neg fun h => hid ((mem_published_keys hu).1 h), if_neg hid, decide_eq_false hid]
    cases m.get id with
    | some b => rfl
    | none => rfl

end Table

/-- What one cycle does to the bucket of an id. -/
structure BucketTurn (grace : Int) (id : String) (record : Reading → List ρ → List ρ) (c : Turn)
    (reading : Option Reading) (old new : Option (Bucket ρ)) : Prop where
  listed : c.Lists id →
    new = some ⟨reading.toList.foldr record ((old.map Bucket.rows).getD []), .absent⟩
  unlisted : ¬ c.Lists id → reading = none ∧
    (new = old.bind (Bucket.retire false c.rebuilt grace) ∨
      new = (old.bind (Bucket.retire false c.rebuilt grace)).bind
        (Bucket.retire false (isoSec c.now) grace))

section Turns

variable {H : HistoryRules} {T : CycleText} {u : Updated} {c : Turn} {id : String}

open Updated

theorem nodes_reconciled_ids : (u.reconciled H c).nodes.map PublicNode.id = c.found.byId.keys :=
  Instance.published_ids _

theorem mem_reconciled_keys (hu : id ≠ "undefined") :
    id ∈ (u.reconciled H c).nodes.map PublicNode.key ↔ c.Lists id :=
  mem_published_keys hu

/-- A cycle finds a node that it lists, where it writes results. -/
theorem reading_of_mem (hr : u.Records H c) {n : PublicNode} (hn : n ∈ (u.reconciled H c).nodes)
    (hk : n.id = some id) : u.reading H c id =
      some ⟨c.now, { up := (c.probe n).up, height := (c.probe n).height }⟩ := by
  have hnodup : ((u.reconciled H c).nodes.map PublicNode.id).Nodup := by
    rw [nodes_reconciled_ids]
    exact c.found.byId.nodup
  rw [reading, if_pos hr]
  cases hf : (u.reconciled H c).nodes.find? fun n => n.id = some id with
  | none => exact absurd (List.find?_eq_none.1 hf n hn) (by simpa using hk)
  | some n' =>
    have hn' := List.mem_of_find?_eq_some hf
    have hk' : n'.id = some id := by simpa using List.find?_some hf
    rw [List.inj_on_of_nodup_map hnodup hn' hn (hk'.trans hk.symm)]
    rfl

theorem reading_of_unlisted (h : ¬ c.Lists id) : u.reading H c id = none := by
  rw [reading]
  split
  · rw [Option.map_eq_none_iff, List.find?_eq_none]
    intro n hn hk
    apply h
    rw [Turn.Lists, ← nodes_reconciled_ids (u := u) (H := H)]
    exact List.mem_map.2 ⟨n, hn, by simpa using hk⟩
  · rfl

theorem bucketTurn (ho : id ∉ objectPrototype) (hu : id ≠ "undefined") (hp : u.pending.get id = none)
    (rows : PendingNode → List ρ)
    (record : Reading → List ρ → List ρ) (old new : Table (Bucket ρ))
    (hidle : ¬ u.Records H c → new = (u.met c).rebuildBuckets rows c.rebuilt H.grace old)
    (hrecorded : u.Records H c → new =
      recordHistory (fun r => record ⟨c.now, r⟩) ((u.reconciled H c).nodes.map fun n =>
        (n.key, { up := (c.probe n).up, height := (c.probe n).height })) (isoSec c.now) H.grace
        ((u.met c).rebuildBuckets rows c.rebuilt H.grace old)) :
    BucketTurn H.grace id record c (u.reading H c id) (old.get id)
      (new.get id) := by
  have hrebuilt := get_rebuildBuckets ho hu (u.met c).toInstance rows hp c.rebuilt H.grace old
  have hlists : some id ∈ (u.met c).byId.keys ↔ c.Lists id := Iff.rfl
  by_cases hr : u.Records H c
  · rw [hrecorded hr]
    have hrecord := get_recordHistory ho (fun r => record ⟨c.now, r⟩)
      ((u.reconciled H c).nodes.map fun n =>
        (n.key, ({ up := (c.probe n).up, height := (c.probe n).height } : NodeProbe))) (isoSec c.now)
      H.grace ((u.met c).rebuildBuckets rows c.rebuilt H.grace old)
    have hkeys : (List.map Prod.fst ((u.reconciled H c).nodes.map fun n =>
        (n.key, ({ up := (c.probe n).up, height := (c.probe n).height } : NodeProbe)))) =
        (u.reconciled H c).nodes.map PublicNode.key := by
      rw [List.map_map]
      rfl
    rw [hkeys, mem_reconciled_keys hu] at hrecord
    obtain ⟨hn, hg⟩ | ⟨r, hmem, hg⟩ := hrecord
    · rw [hrebuilt, if_neg fun h => hn (hlists.1 h)] at hg
      exact ⟨fun h => absurd h hn, fun _ => ⟨reading_of_unlisted hn, .inr hg⟩⟩
    · obtain ⟨n, hnode, hn⟩ := List.mem_map.1 hmem
      obtain ⟨hk, rfl⟩ := Prod.mk.inj hn
      have hl : c.Lists id := (mem_reconciled_keys hu).1 (List.mem_map.2 ⟨n, hnode, hk⟩)
      rw [hrebuilt, if_pos (hlists.2 hl)] at hg
      rw [reading_of_mem hr hnode ((key_eq_iff hu).1 hk)]
      exact ⟨fun _ => hg, fun h => absurd hl h⟩
  · rw [hidle hr, hrebuilt]
    have hnone : u.reading H c id = none := if_neg hr
    rw [hnone]
    constructor
    · intro hl
      exact if_pos (hlists.2 hl)
    · intro hl
      exact ⟨rfl, .inl (if_neg fun h => hl (hlists.1 h))⟩

theorem bucketTurn_hist (ho : id ∉ objectPrototype) (hu : id ≠ "undefined")
    (hp : u.pending.get id = none) :
    BucketTurn H.grace id (fun x => addCheck H.window x.minute x.probe) c
      (u.reading H c id) (u.files.hist.get id) ((u.turn H T c).files.hist.get id) := by
  apply bucketTurn ho hu hp PendingNode.checks
  · intro hr
    have hf : (u.reconciled H c).allFailed c.toCycle = true := by simpa [Records] using hr
    rw [turn, Updated.record, if_pos hf]
    rfl
  · intro hr
    have hf : (u.reconciled H c).allFailed c.toCycle = false := hr
    rw [turn, Updated.record, hf]
    rfl

theorem bucketTurn_daily (ho : id ∉ objectPrototype) (hu : id ≠ "undefined")
    (hp : u.pending.get id = none) :
    BucketTurn H.grace id (fun x => addDay H.retention x.day x.probe) c
      (u.reading H c id) (u.files.daily.get id)
      ((u.turn H T c).files.daily.get id) := by
  apply bucketTurn ho hu hp PendingNode.days
  · intro hr
    have hf : (u.reconciled H c).allFailed c.toCycle = true := by simpa [Records] using hr
    rw [turn, Updated.record, if_pos hf]
    rfl
  · intro hr
    have hf : (u.reconciled H c).allFailed c.toCycle = false := hr
    rw [turn, Updated.record, hf]
    rfl

theorem pending_turn (hp : u.pending.get id = none) (hw : u.Records H c → ¬ c.Awaits id) :
    (u.turn H T c).pending.get id = none := by
  by_cases hr : u.Records H c
  · have hf : (u.reconciled H c).allFailed c.toCycle = false := hr
    have hsubs : ∀ s ∈ (u.reconciled H c).pendingSubs, s.id.getD "undefined" ≠ id := by
      intro s hs hk
      obtain ⟨hmem, hstatus⟩ := List.mem_filter.1 hs
      exact hw hr ⟨s, hmem, of_decide_eq_true hstatus, hk⟩
    have hfold : ∀ (probed : String → PendingEntry) (l : List RawRecord) (t : Table PendingEntry),
        (∀ s ∈ l, s.id.getD "undefined" ≠ id) → t.get id = none →
        (l.foldl (fun t s => t.set (s.id.getD "undefined") (probed (s.id.getD "undefined"))) t).get
          id = none := by
      intro probed l
      induction l with
      | nil => exact fun t _ ht => ht
      | cons s l ih =>
        intro t hl ht
        apply ih
        · exact fun s' hs' => hl s' (List.mem_cons_of_mem s hs')
        · rw [Table.get_set, if_neg fun h => hl s List.mem_cons_self h.symm]
          exact ht
    rw [turn, Updated.record, hf, if_neg Bool.false_ne_true]
    dsimp only
    split
    · exact hp
    · exact hfold (fun key => .probed T H.window c.now (c.pendingProbe key)
        ((u.reconciled H c).pending.get key)) _ _ hsubs rfl
  · have hf : (u.reconciled H c).allFailed c.toCycle = true := by simpa [Records] using hr
    rw [turn, Updated.record, if_pos hf]
    exact hp

theorem Updated.NeverPending.tail {l : List Turn} (h : u.NeverPending H T id (c :: l)) :
    u.NeverPending H T id l :=
  ⟨h.unread, fun d earlier hs => h.unprobed d earlier (hs.trans (List.suffix_cons c l))⟩

theorem pending_turns {l : List Turn} (h : u.NeverPending H T id l) :
    (u.turns H T l).pending.get id = none := by
  induction l with
  | nil => exact h.unread
  | cons c l ih => exact pending_turn (ih h.tail) (h.unprobed c l List.suffix_rfl)

end Turns

section Runs

variable {grace : Int} {id : String} {record : Reading → List ρ → List ρ} {b : Bucket ρ}

theorem retire_fresh (b : Bucket ρ) (now grace : Int) (h : b.retired = .absent) :
    b.retire false now grace = some { b with retired := .at now } := by
  rw [Bucket.retire, if_neg Bool.false_ne_true, if_pos h]

theorem retire_recent {now t : Int} (h : b.retired = .at t) (ht : now - t ≤ grace) :
    b.retire false now grace = some b := by
  have hlt : ¬ t < now - grace := by omega
  rw [Bucket.retire, if_neg Bool.false_ne_true, h, if_neg Stamp.noConfusion]
  simp [Stamp.parse, hlt]

theorem isoSec_le (now : Int) : isoSec now ≤ now := by
  rw [isoSec]
  omega

/-- A cycle that does not list the id leaves its bucket stamped, not deleted. -/
theorem BucketTurn.missing {c : Turn} {reading : Option Reading} {new : Option (Bucket ρ)}
    {since : Option Int} (h : BucketTurn grace id record c reading (some b) new)
    (hl : ¬ c.Lists id) (hb : b.retired = since.elim .absent .at) (hc : c.rebuilt ≤ c.now)
    (ht : c.now - since.getD c.rebuilt ≤ grace) :
    new = some { b with retired := .at (since.getD c.rebuilt) } := by
  have hiso := isoSec_le c.now
  have hfirst : b.retire false c.rebuilt grace =
      some { b with retired := .at (since.getD c.rebuilt) } := by
    cases since with
    | none => exact retire_fresh b _ _ hb
    | some t =>
      have hb : b.retired = .at t := hb
      have hsame : { b with retired := Stamp.at t } = b := by rw [← hb]
      rw [Option.getD_some] at ht ⊢
      rw [hsame]
      apply retire_recent hb
      omega
  obtain ⟨-, hnew | hnew⟩ := h.unlisted hl
  · rw [hnew, Option.bind_some, hfirst]
  · rw [hnew, Option.bind_some, hfirst, Option.bind_some]
    apply retire_recent rfl
    omega

theorem missingSince_of_listed {c : Turn} (h : c.Lists id) (l : List Turn) :
    missingSince id (c :: l) = none := if_pos (.inl h)

theorem missingSince_of_unlisted {c : Turn} {l : List Turn} (h : ¬ c.Lists id)
    (hl : ∃ d ∈ l, d.Lists id) :
    missingSince id (c :: l) = some ((missingSince id l).getD c.rebuilt) := by
  rw [missingSince, if_neg]
  rintro (hc | hn)
  · exact h hc
  · exact hn hl

theorem NeverLongMissing.tail {c : Turn} {l : List Turn} (h : NeverLongMissing grace id (c :: l)) :
    NeverLongMissing grace id l :=
  fun d earlier hs => h d earlier (hs.trans (List.suffix_cons c l))

/-- A run keeps the bucket of an id from the first cycle that lists it: the rows are those of its
readings, and the stamp says since when it is missing. `bucket` says what the file has of the id, and
`log` what has been read of it. -/
theorem bucket_run (bucket : List Turn → Option (Bucket ρ))
    (reading : Turn → List Turn → Option Reading) (log : List Turn → List Reading)
    (hempty : bucket [] = none) (hlog : log [] = [])
    (hread : ∀ c earlier, log (c :: earlier) = (reading c earlier).toList ++ log earlier)
    {l : List Turn} (hstep : ∀ c earlier, c :: earlier <:+ l →
      BucketTurn grace id record c (reading c earlier) (bucket earlier) (bucket (c :: earlier)))
    (hclock : ∀ c ∈ l, c.rebuilt ≤ c.now) (hgone : NeverLongMissing grace id l) :
    ((∃ c ∈ l, c.Lists id) ∧ bucket l =
        some ⟨(log l).foldr record [], (missingSince id l).elim .absent .at⟩) ∨
      (¬ ∃ c ∈ l, c.Lists id) ∧ bucket l = none ∧ log l = [] := by
  induction l with
  | nil =>
    right
    exact ⟨fun ⟨_, hc, _⟩ => List.not_mem_nil hc, hempty, hlog⟩
  | cons c l ih =>
    have hturn := hstep c l List.suffix_rfl
    have ih := ih (fun d earlier hs => hstep d earlier (hs.trans (List.suffix_cons c l)))
      (fun d hd => hclock d (List.mem_cons_of_mem c hd)) hgone.tail
    by_cases hl : c.Lists id
    · left
      refine ⟨⟨c, List.mem_cons_self, hl⟩, ?_⟩
      have hrows : ((bucket l).map Bucket.rows).getD [] = (log l).foldr record [] := by
        obtain ⟨-, hb⟩ | ⟨-, hb, hlog⟩ := ih
        · rw [hb]
          rfl
        · rw [hb, hlog]
          rfl
      rw [hturn.listed hl, hrows, hread, List.foldr_append, missingSince_of_listed hl]
      rfl
    · obtain ⟨hnone, hnew⟩ := hturn.unlisted hl
      have hlog : log (c :: l) = log l := by
        rw [hread, hnone]
        rfl
      rw [hlog]
      obtain ⟨hever, hb⟩ | ⟨hnever, hb, hnil⟩ := ih
      · left
        obtain ⟨d, hd, hdl⟩ := hever
        have hmissing := missingSince_of_unlisted hl ⟨d, hd, hdl⟩
        refine ⟨⟨d, List.mem_cons_of_mem c hd, hdl⟩, ?_⟩
        rw [hmissing]
        rw [hb] at hturn
        exact hturn.missing hl rfl (hclock c List.mem_cons_self)
          (hgone c l List.suffix_rfl _ hmissing)
      · right
        refine ⟨?_, ?_, hnil⟩
        · rintro ⟨d, hd, hdl⟩
          obtain rfl | hd := List.mem_cons.1 hd
          · exact hl hdl
          · exact hnever ⟨d, hd, hdl⟩
        · rw [hb] at hnew
          obtain hnew | hnew := hnew
          · exact hnew
          · exact hnew

end Runs

section Log

variable {H : HistoryRules} {T : CycleText} {u : Updated} {id : String} {l : List Turn}

theorem now_of_reading {c : Turn} {x : Reading} (h : u.reading H c id = some x) : x.now = c.now := by
  rw [Updated.reading] at h
  split at h
  · obtain ⟨n, -, rfl⟩ := Option.map_eq_some_iff.1 h
    rfl
  · cases h

theorem mem_readings {x : Reading} (h : x ∈ u.readings H T id l) : ∃ c ∈ l, x.now = c.now := by
  induction l with
  | nil => cases h
  | cons c l ih =>
    obtain h | h := List.mem_append.1 h
    · exact ⟨c, List.mem_cons_self, now_of_reading (Option.mem_toList.1 h)⟩
    · obtain ⟨d, hd, hx⟩ := ih h
      exact ⟨d, List.mem_cons_of_mem c hd, hx⟩

theorem Clocked.readings (h : Clocked l) :
    (u.readings H T id l).Pairwise fun x y => y.now ≤ x.now := by
  induction l with
  | nil => exact .nil
  | cons c l ih =>
    have hbetween := List.pairwise_cons.1 h.between
    rw [Updated.readings, List.pairwise_append]
    refine ⟨?_, ih ⟨fun d hd => h.within d (List.mem_cons_of_mem c hd), hbetween.2⟩, ?_⟩
    · cases (u.turns H T l).reading H c id with
      | none => exact .nil
      | some x => exact List.pairwise_singleton _ _
    · intro x hx y hy
      obtain ⟨d, hd, hy⟩ := mem_readings hy
      have hx := now_of_reading (Option.mem_toList.1 hx)
      have hle := hbetween.1 d hd
      have hc := h.within c List.mem_cons_self
      omega

end Log

/-- In every run of cycles from empty history files, with a grace period of a day at least, the two
files count every cycle that wrote results once for the id: if it is listed, and was never pending, nor
missing for longer than the grace period, they have its newest checks and the days of its readings. -/
def CountsOnce (id : String) : Prop :=
  ∀ (H : HistoryRules) (T : CycleText) (u : Updated) (c : Turn) (earlier : List Turn),
    86400000 ≤ H.grace → u.files.hist.entries = [] → u.files.daily.entries = [] →
    Clocked (c :: earlier) → u.NeverPending H T id (c :: earlier) →
    NeverLongMissing H.grace id (c :: earlier) → c.Lists id →
    ∃ checks days,
      (u.turns H T (c :: earlier)).files.hist.get id = some ⟨checks, .absent⟩ ∧
      (u.turns H T (c :: earlier)).files.daily.get id = some ⟨days, .absent⟩ ∧
      RollUps H.window H.retention (u.readings H T id (c :: earlier)) checks days

theorem countsOnce (id : String) (ho : id ∉ objectPrototype) (hu : id ≠ "undefined") :
    CountsOnce id := by
  intro H T u c earlier _ hhist hdaily hclock hpending hgone hlisted
  have hunread : ∀ d l, d :: l <:+ c :: earlier → (u.turns H T l).pending.get id = none := by
    intro d l hs
    apply pending_turns
    exact ⟨hpending.unread, fun e l' hs' => hpending.unprobed e l'
      (hs'.trans ((List.suffix_cons d l).trans hs))⟩
  have hh := bucket_run (fun l => (u.turns H T l).files.hist.get id)
    (fun d l => (u.turns H T l).reading H d id) (u.readings H T id)
    (congrArg (List.lookup id) hhist) rfl (fun _ _ => rfl)
    (fun d l hs => bucketTurn_hist ho hu (hunread d l hs)) hclock.within hgone
  have hd := bucket_run (fun l => (u.turns H T l).files.daily.get id)
    (fun d l => (u.turns H T l).reading H d id) (u.readings H T id)
    (congrArg (List.lookup id) hdaily) rfl (fun _ _ => rfl)
    (fun d l hs => bucketTurn_daily ho hu (hunread d l hs)) hclock.within hgone
  have hever : ∃ d ∈ c :: earlier, d.Lists id := ⟨c, List.mem_cons_self, hlisted⟩
  have hbucket := (hh.resolve_right fun h => h.1 hever).2
  have hbucket' := (hd.resolve_right fun h => h.1 hever).2
  rw [missingSince_of_listed hlisted] at hbucket hbucket'
  exact ⟨_, _, hbucket, hbucket', rollUps_after H.window H.retention hclock.readings⟩

section Inherited

variable {id : String}

theorem find_inherited (ho : id ∈ objectPrototype) (t : Table β) : (t.find [] id).truthy = true := by
  have ho : id ∈ objectPrototype ++ [] := by rwa [List.append_nil]
  rw [Table.find]
  cases t.get id with
  | some b => rfl
  | none =>
    dsimp only
    rw [if_pos ho]
    rfl

theorem rowsOf_inherited (ho : id ∈ objectPrototype) {m : Table (Bucket ρ)} (hm : m.get id = none) :
    rowsOf m id = [] := by
  have ho : id ∈ objectPrototype ++ [] := by rwa [List.append_nil]
  rw [rowsOf, Table.find, hm]
  dsimp only
  rw [if_pos ho]

/-- A rebuild makes no bucket under an inherited name. -/
theorem get_ensureBuckets_inherited (ho : id ∈ objectPrototype) (S : Instance)
    (rows : PendingNode → List ρ) (nodes : List PublicNode) (m : Table (Bucket ρ)) :
    (S.ensureBuckets rows nodes m).get id = m.get id := by
  induction nodes generalizing m with
  | nil => rfl
  | cons n nodes ih =>
    rw [Instance.ensureBuckets, ih]
    by_cases hk : id = n.key
    · rw [← hk, find_inherited ho, if_pos rfl]
    · split
      · rfl
      · rw [Table.get_set, if_neg hk]

/-- Nothing is copied under an inherited name. -/
theorem get_copyRest_inherited (ho : id ∈ objectPrototype) (rest : List (String × Bucket ρ))
    (t : Table (Bucket ρ)) : (copyRest rest t).get id = t.get id := by
  induction rest generalizing t with
  | nil => rfl
  | cons x rest ih =>
    rw [copyRest, ih]
    by_cases hk : id = x.1
    · rw [← hk, find_inherited ho, if_pos rfl]
    · split
      · rfl
      · rw [Table.get_set, if_neg hk]

theorem get_recordHistory_inherited (ho : id ∈ objectPrototype) (record : ν → List ρ → List ρ)
    (nodes : List (String × ν)) (now grace : Int) (m : Table (Bucket ρ)) :
    (id ∉ nodes.map Prod.fst ∧ (recordHistory record nodes now grace m).get id = none) ∨
      ∃ r, (id, r) ∈ nodes ∧ (recordHistory record nodes now grace m).get id =
        some ⟨record r (rowsOf m id), .absent⟩ := by
  rw [recordHistory, get_retireUnlisted, get_copyRest_inherited ho]
  obtain ⟨hn, hg⟩ | ⟨r, hr, hg⟩ := get_recordNodes record m id nodes ⟨[], List.nodup_nil⟩
  · refine .inl ⟨hn, ?_⟩
    rw [hg]
    rfl
  · have hm : id ∈ nodes.map Prod.fst := List.mem_map_of_mem hr
    refine .inr ⟨r, hr, ?_⟩
    rw [hg, decide_eq_true hm]
    rfl

end Inherited

section Forgotten

variable {H : HistoryRules} {T : CycleText} {u : Updated} {c : Turn} {id : String}

open Updated

theorem hist_turn (hr : u.Records H c) : (u.turn H T c).files.hist =
    recordHistory (addCheck H.window (c.now / 60000)) ((u.reconciled H c).nodes.map fun n =>
      (n.key, { up := (c.probe n).up, height := (c.probe n).height })) (isoSec c.now) H.grace
      (u.reconciled H c).files.hist := by
  have hf : (u.reconciled H c).allFailed c.toCycle = false := hr
  rw [turn, Updated.record, hf]
  rfl

theorem not_undefined (ho : id ∈ objectPrototype) : id ≠ "undefined" := by
  rintro rfl
  exact absurd ho (by decide)

/-- A cycle that writes results without the node drops its bucket. -/
theorem forgotten (ho : id ∈ objectPrototype) (hr : u.Records H c) (hl : ¬ c.Lists id) :
    (u.turn H T c).files.hist.get id = none := by
  rw [hist_turn hr]
  obtain ⟨-, hg⟩ | ⟨r, hmem, -⟩ := get_recordHistory_inherited ho (addCheck H.window (c.now / 60000))
    ((u.reconciled H c).nodes.map fun n =>
      (n.key, ({ up := (c.probe n).up, height := (c.probe n).height } : NodeProbe))) (isoSec c.now)
    H.grace (u.reconciled H c).files.hist
  · exact hg
  · obtain ⟨n, hn, hkey⟩ := List.mem_map.1 hmem
    have hk : n.key = id := congrArg Prod.fst hkey
    exact absurd ((mem_reconciled_keys (not_undefined ho)).1 (List.mem_map.2 ⟨n, hn, hk⟩)) hl

/-- A cycle that lists it again begins with its own check. -/
theorem begun_anew (ho : id ∈ objectPrototype) (hr : u.Records H c) (hl : c.Lists id)
    (hnone : u.files.hist.get id = none) :
    ∃ x, (u.turn H T c).files.hist.get id = some ⟨addCheck H.window (c.now / 60000) x [], .absent⟩ := by
  have hrebuilt : (u.reconciled H c).files.hist.get id = none := by
    change (Instance.rebuildBuckets _ PendingNode.checks c.rebuilt H.grace u.files.hist).get id = none
    rw [Instance.rebuildBuckets, get_retireUnlisted, get_ensureBuckets_inherited ho, hnone]
    rfl
  have hkey := (mem_reconciled_keys (u := u) (H := H) (not_undefined ho)).2 hl
  rw [hist_turn hr]
  obtain ⟨hn, -⟩ | ⟨x, -, hg⟩ := get_recordHistory_inherited ho (addCheck H.window (c.now / 60000))
    ((u.reconciled H c).nodes.map fun n =>
      (n.key, ({ up := (c.probe n).up, height := (c.probe n).height } : NodeProbe))) (isoSec c.now)
    H.grace (u.reconciled H c).files.hist
  · rw [List.map_map] at hn
    exact absurd hkey hn
  · rw [rowsOf_inherited ho hrebuilt] at hg
    exact ⟨x, hg⟩

theorem reading_of_listed (hr : u.Records H c) (hl : c.Lists id) :
    ∃ x, u.reading H c id = some x := by
  rw [Turn.Lists, ← nodes_reconciled_ids (u := u) (H := H)] at hl
  obtain ⟨n, hn, hk⟩ := List.mem_map.1 hl
  exact ⟨_, reading_of_mem hr hn hk⟩

end Forgotten

section Runs

variable {id : String}

/-- A cycle that lists one node, which answers. -/
def loneTurn (id : String) (now : Int) : Turn where
  toCycle := uniformCycle now now true
  store := { submissions := [("approved", id, [])].map fun x => sampleSubmission x.1 x.2.1 x.2.2 }

theorem loneTurn_lists (id id' : String) (now : Int) : (loneTurn id now).Lists id' ↔ id' = id := by
  have happroved : (loneTurn id now).found.approvedSubs = [(sampleSubmission "approved" id []).2] := by
    rw [sample_approvedSubs _ rfl]
    rfl
  have hseeds : (loneTurn id now).found.seedNodes = [] := rfl
  have hkeys : (loneTurn id now).found.byId.keys = [some id] := by
    rw [Instance.byId, Instance.approved, happroved, hseeds]
    rfl
  rw [Turn.Lists, hkeys, List.mem_singleton, Option.some.injEq]

theorem loneTurn_records (H : HistoryRules) (u : Updated) (id : String) (now : Int) :
    u.Records H (loneTurn id now) := by
  rw [Updated.Records, ← Bool.not_eq_true]
  intro hfailed
  obtain ⟨hne, hno⟩ := allFailed_iff.1 hfailed
  exact hno ((reaches_uniform H _ now now).2 hne)

theorem loneTurn_awaits (id id' : String) (now : Int) : ¬ (loneTurn id now).Awaits id' := by
  rintro ⟨s, hs, hstatus, -⟩
  rw [List.mem_singleton.1 hs] at hstatus
  have happroved : "approved" = "pending" := Option.some.inj hstatus
  exact absurd happroved (by decide)

/-- A node that is missing from one cycle and listed again by the next. -/
def relisting (id : String) : List Turn :=
  [loneTurn id 1200000, loneTurn "mainnet-dojo" 600000, loneTurn id 0]

theorem relisting_clocked (id : String) : Clocked (relisting id) := by
  constructor
  · intro c hc
    simp only [relisting, List.mem_cons, List.not_mem_nil, or_false] at hc
    obtain rfl | rfl | rfl := hc
    all_goals exact Int.le_refl _
  · simp [relisting, loneTurn, uniformCycle]

theorem relisting_pending (H : HistoryRules) (T : CycleText) (id : String) :
    Updated.NeverPending H T {} id (relisting id) := by
  refine ⟨rfl, fun c earlier hs _ => ?_⟩
  have hc := hs.subset List.mem_cons_self
  simp only [relisting, List.mem_cons, List.not_mem_nil, or_false] at hc
  obtain rfl | rfl | rfl := hc
  all_goals exact loneTurn_awaits _ _ _

theorem relisting_gone (hid : id ≠ "mainnet-dojo") : NeverLongMissing 86400000 id (relisting id) := by
  intro c earlier hs t ht
  have hlists := (loneTurn_lists id id 1200000).2 rfl
  have hfirst := (loneTurn_lists id id 0).2 rfl
  have hmissing : ¬ (loneTurn "mainnet-dojo" 600000).Lists id := mt (loneTurn_lists _ _ _).1 hid
  rcases List.suffix_cons_iff.1 hs with he | hs
  · cases he
    cases (missingSince_of_listed hlists _).symm.trans ht
  · rcases List.suffix_cons_iff.1 hs with he | hs
    · cases he
      rw [missingSince_of_unlisted hmissing ⟨_, List.mem_singleton.2 rfl, hfirst⟩,
        missingSince_of_listed hfirst] at ht
      cases ht
      decide
    · rcases List.suffix_cons_iff.1 hs with he | hs
      · cases he
        cases (missingSince_of_listed hfirst _).symm.trans ht
      · exact absurd (List.suffix_nil.1 hs) (List.cons_ne_nil _ _)

theorem turns_cons (H : HistoryRules) (T : CycleText) (u : Updated) (c : Turn) (l : List Turn) :
    u.turns H T (c :: l) = (u.turns H T l).turn H T c := rfl

def dayRules : HistoryRules := ⟨86400000, 144, 90⟩

theorem relisting_hist (ho : id ∈ objectPrototype) (hid : id ≠ "mainnet-dojo") (u : Updated) :
    ∃ x, (u.turns dayRules sampleText (relisting id)).files.hist.get id =
      some ⟨addCheck dayRules.window (1200000 / 60000) x [], .absent⟩ := by
  rw [relisting, turns_cons, turns_cons]
  generalize u.turns dayRules sampleText [loneTurn id 0] = u
  have hmissing : ¬ (loneTurn "mainnet-dojo" 600000).Lists id := mt (loneTurn_lists _ _ _).1 hid
  have hnone := forgotten (T := sampleText) ho (loneTurn_records dayRules u "mainnet-dojo" 600000) hmissing
  exact begun_anew ho (loneTurn_records dayRules _ id 1200000) ((loneTurn_lists id id 1200000).2 rfl) hnone

theorem relisting_readings (hid : id ≠ "mainnet-dojo") (u : Updated) :
    ∃ y z, u.readings dayRules sampleText id (relisting id) = [y, z] := by
  have hmissing : ¬ (loneTurn "mainnet-dojo" 600000).Lists id := mt (loneTurn_lists _ _ _).1 hid
  rw [relisting, Updated.readings, Updated.readings, Updated.readings, Updated.readings]
  generalize u.turns dayRules sampleText [loneTurn "mainnet-dojo" 600000, loneTurn id 0] = u₂
  generalize u.turns dayRules sampleText [loneTurn id 0] = u₁
  generalize u.turns dayRules sampleText [] = u₀
  obtain ⟨y, hy⟩ := reading_of_listed (loneTurn_records dayRules u₂ id 1200000)
    ((loneTurn_lists id id 1200000).2 rfl)
  obtain ⟨z, hz⟩ := reading_of_listed (loneTurn_records dayRules u₀ id 0)
    ((loneTurn_lists id id 0).2 rfl)
  rw [hy, hz, reading_of_unlisted hmissing]
  exact ⟨y, z, rfl⟩

/-- Of a node with an inherited name the checks before it was missing are lost. -/
theorem not_countsOnce_inherited (ho : id ∈ objectPrototype) : ¬ CountsOnce id := by
  intro h
  have hid : id ≠ "mainnet-dojo" := by
    rintro rfl
    exact absurd ho (by decide)
  obtain ⟨x, hx⟩ := relisting_hist ho hid {}
  obtain ⟨y, z, hlog⟩ := relisting_readings hid {}
  rw [relisting] at hx hlog
  obtain ⟨checks, days, hhist, -, hrolled⟩ := h dayRules sampleText {} (loneTurn id 1200000)
    [loneTurn "mainnet-dojo" 600000, loneTurn id 0] (Int.le_refl _) rfl rfl
    (relisting_clocked id) (relisting_pending _ _ id) (relisting_gone hid)
    ((loneTurn_lists id id 1200000).2 rfl)
  have hchecks : checks = addCheck dayRules.window (1200000 / 60000) x [] := by
    rw [hx, Option.some.injEq, Bucket.mk.injEq] at hhist
    exact hhist.1.symm
  have hone : checks.length = 1 := by
    rw [hchecks, addCheck, length_trimTo]
    rfl
  have htwo : checks.length = 2 := by
    rw [hrolled.newest, hlog, length_trimTo]
    rfl
  rw [hone] at htwo
  exact absurd htwo (by decide)

/-- A submission without an id. -/
def namelessRecord : RawRecord := ⟨(sampleSubmission "approved" "" []).2.fields.tail⟩

/-- A cycle that lists a node with the id `undefined`, which answers, and after it one without an id,
which does not. -/
def twinTurn : Turn where
  rebuilt := 0
  now := 0
  probe n := { up := n.id.isSome }
  pendingProbe _ := { up := true }
  store := { submissions := [sampleSubmission "approved" "undefined" [], ("", namelessRecord)] }

theorem twinTurn_keys : twinTurn.found.byId.keys = [some "undefined", none] := by
  have hfields : ∀ r ∈ twinTurn.found.store.submissions.map Prod.snd,
      asText (r.get "status") = some "approved" ∧ r.paymentCodes ≠ [] ∧ r.hasSignedBlock = true := by
    intro r hr
    obtain rfl | hr := List.mem_cons.1 hr
    · exact ⟨rfl, by decide +kernel, by decide +kernel⟩
    · cases List.mem_singleton.1 hr
      exact ⟨rfl, by decide +kernel, by decide +kernel⟩
  have happroved : twinTurn.found.approvedSubs =
      [(sampleSubmission "approved" "undefined" []).2, namelessRecord] := by
    rw [Instance.approvedSubs, List.filter_filter, List.filter_eq_self.2]
    · rfl
    · intro r hr
      obtain ⟨hstatus, hcodes, hblock⟩ := hfields r hr
      simp [hstatus, hcodes, hblock]
  have hseeds : twinTurn.found.seedNodes = [] := rfl
  rw [Instance.byId, Instance.approved, happroved, hseeds]
  rfl

theorem twinTurn_awaits {c : Turn} {earlier : List Turn} (hs : c :: earlier <:+ [twinTurn]) :
    ¬ c.Awaits id := by
  rintro ⟨s, hmem, hstatus, -⟩
  obtain rfl := List.mem_singleton.1 (hs.subset List.mem_cons_self)
  have happroved : asText (s.get "status") = some "approved" := by
    obtain rfl | hmem := List.mem_cons.1 hmem
    · rfl
    · cases List.mem_singleton.1 hmem
      rfl
  exact absurd (Option.some.inj (happroved.symm.trans hstatus)) (by decide)

theorem twinTurn_gone (hl : twinTurn.Lists id) : NeverLongMissing dayRules.grace id [twinTurn] := by
  intro c earlier hs t ht
  obtain rfl := List.mem_singleton.1 (hs.subset List.mem_cons_self)
  cases (missingSince_of_listed hl earlier).symm.trans ht

/-- Of two nodes with the same key the later one is recorded. -/
theorem get_recordHistory_twice {k : String} (hk : k ∉ objectPrototype) (record : ν → List ρ → List ρ)
    (r r' : ν) (now grace : Int) (m : Table (Bucket ρ)) :
    (recordHistory record [(k, r), (k, r')] now grace m).get k =
      some ⟨record r' (rowsOf m k), .absent⟩ := by
  have hm : k ∈ [(k, r), (k, r')].map Prod.fst := List.mem_cons_self
  rw [recordHistory, get_retireUnlisted, get_copyRest hk, recordNodes, recordNodes, recordNodes,
    Table.get_set, if_pos rfl, decide_eq_true hm]
  rfl

/-- The check of the node without an id stands in the bucket of the other. -/
theorem not_countsOnce_undefined : ¬ CountsOnce "undefined" := by
  intro h
  have hlists : twinTurn.Lists "undefined" := by
    rw [Turn.Lists, twinTurn_keys]
    exact List.mem_cons_self
  have hids := nodes_reconciled_ids (H := dayRules) (u := {}) (c := twinTurn)
  rw [twinTurn_keys] at hids
  obtain ⟨n, nodes, hnodes, hid, hrest⟩ := List.map_eq_cons_iff.1 hids
  obtain ⟨n', rest, rfl, hid', hrest⟩ := List.map_eq_cons_iff.1 hrest
  cases List.map_eq_nil_iff.1 hrest
  have hup : (twinTurn.probe n).up = true := congrArg Option.isSome hid
  have hdown : (twinTurn.probe n').up = false := congrArg Option.isSome hid'
  have hrecords : Updated.Records dayRules {} twinTurn := by
    rw [Updated.Records, Updated.allFailed, hnodes, List.all_cons]
    have hup : (twinTurn.toCycle.probe n).up = true := hup
    rw [hup]
    rfl
  have hn : n.key = "undefined" := congrArg (fun id : Option String => id.getD "undefined") hid
  have hn' : n'.key = "undefined" := congrArg (fun id : Option String => id.getD "undefined") hid'
  obtain ⟨checks, days, hhist, -, hrolled⟩ := h dayRules sampleText {} twinTurn [] (Int.le_refl _) rfl rfl
    ⟨fun c hc => by cases List.mem_singleton.1 hc; exact Int.le_refl _, List.pairwise_singleton _ _⟩
    ⟨rfl, fun c earlier hs _ => twinTurn_awaits hs⟩ (twinTurn_gone hlists) hlists
  have hlast : ∃ rows, checks = addCheck dayRules.window 0 { up := false } rows := by
    change (Updated.turn dayRules sampleText {} twinTurn).files.hist.get "undefined" = _ at hhist
    rw [hist_turn hrecords, hnodes, List.map_cons, List.map_singleton, hn, hn', hup, hdown,
      get_recordHistory_twice (by decide), Option.some.injEq, Bucket.mk.injEq] at hhist
    exact ⟨_, hhist.1.symm⟩
  obtain ⟨rows, hlast⟩ := hlast
  have hread : Updated.readings dayRules sampleText {} "undefined" [twinTurn] =
      [⟨0, { up := true, height := (twinTurn.probe n).height }⟩] := by
    change (Updated.reading dayRules {} twinTurn "undefined").toList ++ [] = _
    rw [reading_of_mem hrecords (hnodes ▸ List.mem_cons_self) hid, hup]
    rfl
  have hnewest := hrolled.newest
  rw [hread, hlast, addCheck, trimTo_concat (by decide), List.reverse_singleton, List.map_singleton,
    ← List.nil_append [Reading.check _], trimTo_concat (by decide)] at hnewest
  have hsame := List.singleton_inj.1 (List.append_inj' hnewest rfl).2
  exact Bool.false_ne_true (congrArg HistoryCheck.up hsame)

end Runs

/-- The roll-ups count every recorded cycle once, in every run, for exactly the ids that no object
inherits, and that are not the one under which a node without an id is recorded. -/
theorem roll_ups_count_iff (id : String) :
    CountsOnce id ↔ id ∉ objectPrototype ∧ id ≠ "undefined" := by
  constructor
  · intro h
    constructor
    · exact fun ho => not_countsOnce_inherited ho h
    · rintro rfl
      exact not_countsOnce_undefined h
  · rintro ⟨ho, hu⟩
    exact countsOnce id ho hu

theorem inherited_id_forgotten : ¬ CountsOnce "constructor" := not_countsOnce_inherited (by decide)

end Mise.Server
