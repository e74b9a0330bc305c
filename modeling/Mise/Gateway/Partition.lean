import Mise.Gateway.Chain

set_option autoImplicit true

namespace Mise.Gateway

/-- Either a call, or a new store object over the same file. -/
inductive Op where
  | call (k : Call) (clock : Int)
  | reopen

/-- The timestamp a call is given. -/
def Op.now : Op → Option Int
  | .call (.allocate now) _ | .call (.release _ now) _ => some now
  | .call (.settle _) _ | .reopen => none

/-- One step of a sequential run: what was asked of which state, and what came of it. -/
structure Event where
  op : Op
  before : IndexState
  reply : Option (Except Fault Reply)
  after : IndexState

namespace Chain

def step (q : Int) (c : Chain) : Op → Option (Except Fault Reply) × Chain
  | .call k clock => (some (c.call q clock k).1, (c.call q clock k).2)
  | .reopen => (none, { c with state := none })

def trace (q : Int) : Chain → List Op → List Event
  | _, [] => []
  | c, o :: os =>
    let r := c.step q o
    ⟨o, c.current, r.1, r.2.current⟩ :: trace q r.2 os

end Chain

/-- The index whose settling took effect in this step. -/
def Event.settled (e : Event) : List Int :=
  match e.op, e.reply with
  | .call (.settle i) _, some (.ok (.bool true)) => [i]
  | _, _ => []

/-- Every index below `next` is in exactly one of `issued`, `released` and the settled ones,
and no other index is in any of them. -/
structure Partition (settled : List Int) (s : IndexState) : Prop extends s.WellFormed where
  next_nonneg : 0 ≤ s.next
  settled_issued : ∀ i ∈ settled, i ∉ s.issued
  settled_released : ∀ i ∈ settled, i ∉ s.released
  covers : ∀ i, (0 ≤ i ∧ i < s.next) ↔ (i ∈ s.issued ∨ i ∈ s.released ∨ i ∈ settled)

/-- What `allocate` may return at `now`: nothing live, nothing settled, and a released index
only after its quarantine. -/
structure MayReturn (q : Int) (settled : List Int) (s : IndexState) (now i : Int) : Prop where
  not_issued : i ∉ s.issued
  not_settled : i ∉ settled
  rested : ∀ r ∈ s.reclaimed, r.index = i → q ≤ now - r.releasedAt

/-- The partition holds in every state of the run, and every `allocate` keeps to it. -/
def Lawful (q : Int) : List Int → IndexState → List Event → Prop
  | settled, s, [] => Partition settled s
  | settled, s, e :: es =>
    Partition settled s ∧
      (∀ now clock i, e.op = .call (.allocate now) clock → e.reply = some (.ok (.index i)) →
        MayReturn q settled e.before now i) ∧
      Lawful q (e.settled ++ settled) e.after es

/-- A reissued index is the one whose release is the earliest of those reclaimed. -/
def OldestFirst (es : List Event) : Prop :=
  ∀ e ∈ es, ∀ now clock i, e.op = .call (.allocate now) clock →
    e.reply = some (.ok (.index i)) → i ∈ e.before.released →
      ∃ r rest, e.before.reclaimed = r :: rest ∧ r.index = i ∧
        ∀ r' ∈ rest, r.releasedAt ≤ r'.releasedAt

/-- Timestamps that never go backwards. -/
def Monotone (os : List Op) : Prop := (os.filterMap Op.now).Pairwise (· ≤ ·)

/-- A live index is released only at a time that a `Date` can hold. -/
def Event.Datable (e : Event) : Prop :=
  ∀ i now clock, e.op = .call (.release i now) clock → i ∈ e.before.issued → IsDate now

theorem Partition.updatedAt (h : Partition S s) (t : Option Int) :
    Partition S { s with updatedAt := t } :=
  ⟨h.toWellFormed.updatedAt t, h.next_nonneg, h.settled_issued, h.settled_released, h.covers⟩

theorem partition_empty : Partition [] .empty where
  toWellFormed := IndexState.wellFormed_empty
  next_nonneg := Int.le_refl _
  settled_issued i hi := by cases hi
  settled_released i hi := by cases hi
  covers i := by simp [IndexState.empty, IndexState.released]

theorem Partition.allocate (h : Partition S s) (q now : Int) :
    Partition S (s.allocate q now).2 ∧ MayReturn q S s now (s.allocate q now).1 := by
  have hw := h.toWellFormed.allocate q now
  rcases s.allocate_cases q now with ⟨r, l₁, l₂, he, -, hready, ha⟩ | ⟨-, ha⟩ <;> rw [ha] at hw ⊢
  · obtain ⟨hi, hlt, h₁, h₂⟩ := h.reclaimed_split he
    have hr : r.index ∈ s.released := by simp [IndexState.released, he]
    have hmem : ∀ i, i ∈ s.released ↔ i = r.index ∨ i ∈ (l₁ ++ l₂).map Reclaimed.index := by
      intro i
      simp only [IndexState.released, he, List.map_append, List.map_cons, List.mem_append,
        List.mem_cons]
      tauto
    constructor
    · refine ⟨hw, h.next_nonneg, ?_, ?_, ?_⟩
      · intro i hs hm
        rcases IndexState.mem_push.1 hm with hm | rfl
        · exact h.settled_issued i hs hm
        · exact h.settled_released _ hs hr
      · exact fun i hs hm => h.settled_released i hs ((hmem i).2 (.inr hm))
      · intro i
        rw [h.covers i, hmem i]
        simp only [IndexState.mem_push, IndexState.released]
        tauto
    · refine ⟨hi, fun hs => h.settled_released _ hs hr, ?_⟩
      intro x hx hxi
      rw [he] at hx
      rcases List.mem_append.1 hx with hx | hx
      · exact absurd (List.mem_map.2 ⟨x, hx, hxi⟩) h₁
      · rcases List.mem_cons.1 hx with rfl | hx
        · exact hready
        · exact absurd (List.mem_map.2 ⟨x, hx, hxi⟩) h₂
  · have hnS : s.next ∉ S := fun hs =>
      Int.lt_irrefl _ ((h.covers s.next).2 (.inr (.inr hs))).2
    have hpos := h.next_nonneg
    constructor
    · refine ⟨hw, Int.le_add_one hpos, ?_, h.settled_released, ?_⟩
      · intro i hs hm
        rcases IndexState.mem_push.1 hm with hm | rfl
        · exact h.settled_issued i hs hm
        · exact hnS hs
      · intro i
        have hc := h.covers i
        simp only [IndexState.mem_push]
        change (0 ≤ i ∧ i < s.next + 1) ↔ (i ∈ s.issued ∨ i = s.next) ∨ i ∈ s.released ∨ i ∈ S
        by_cases he : i = s.next
        · subst he
          exact ⟨fun _ => .inl (.inr rfl), fun _ => ⟨hpos, by omega⟩⟩
        · constructor
          · intro hi
            have := hc.1 ⟨hi.1, by omega⟩
            tauto
          · intro hi
            have := hc.2 (by tauto)
            omega
    · refine ⟨h.next_fresh.1, hnS, ?_⟩
      intro x hx hxi
      exact absurd (List.mem_map.2 ⟨x, hx, hxi⟩) h.next_fresh.2

theorem Partition.release (h : Partition S s) (hd : index ∈ s.issued → IsDate now) :
    Partition S (s.release index now).2 := by
  have hw := h.toWellFormed.release index now
  rcases s.release_cases index now with
      ⟨-, hr⟩ | ⟨hi, hn, -⟩ | ⟨hi, -, -, hr⟩ | ⟨hi, -, hno, -⟩
  · rw [hr]
    exact h
  · exact absurd hn (h.disjoint index hi)
  · rw [hr] at hw ⊢
    have hmem : ∀ i, i ∈ (s.reclaimed ++ [Reclaimed.mk index now]).map Reclaimed.index ↔
        i ∈ s.released ∨ i = index := by simp [IndexState.released]
    refine ⟨hw, h.next_nonneg, ?_, ?_, ?_⟩
    · exact fun i hs hm => h.settled_issued i hs (List.mem_of_mem_erase hm)
    · intro i hs hm
      rcases (hmem i).1 hm with hm | rfl
      · exact h.settled_released i hs hm
      · exact h.settled_issued _ hs hi
    · intro i
      rw [h.covers i]
      change _ ↔ i ∈ s.issued.erase index ∨
        i ∈ (s.reclaimed ++ [Reclaimed.mk index now]).map Reclaimed.index ∨ i ∈ S
      rw [hmem i, h.issued_nodup.mem_erase_iff]
      by_cases he : i = index
      · subst he
        tauto
      · tauto
  · exact absurd (hd hi) hno

theorem Partition.settle (h : Partition S s) (index : Int) :
    Partition (if (s.settle index).1 then index :: S else S) (s.settle index).2 := by
  have hw := h.toWellFormed.settle index
  rcases s.settle_cases index with ⟨-, hr⟩ | ⟨hi, hr⟩ <;> rw [hr] at hw ⊢
  · exact h
  · refine ⟨hw, h.next_nonneg, ?_, ?_, ?_⟩
    · intro i hs hm
      rcases List.mem_cons.1 hs with rfl | hs
      · exact h.issued_nodup.not_mem_erase hm
      · exact h.settled_issued i hs (List.mem_of_mem_erase hm)
    · intro i hs
      rcases List.mem_cons.1 hs with rfl | hs
      · exact h.disjoint _ hi
      · exact h.settled_released i hs
    · intro i
      rw [h.covers i]
      change _ ↔ i ∈ s.issued.erase index ∨ _ ∨ i ∈ index :: S
      rw [h.issued_nodup.mem_erase_iff, List.mem_cons]
      by_cases he : i = index
      · subst he
        tauto
      · tauto

/-- A release at a time no `Date` can hold leaves the index in none of the three places. -/
theorem Partition.not_release (h : Partition S s) (hi : index ∈ s.issued) (hd : ¬ IsDate now) :
    ¬ Partition S (s.release index now).2 := by
  have hlt := (h.covers index).2 (.inl hi)
  rcases s.release_cases index now with ⟨hno, -⟩ | ⟨-, hn, -⟩ | ⟨-, -, hd', -⟩ | ⟨-, -, -, hr⟩
  · exact absurd hi hno
  · exact absurd hn (h.disjoint index hi)
  · exact absurd hd' hd
  · rw [hr]
    intro h'
    rcases (h'.covers index).1 hlt with hm | hm | hm
    · exact h.issued_nodup.not_mem_erase hm
    · exact h.disjoint index hi hm
    · exact h.settled_issued index hm hi

/-- Between datable calls the file says what the memory says, so reopening changes nothing. -/
structure Chain.Kept (S : List Int) (c : Chain) : Prop where
  partition : Partition S c.current
  synced : ∀ s, c.state = some s → s = c.file.getD .empty

/-- The event that a step records. -/
def Chain.event (q : Int) (c : Chain) (o : Op) : Event :=
  ⟨o, c.current, (c.step q o).1, (c.step q o).2.current⟩

theorem Chain.Kept.unchanged (h : Kept S c) : Kept S { c with state := some c.current } := by
  refine ⟨h.partition, ?_⟩
  rintro s hs
  cases hs
  cases hc : c.state with
  | none => simp [Chain.current, hc]
  | some s => simp [Chain.current, hc, h.synced s hc]

theorem Chain.Kept.written (h : Partition S s) (clock : Int) :
    Kept S ⟨some { s with updatedAt := some clock }, some { s with updatedAt := some clock }⟩ :=
  ⟨h.updatedAt (some clock), by rintro s hs; cases hs; rfl⟩

theorem Chain.Kept.step (h : Kept S c) (hd : (c.event q o).Datable) :
    Kept ((c.event q o).settled ++ S) (c.step q o).2 := by
  cases o with
  | reopen =>
    refine ⟨?_, by rintro s hs; cases hs⟩
    change Partition S (c.file.getD .empty)
    have hp := h.partition
    cases hc : c.state with
    | none => simpa [Chain.current, hc] using hp
    | some s =>
      rw [← h.synced s hc]
      simpa [Chain.current, hc] using hp
  | call k clock =>
    cases k with
    | allocate now => exact .written (h.partition.allocate q now).1 clock
    | release index now =>
      have hp := h.partition.release (hd index now clock rfl)
      rcases c.current.release_cases index now with
          ⟨-, hr⟩ | ⟨-, -, hr⟩ | ⟨-, -, -, hr⟩ | ⟨hi, -, hno, -⟩
      · simpa [Chain.event, Chain.step, Chain.call, Event.settled, IndexState.apply, hr,
          Except.map, persists] using h.unchanged
      · rw [hr] at hp
        simpa [Chain.event, Chain.step, Chain.call, Event.settled, IndexState.apply, hr,
          Except.map, persists] using Kept.written hp clock
      · rw [hr] at hp
        simpa [Chain.event, Chain.step, Chain.call, Event.settled, IndexState.apply, hr,
          Except.map, persists] using Kept.written hp clock
      · exact absurd (hd index now clock rfl hi) hno
    | settle index =>
      have hp := h.partition.settle index
      rcases c.current.settle_cases index with ⟨-, hr⟩ | ⟨-, hr⟩ <;> rw [hr] at hp
      · simpa [Chain.event, Chain.step, Chain.call, Event.settled, IndexState.apply, hr,
          persists] using h.unchanged
      · simpa [Chain.event, Chain.step, Chain.call, Event.settled, IndexState.apply, hr,
          persists] using Kept.written hp clock

theorem Chain.Kept.mayReturn (h : Kept S c) (he : (c.event q o).op = .call (.allocate now) clock)
    (hr : (c.event q o).reply = some (.ok (.index i))) :
    MayReturn q S (c.event q o).before now i := by
  cases he
  simp only [Chain.event, Chain.step, Chain.call_reply, IndexState.apply, Option.some.injEq,
    Except.ok.injEq, Reply.index.injEq] at hr
  exact hr ▸ (h.partition.allocate q now).2

theorem Chain.Kept.lawful (h : Kept S c) (hd : ∀ e ∈ c.trace q os, e.Datable) :
    Lawful q S c.current (c.trace q os) := by
  induction os generalizing c S with
  | nil => exact h.partition
  | cons o os ih =>
    have ho : (c.event q o).Datable := hd _ List.mem_cons_self
    exact ⟨h.partition, fun now clock i he hr => h.mayReturn he hr,
      ih (h.step ho) fun e he => hd e (List.mem_cons_of_mem _ he)⟩

/-- The first undatable release ends the partition. -/
theorem Lawful.datable {c : Chain} (h : Lawful q S c.current (c.trace q os)) :
    ∀ e ∈ c.trace q os, e.Datable := by
  induction os generalizing c S with
  | nil => simp [Chain.trace]
  | cons o os ih =>
    obtain ⟨hp, -, hl⟩ := h
    intro e he
    rcases List.mem_cons.1 he with rfl | he
    · intro i now clock ho hi
      subst ho
      by_contra hno
      have hp' : Partition S (c.step q (.call (.release i now) clock)).2.current := by
        cases os with
        | nil => exact hl
        | cons o os => exact hl.1
      obtain ⟨t, ht⟩ := c.call_current q clock (.release i now)
      simp only [Chain.step, ht] at hp'
      exact hp.not_release hi hno (hp'.updatedAt (c.current.release i now).2.updatedAt)
    · exact ih hl e he

/-- A step drops entries of the reclaimed list, or puts the new one at its end. -/
theorem Chain.Kept.step_reclaimed (h : Kept S c) (q : Int) (o : Op) :
    (c.step q o).2.current.reclaimed.Sublist c.current.reclaimed ∨
      ∃ i now, o.now = some now ∧
        (c.step q o).2.current.reclaimed = c.current.reclaimed ++ [⟨i, now⟩] := by
  cases o with
  | reopen =>
    left
    cases hc : c.state with
    | none => simp [Chain.step, current, hc]
    | some s => simp [Chain.step, current, hc, h.synced s hc]
  | call k clock =>
    rw [Chain.step, call_reclaimed]
    cases k with
    | allocate now =>
      left
      rcases c.current.allocate_cases q now with ⟨r, l₁, l₂, he, -, -, ha⟩ | ⟨-, ha⟩ <;>
        simp only [IndexState.apply, ha]
      · rw [he]
        exact (List.sublist_cons_self r l₂).append_left l₁
      · exact List.Sublist.refl _
    | release index now =>
      rcases c.current.release_cases index now with
          ⟨-, hr⟩ | ⟨-, -, hr⟩ | ⟨-, -, -, hr⟩ | ⟨-, -, -, hr⟩ <;>
        simp only [IndexState.apply, hr]
      · exact .inl (List.Sublist.refl _)
      · exact .inl (List.Sublist.refl _)
      · exact .inr ⟨index, now, rfl, rfl⟩
      · exact .inl (List.Sublist.refl _)
    | settle index =>
      left
      rcases c.current.settle_cases index with ⟨-, hr⟩ | ⟨-, hr⟩ <;>
        simp only [IndexState.apply, hr] <;> exact List.Sublist.refl _

/-- Reclaimed in the order of release, and all of it before every timestamp of `ts`. -/
structure SortedBefore (s : IndexState) (ts : List Int) : Prop where
  sorted : s.reclaimed.Pairwise fun r r' => r.releasedAt ≤ r'.releasedAt
  before : ∀ r ∈ s.reclaimed, ∀ t ∈ ts, r.releasedAt ≤ t

theorem Chain.Kept.sortedBefore (h : Kept S c) (q : Int) (hm : Monotone (o :: os))
    (hs : SortedBefore c.current ((o :: os).filterMap Op.now)) :
    SortedBefore (c.step q o).2.current (os.filterMap Op.now) := by
  have hlater : ∀ t ∈ os.filterMap Op.now, t ∈ (o :: os).filterMap Op.now := by
    intro t ht
    obtain ⟨x, hx, hxt⟩ := List.mem_filterMap.1 ht
    exact List.mem_filterMap.2 ⟨x, List.mem_cons_of_mem _ hx, hxt⟩
  rcases h.step_reclaimed q o with hsub | ⟨i, now, hnow, he⟩
  · exact ⟨hs.sorted.sublist hsub, fun r hr t ht => hs.before r (hsub.subset hr) t (hlater t ht)⟩
  · have hpair : ∀ t ∈ os.filterMap Op.now, now ≤ t := by
      rw [Monotone, List.filterMap_cons_some hnow, List.pairwise_cons] at hm
      exact hm.1
    have hbefore : ∀ r ∈ c.current.reclaimed, r.releasedAt ≤ now := fun r hr =>
      hs.before r hr now (by rw [List.filterMap_cons_some hnow]; exact List.mem_cons_self)
    constructor
    · rw [he, List.pairwise_append]
      refine ⟨hs.sorted, List.pairwise_singleton _ _, ?_⟩
      intro r hr r' hr'
      rw [List.mem_singleton.1 hr']
      exact hbefore r hr
    · intro r hr t ht
      rw [he] at hr
      rcases List.mem_append.1 hr with hr | hr
      · exact Int.le_trans (hbefore r hr) (hpair t ht)
      · rw [List.mem_singleton.1 hr]
        exact hpair t ht

theorem oldest_of_sorted {s : IndexState} (h : s.WellFormed)
    (hs : s.reclaimed.Pairwise fun r r' => r.releasedAt ≤ r'.releasedAt)
    (ha : (s.allocate q now).1 = i) (hi : i ∈ s.released) :
    ∃ r rest, s.reclaimed = r :: rest ∧ r.index = i ∧
      ∀ r' ∈ rest, r.releasedAt ≤ r'.releasedAt := by
  rcases s.allocate_cases q now with ⟨r, l₁, l₂, he, hl, hready, hr⟩ | ⟨-, hr⟩ <;> rw [hr] at ha
  · rw [he] at hs
    cases l₁ with
    | nil => exact ⟨r, l₂, he, ha, (List.pairwise_cons.1 hs).1⟩
    | cons x l₁ =>
      have hxr := (List.pairwise_cons.1 hs).1 r (by simp)
      have hx : ¬ x.Ready q now := hl x List.mem_cons_self
      simp only [Reclaimed.Ready] at hx hready
      omega
  · have he : s.next = i := ha
    exact absurd (he ▸ hi) h.next_fresh.2

theorem Chain.Kept.oldestFirst (h : Kept S c) (hd : ∀ e ∈ c.trace q os, e.Datable)
    (hm : Monotone os) (hs : SortedBefore c.current (os.filterMap Op.now)) :
    OldestFirst (c.trace q os) := by
  induction os generalizing c S with
  | nil => intro e he; simp [Chain.trace] at he
  | cons o os ih =>
    intro e he
    rcases List.mem_cons.1 he with rfl | he
    · intro now clock i ho hr hi
      subst ho
      simp only [Chain.step, call_reply, IndexState.apply, Option.some.injEq, Except.ok.injEq,
        Reply.index.injEq] at hr
      exact oldest_of_sorted h.partition.toWellFormed hs.sorted hr hi
    · have hm' : Monotone os := by
        cases hn : o.now with
        | none => rwa [Monotone, List.filterMap_cons_none hn] at hm
        | some t =>
          rw [Monotone, List.filterMap_cons_some hn] at hm
          exact (List.pairwise_cons.1 hm).2
      exact ih (h.step (hd _ List.mem_cons_self)) (fun e he => hd e (List.mem_cons_of_mem _ he))
        hm' (h.sortedBefore q hm hs) e he

theorem Chain.kept_empty : Kept [] {} := ⟨partition_empty, by rintro s hs; cases hs⟩

/-- A run from an empty store keeps the partition, and hands out the oldest released index
first, exactly when every live index is released at a time that a `Date` can hold. -/
theorem partition_iff_datable (q : Int) (os : List Op) :
    (Lawful q [] ({} : Chain).current (({} : Chain).trace q os) ∧
        (Monotone os → OldestFirst (({} : Chain).trace q os))) ↔
      ∀ e ∈ ({} : Chain).trace q os, e.Datable := by
  constructor
  · exact fun h => h.1.datable
  · intro hd
    refine ⟨Chain.kept_empty.lawful hd, fun hm => Chain.kept_empty.oldestFirst hd hm ?_⟩
    exact ⟨List.Pairwise.nil, by rintro r hr; cases hr⟩

/-- Released one millisecond after the last instant a `Date` can hold, index 0 is lost. -/
theorem undatable_release_loses_index :
    ¬ ∀ q os, Lawful q [] ({} : Chain).current (({} : Chain).trace q os) ∧
      (Monotone os → OldestFirst (({} : Chain).trace q os)) := by
  intro h
  have hd := (h 86400000 [.call (.allocate 0) 0, .call (.release 0 8640000000000001) 0]).1.datable
  exact absurd (hd _ (List.mem_cons_of_mem _ List.mem_cons_self) 0 _ 0 rfl (by decide)) (by decide)

end Mise.Gateway
