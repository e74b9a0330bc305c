import Mise.Gateway.IndexState

set_option autoImplicit true

namespace Mise.Gateway

/-- A call of the store. `now` is what the caller passes or what `Date.now()` gives. -/
inductive Call where
  | allocate (now : Int)
  | release (index now : Int)
  | settle (index : Int)
  deriving DecidableEq

inductive Reply where
  | index (i : Int)
  | bool (b : Bool)
  deriving DecidableEq

namespace IndexState

def apply (q : Int) (s : IndexState) : Call → Except Fault Reply × IndexState
  | .allocate now =>
    let r := s.allocate q now
    (.ok (.index r.1), r.2)
  | .release index now =>
    let r := s.release index now
    (r.1.map .bool, r.2)
  | .settle index =>
    let r := s.settle index
    (.ok (.bool r.1), r.2)

theorem WellFormed.apply (h : WellFormed s) (q : Int) (k : Call) :
    WellFormed (s.apply q k).2 := by
  cases k with
  | allocate now => exact h.allocate q now
  | release index now => exact h.release index now
  | settle index => exact h.settle index

theorem next_le_apply (q : Int) (s : IndexState) (k : Call) : s.next ≤ (s.apply q k).2.next := by
  cases k with
  | allocate now =>
    rcases s.allocate_cases q now with ⟨r, l₁, l₂, -, -, -, ha⟩ | ⟨-, ha⟩ <;>
      simp only [IndexState.apply, ha] <;> omega
  | release index now =>
    rcases s.release_cases index now with ⟨-, hr⟩ | ⟨-, -, hr⟩ | ⟨-, -, -, hr⟩ | ⟨-, -, -, hr⟩ <;>
      simp only [IndexState.apply, hr] <;> omega
  | settle index =>
    rcases s.settle_cases index with ⟨-, hr⟩ | ⟨-, hr⟩ <;> simp only [IndexState.apply, hr] <;> omega

theorem WellFormed.allocated_lt (h : WellFormed s)
    (hk : (s.apply q k).1 = .ok (.index i)) : i < (s.apply q k).2.next := by
  cases k with
  | allocate now =>
    rcases s.allocate_cases q now with ⟨r, l₁, l₂, he, -, -, ha⟩ | ⟨-, ha⟩ <;>
      simp only [IndexState.apply, ha, Except.ok.injEq, Reply.index.injEq] at hk ⊢
    · exact hk ▸ (h.reclaimed_split he).2.1
    · omega
  | release index now =>
    rcases s.release_cases index now with ⟨-, hr⟩ | ⟨-, -, hr⟩ | ⟨-, -, -, hr⟩ | ⟨-, -, -, hr⟩ <;>
      simp [IndexState.apply, hr, Except.map] at hk
  | settle index => simp [IndexState.apply] at hk

end IndexState

/-- The calls that end by writing the file; the others return or throw before `persist`. -/
def persists : Except Fault Reply → Bool
  | .ok (.bool b) => b
  | .ok (.index _) => true
  | .error _ => false

/-- One store object and its file. `state` is what it holds once its first call has loaded. -/
structure Chain where
  file : Option IndexState := none
  state : Option IndexState := none
  deriving DecidableEq

namespace Chain

/-- What `load` gives: the state in memory, else the file, else an empty one. -/
def current (c : Chain) : IndexState := c.state.getD (c.file.getD .empty)

/-- One call, run to its end before the next one starts. `clock` is the time `persist` writes. -/
def call (q clock : Int) (c : Chain) (k : Call) : Except Fault Reply × Chain :=
  let r := c.current.apply q k
  if persists r.1 then
    let s := { r.2 with updatedAt := some clock }
    (r.1, ⟨some s, some s⟩)
  else (r.1, { c with state := some r.2 })

def calls (q : Int) (c : Chain) (ks : List (Call × Int)) : Chain :=
  ks.foldl (fun c k => (c.call q k.2 k.1).2) c

def replies (q : Int) : Chain → List (Call × Int) → List (Except Fault Reply)
  | _, [] => []
  | c, k :: ks => (c.call q k.2 k.1).1 :: replies q (c.call q k.2 k.1).2 ks

/-- What a call leaves behind, up to the time stamp that `persist` writes. -/
theorem call_current (q clock : Int) (c : Chain) (k : Call) :
    ∃ t, (c.call q clock k).2.current = { (c.current.apply q k).2 with updatedAt := t } := by
  unfold call
  dsimp only
  split
  · exact ⟨some clock, rfl⟩
  · exact ⟨(c.current.apply q k).2.updatedAt, rfl⟩

@[simp] theorem call_reply (q clock : Int) (c : Chain) (k : Call) :
    (c.call q clock k).1 = (c.current.apply q k).1 := by
  unfold call
  dsimp only
  split <;> rfl

@[simp] theorem call_next (q clock : Int) (c : Chain) (k : Call) :
    (c.call q clock k).2.current.next = (c.current.apply q k).2.next := by
  obtain ⟨t, ht⟩ := c.call_current q clock k
  rw [ht]

@[simp] theorem call_issued (q clock : Int) (c : Chain) (k : Call) :
    (c.call q clock k).2.current.issued = (c.current.apply q k).2.issued := by
  obtain ⟨t, ht⟩ := c.call_current q clock k
  rw [ht]

@[simp] theorem call_reclaimed (q clock : Int) (c : Chain) (k : Call) :
    (c.call q clock k).2.current.reclaimed = (c.current.apply q k).2.reclaimed := by
  obtain ⟨t, ht⟩ := c.call_current q clock k
  rw [ht]

@[simp] theorem call_released (q clock : Int) (c : Chain) (k : Call) :
    (c.call q clock k).2.current.released = (c.current.apply q k).2.released := by
  simp only [IndexState.released, call_reclaimed]

theorem call_wellFormed {c : Chain} (h : c.current.WellFormed) (q clock : Int) (k : Call) :
    (c.call q clock k).2.current.WellFormed := by
  obtain ⟨t, ht⟩ := c.call_current q clock k
  rw [ht]
  exact (h.apply q k).updatedAt t

theorem calls_wellFormed {c : Chain} (h : c.current.WellFormed) (ks : List (Call × Int)) :
    (c.calls q ks).current.WellFormed := by
  induction ks generalizing c with
  | nil => exact h
  | cons k ks ih => exact ih (call_wellFormed h q k.2 k.1)

theorem next_le_calls (q : Int) (c : Chain) (ks : List (Call × Int)) :
    c.current.next ≤ (c.calls q ks).current.next := by
  induction ks generalizing c with
  | nil => exact Int.le_refl _
  | cons k ks ih =>
    have h := IndexState.next_le_apply q c.current k.1
    have h' := ih (c.call q k.2 k.1).2
    rw [call_next] at h'
    exact Int.le_trans h h'

/-- An index that was handed out stays below `next`. -/
theorem allocated_lt_next {c : Chain} (h : c.current.WellFormed)
    (hi : .ok (.index i) ∈ c.replies q ks) : i < (c.calls q ks).current.next := by
  induction ks generalizing c with
  | nil => cases hi
  | cons k ks ih =>
    rcases List.mem_cons.1 hi with he | hi
    · rw [call_reply] at he
      have hlt := h.allocated_lt he.symm
      have hle := next_le_calls q (c.call q k.2 k.1).2 ks
      rw [call_next] at hle
      exact Int.lt_of_lt_of_le hlt hle
    · exact ih (call_wellFormed h q k.2 k.1) hi

end Chain

/-- Retired for good: handed out once, and neither live nor waiting to be handed out again. -/
structure IndexState.Retired (i : Int) (s : IndexState) : Prop extends s.WellFormed where
  lt_next : i < s.next
  not_issued : i ∉ s.issued
  not_released : i ∉ s.released

theorem IndexState.Retired.apply (h : Retired i s) (q : Int) (k : Call) :
    Retired i (s.apply q k).2 ∧ (s.apply q k).1 ≠ .ok (.index i) := by
  have hw := h.toWellFormed.apply q k
  have hlt := Int.lt_of_lt_of_le h.lt_next (next_le_apply q s k)
  cases k with
  | allocate now =>
    rcases s.allocate_cases q now with ⟨r, l₁, l₂, he, -, -, ha⟩ | ⟨-, ha⟩ <;>
      simp only [IndexState.apply, ha] at hw hlt ⊢
    · have hr : r.index ∈ s.released := by simp [released, he]
      have hne : i ≠ r.index := fun e => h.not_released (e ▸ hr)
      refine ⟨⟨hw, hlt, ?_, fun hm => h.not_released ?_⟩, by simpa using hne.symm⟩
      · simpa using ⟨h.not_issued, hne⟩
      · simp only [released, he, List.map_append, List.map_cons, List.mem_append,
          List.mem_cons] at hm ⊢
        tauto
    · have hne : i ≠ s.next := fun e => Int.lt_irrefl _ (e ▸ h.lt_next)
      exact ⟨⟨hw, hlt, by simpa using ⟨h.not_issued, hne⟩, h.not_released⟩, by simpa using hne.symm⟩
  | release index now =>
    rcases s.release_cases index now with
        ⟨-, hr⟩ | ⟨-, -, hr⟩ | ⟨hi, -, -, hr⟩ | ⟨-, -, -, hr⟩ <;>
      simp only [IndexState.apply, hr] at hw hlt ⊢
    · exact ⟨h, by simp [Except.map]⟩
    · exact ⟨⟨hw, hlt, fun hm => h.not_issued (List.mem_of_mem_erase hm), h.not_released⟩,
        by simp [Except.map]⟩
    · have hne : i ≠ index := fun e => h.not_issued (e ▸ hi)
      refine ⟨⟨hw, hlt, fun hm => h.not_issued (List.mem_of_mem_erase hm), fun hm => ?_⟩,
        by simp [Except.map]⟩
      simp only [released, List.map_append, List.map_cons, List.map_nil, List.mem_append,
        List.mem_singleton] at hm
      exact hm.elim h.not_released hne
    · exact ⟨⟨hw, hlt, fun hm => h.not_issued (List.mem_of_mem_erase hm), h.not_released⟩,
        by simp [Except.map]⟩
  | settle index =>
    rcases s.settle_cases index with ⟨-, hr⟩ | ⟨-, hr⟩ <;>
      simp only [IndexState.apply, hr] at hw hlt ⊢
    · exact ⟨h, by simp⟩
    · exact ⟨⟨hw, hlt, fun hm => h.not_issued (List.mem_of_mem_erase hm), h.not_released⟩,
        by simp⟩

theorem Chain.retired_call {c : Chain} (h : c.current.Retired i) (q clock : Int) (k : Call) :
    (c.call q clock k).2.current.Retired i := by
  obtain ⟨t, ht⟩ := c.call_current q clock k
  have hr := (h.apply q k).1
  rw [ht]
  exact ⟨hr.toWellFormed.updatedAt t, hr.lt_next, hr.not_issued, hr.not_released⟩

theorem Chain.retired_replies {c : Chain} (h : c.current.Retired i) (ks : List (Call × Int)) :
    .ok (.index i) ∉ Chain.replies q c ks := by
  induction ks generalizing c with
  | nil => simp [replies]
  | cons k ks ih =>
    simp only [replies, List.mem_cons, not_or]
    refine ⟨?_, ih (retired_call h q k.2 k.1)⟩
    rw [call_reply]
    exact (h.apply q k.1).2.symm

theorem exists_all_ready (q : Int) (l : List Reclaimed) : ∃ now, ∀ r ∈ l, r.Ready q now := by
  induction l with
  | nil => exact ⟨0, by simp⟩
  | cons r l ih =>
    obtain ⟨now, h⟩ := ih
    refine ⟨max now (q + r.releasedAt), ?_⟩
    intro x hx
    rcases List.mem_cons.1 hx with rfl | hx
    · simp only [Reclaimed.Ready]
      omega
    · have := h x hx
      simp only [Reclaimed.Ready] at this ⊢
      omega

/-- A reclaimed index comes back: allocating often enough, late enough, hands it out. -/
theorem Chain.reissues (c : Chain) (hr : ∀ r ∈ c.current.reclaimed, r.Ready q now)
    (hi : i ∈ c.current.released) :
    ∃ n, .ok (.index i) ∈ c.replies q (List.replicate n (.allocate now, 0)) := by
  generalize hn : c.current.reclaimed = l at hr
  induction l generalizing c with
  | nil => simp [IndexState.released, hn] at hi
  | cons x l ih =>
    have ha : c.current.allocate q now = (x.index, { c.current with
        reclaimed := l
        issued := IndexState.push x.index c.current.issued }) := by
      rcases c.current.allocate_cases q now with ⟨r, l₁, l₂, he, hl, -, ha⟩ | ⟨hno, -⟩
      · cases l₁ with
        | nil =>
          rw [hn] at he
          cases he
          exact ha
        | cons y l₁ =>
          rw [hn] at he
          cases he
          exact absurd (hr x List.mem_cons_self) (hl x List.mem_cons_self)
      · exact absurd (hr x List.mem_cons_self) (hno x (by simp [hn]))
    by_cases hx : x.index = i
    · refine ⟨1, ?_⟩
      simp [replies, IndexState.apply, ha, hx]
    · have hl : (c.call q 0 (.allocate now)).2.current.reclaimed = l := by
        simp [IndexState.apply, ha]
      have hi' : i ∈ (c.call q 0 (.allocate now)).2.current.released := by
        simp only [IndexState.released, hn, List.map_cons, List.mem_cons] at hi
        rw [IndexState.released, hl]
        exact hi.resolve_left fun e => hx e.symm
      obtain ⟨n, h⟩ := ih _ hi' hl fun r hr' => hr r (List.mem_cons_of_mem _ hr')
      refine ⟨n + 1, ?_⟩
      simp only [List.replicate_succ, replies, List.mem_cons]
      exact .inr h

/-- Retiring a paid index lasts exactly when the index is not waiting to be handed out again
at the time `settle` is called. -/
theorem settle_final_iff (c : Chain) (hc : c.current.WellFormed) (before : List (Call × Int))
    (hi : .ok (.index i) ∈ c.replies q before) (clock : Int) :
    (∀ after, .ok (.index i) ∉
        ((c.calls q before).call q clock (.settle i)).2.replies q after) ↔
      i ∉ (c.calls q before).current.released := by
  have hw := Chain.calls_wellFormed (q := q) hc before
  have hlt := Chain.allocated_lt_next hc hi
  generalize c.calls q before = d at hw hlt
  constructor
  · intro h hr
    have hni : i ∉ d.current.issued := fun hm => hw.disjoint i hm hr
    have hs : d.current.settle i = (false, d.current) := by simp [IndexState.settle, hni]
    obtain ⟨now, hready⟩ := exists_all_ready q d.current.reclaimed
    obtain ⟨n, hn⟩ := Chain.reissues (d.call q clock (.settle i)).2
      (by simpa [IndexState.apply, hs] using hready) (by simpa [IndexState.apply, hs] using hr)
    exact h _ hn
  · intro hr
    apply Chain.retired_replies
    refine ⟨Chain.call_wellFormed hw q clock _, ?_, ?_, ?_⟩
    · rw [Chain.call_next]
      exact Int.lt_of_lt_of_le hlt (IndexState.next_le_apply q _ _)
    · rw [Chain.call_issued]
      rcases d.current.settle_cases i with ⟨hni, hs⟩ | ⟨-, hs⟩ <;> simp only [IndexState.apply, hs]
      · exact hni
      · exact hw.issued_nodup.not_mem_erase
    · rw [Chain.call_released]
      rcases d.current.settle_cases i with ⟨-, hs⟩ | ⟨-, hs⟩ <;>
        simpa only [IndexState.apply, hs, IndexState.released] using hr

/-- Settled while still live, index 0 does not come back. -/
theorem settle_final_live :
    ¬ ∃ after, .ok (.index 0) ∈ ((({} : Chain).calls 10 [(.allocate 0, 0)]).call 10 0
      (.settle 0)).2.replies 10 after := by
  rintro ⟨after, h⟩
  exact (settle_final_iff {} IndexState.wellFormed_empty [(.allocate 0, 0)] (by decide) 0).2
    (by decide) after h

/-- The payment arrives after the invoice has expired: index 0 is allocated, released, settled,
and handed out again once its quarantine has passed. -/
theorem late_settle_reissued :
    ¬ ∀ (c : Chain) (before after : List (Call × Int)) (i q clock : Int),
      c.current.WellFormed → .ok (.index i) ∈ c.replies q before →
        .ok (.index i) ∉ ((c.calls q before).call q clock (.settle i)).2.replies q after := by
  intro h
  exact h {} [(.allocate 0, 0), (.release 0 5, 5)] [(.allocate 86400005, 86400005)] 0 86400000 6
    IndexState.wellFormed_empty (by decide) (by decide)

end Mise.Gateway
