import Mathlib.Data.List.Nodup

set_option autoImplicit true

namespace Mise.Gateway

/-- An index that was issued and then released, with when it was released (`at`). -/
structure Reclaimed where
  index : Int
  releasedAt : Int
  deriving DecidableEq

/-- The state of one chain. `reclaimed` is in the order of release, and a date is the instant
it denotes, in milliseconds. -/
structure IndexState where
  next : Int := 0
  reclaimed : List Reclaimed := []
  issued : List Int := []
  updatedAt : Option Int := none
  deriving DecidableEq

/-- The instants a `Date` can hold: `toISOString` throws a `RangeError` on every other number,
and so on `NaN` and the infinities. -/
def IsDate (t : Int) : Prop := -8640000000000000 ≤ t ∧ t ≤ 8640000000000000

instance (t : Int) : Decidable (IsDate t) := inferInstanceAs (Decidable (_ ∧ _))

/-- What a call of the store can reject with. -/
inductive Fault where
  | rangeError
  | io
  deriving DecidableEq

namespace IndexState

def empty : IndexState := {}

/-- The indices awaiting the end of their quarantine. -/
def released (s : IndexState) : List Int := s.reclaimed.map Reclaimed.index

end IndexState

/-- `r` has rested for the quarantine `q` (`RECLAIM_QUARANTINE_MS`) at `now`. -/
def Reclaimed.Ready (q now : Int) (r : Reclaimed) : Prop := q ≤ now - r.releasedAt

instance (q now : Int) (r : Reclaimed) : Decidable (r.Ready q now) :=
  inferInstanceAs (Decidable (_ ≤ _))

namespace IndexState

def push (i : Int) (l : List Int) : List Int := if i ∈ l then l else l ++ [i]

/-- The part of `allocate` between its two awaits. -/
def allocate (q now : Int) (s : IndexState) : Int × IndexState :=
  match s.reclaimed.find? (fun r => decide (r.Ready q now)) with
  | some r =>
    (r.index, { s with
      reclaimed := s.reclaimed.eraseP fun r => decide (r.Ready q now)
      issued := push r.index s.issued })
  | none => (s.next, { s with next := s.next + 1, issued := push s.next s.issued })

/-- The part of `release` between its two awaits. The index leaves `issued` before the date
is written, which throws on a time no `Date` can hold. -/
def release (index now : Int) (s : IndexState) : Except Fault Bool × IndexState :=
  if index ∈ s.issued then
    let s' := { s with issued := s.issued.erase index }
    if index ∈ s.released then (.ok true, s')
    else if IsDate now then (.ok true, { s' with reclaimed := s.reclaimed ++ [⟨index, now⟩] })
    else (.error .rangeError, s')
  else (.ok false, s)

/-- The part of `settle` between its two awaits. -/
def settle (index : Int) (s : IndexState) : Bool × IndexState :=
  if index ∈ s.issued then (true, { s with issued := s.issued.erase index }) else (false, s)

@[simp] theorem mem_push : j ∈ push i l ↔ j ∈ l ∨ j = i := by
  unfold push
  split
  · next h =>
    constructor
    · exact .inl
    · rintro (h' | rfl)
      · exact h'
      · exact h
  · simp

theorem nodup_push (h : l.Nodup) : (push i l).Nodup := by
  unfold push
  split
  · exact h
  · next hi => exact List.Nodup.append h (List.nodup_singleton i) (by simpa using hi)

/-- `allocate` hands out the first index that has finished its quarantine, or a fresh one. -/
theorem allocate_cases (q now : Int) (s : IndexState) :
    (∃ r l₁ l₂, s.reclaimed = l₁ ++ r :: l₂ ∧ (∀ x ∈ l₁, ¬ x.Ready q now) ∧ r.Ready q now ∧
      s.allocate q now =
        (r.index, { s with reclaimed := l₁ ++ l₂, issued := push r.index s.issued })) ∨
    ((∀ x ∈ s.reclaimed, ¬ x.Ready q now) ∧
      s.allocate q now =
        (s.next, { s with next := s.next + 1, issued := push s.next s.issued })) := by
  unfold allocate
  cases hf : s.reclaimed.find? (fun r => decide (r.Ready q now)) with
  | none => exact .inr ⟨fun x hx => by simpa using List.find?_eq_none.1 hf x hx, rfl⟩
  | some r =>
    obtain ⟨hr, l₁, l₂, he, hl⟩ := List.find?_eq_some_iff_append.1 hf
    have hl' : ∀ x ∈ l₁, ¬ x.Ready q now := fun x hx => by simpa using hl x hx
    refine .inl ⟨r, l₁, l₂, he, hl', by simpa using hr, ?_⟩
    rw [he, List.eraseP_append_right _ (by simpa using hl'), List.eraseP_cons, hr]
    rfl

theorem release_cases (index now : Int) (s : IndexState) :
    (index ∉ s.issued ∧ s.release index now = (.ok false, s)) ∨
    (index ∈ s.issued ∧ index ∈ s.released ∧
      s.release index now = (.ok true, { s with issued := s.issued.erase index })) ∨
    (index ∈ s.issued ∧ index ∉ s.released ∧ IsDate now ∧
      s.release index now = (.ok true, { s with
        issued := s.issued.erase index
        reclaimed := s.reclaimed ++ [⟨index, now⟩] })) ∨
    (index ∈ s.issued ∧ index ∉ s.released ∧ ¬ IsDate now ∧
      s.release index now =
        (.error .rangeError, { s with issued := s.issued.erase index })) := by
  unfold release
  by_cases hi : index ∈ s.issued
  · by_cases hr : index ∈ s.released
    · exact .inr (.inl ⟨hi, hr, by simp [hi, hr]⟩)
    · by_cases hd : IsDate now
      · exact .inr (.inr (.inl ⟨hi, hr, hd, by simp [hi, hr, hd]⟩))
      · exact .inr (.inr (.inr ⟨hi, hr, hd, by simp [hi, hr, hd]⟩))
  · exact .inl ⟨hi, by simp [hi]⟩

theorem settle_cases (index : Int) (s : IndexState) :
    (index ∉ s.issued ∧ s.settle index = (false, s)) ∨
    (index ∈ s.issued ∧
      s.settle index = (true, { s with issued := s.issued.erase index })) := by
  unfold settle
  by_cases hi : index ∈ s.issued
  · exact .inr ⟨hi, by simp [hi]⟩
  · exact .inl ⟨hi, by simp [hi]⟩

/-- No index is in two places at once, and every one of them has been handed out. -/
structure WellFormed (s : IndexState) : Prop where
  issued_nodup : s.issued.Nodup
  released_nodup : s.released.Nodup
  disjoint : ∀ i ∈ s.issued, i ∉ s.released
  issued_lt : ∀ i ∈ s.issued, i < s.next
  released_lt : ∀ i ∈ s.released, i < s.next

theorem wellFormed_empty : WellFormed empty := by
  constructor <;> simp [empty, released]

theorem WellFormed.reclaimed_split (h : WellFormed s) (he : s.reclaimed = l₁ ++ r :: l₂) :
    r.index ∉ s.issued ∧ r.index < s.next ∧
      r.index ∉ l₁.map Reclaimed.index ∧ r.index ∉ l₂.map Reclaimed.index := by
  have hr : r.index ∈ s.released := by simp [released, he]
  have hn := h.released_nodup
  simp only [released, he, List.map_append, List.map_cons, List.nodup_append,
    List.nodup_cons] at hn
  refine ⟨fun hi => h.disjoint _ hi hr, h.released_lt _ hr, fun h₁ => ?_, hn.2.1.1⟩
  exact hn.2.2 _ h₁ _ List.mem_cons_self rfl

theorem WellFormed.next_fresh (h : WellFormed s) : s.next ∉ s.issued ∧ s.next ∉ s.released :=
  ⟨fun hi => Int.lt_irrefl _ (h.issued_lt _ hi), fun hr => Int.lt_irrefl _ (h.released_lt _ hr)⟩

theorem WellFormed.erase (h : WellFormed s) :
    WellFormed { s with issued := s.issued.erase i } where
  issued_nodup := h.issued_nodup.erase i
  released_nodup := h.released_nodup
  disjoint j hj := h.disjoint j (List.mem_of_mem_erase hj)
  issued_lt j hj := h.issued_lt j (List.mem_of_mem_erase hj)
  released_lt := h.released_lt

theorem WellFormed.updatedAt (h : WellFormed s) (t : Option Int) :
    WellFormed { s with updatedAt := t } :=
  ⟨h.issued_nodup, h.released_nodup, h.disjoint, h.issued_lt, h.released_lt⟩

theorem WellFormed.allocate (h : WellFormed s) (q now : Int) :
    WellFormed (s.allocate q now).2 := by
  rcases s.allocate_cases q now with ⟨r, l₁, l₂, he, -, -, ha⟩ | ⟨-, ha⟩
  · obtain ⟨hi, hlt, h₁, h₂⟩ := h.reclaimed_split he
    have hsub : ∀ i, i ∈ (l₁ ++ l₂).map Reclaimed.index → i ∈ s.released := by
      intro i hi
      simp only [released, he, List.map_append, List.map_cons, List.mem_append,
        List.mem_cons] at hi ⊢
      tauto
    rw [ha]
    constructor
    · exact nodup_push h.issued_nodup
    · have hn := h.released_nodup
      rw [released, he] at hn
      exact hn.sublist (((List.sublist_cons_self r l₂).append_left l₁).map _)
    · intro i hi'
      rcases mem_push.1 hi' with hi' | rfl
      · exact fun hr => h.disjoint i hi' (hsub i hr)
      · simp only [released, List.map_append, List.mem_append]
        tauto
    · intro i hi'
      rcases mem_push.1 hi' with hi' | rfl
      · exact h.issued_lt i hi'
      · exact hlt
    · exact fun i hi' => h.released_lt i (hsub i hi')
  · rw [ha]
    constructor
    · exact nodup_push h.issued_nodup
    · exact h.released_nodup
    · intro i hi
      rcases mem_push.1 hi with hi | rfl
      · exact h.disjoint i hi
      · exact h.next_fresh.2
    · intro i hi
      change i < s.next + 1
      rcases mem_push.1 hi with hi | rfl
      · have := h.issued_lt i hi
        omega
      · omega
    · intro i hi
      have := h.released_lt i hi
      change i < s.next + 1
      omega

theorem WellFormed.release (h : WellFormed s) (index now : Int) :
    WellFormed (s.release index now).2 := by
  rcases s.release_cases index now with ⟨-, hr⟩ | ⟨-, -, hr⟩ | ⟨hi, hn, -, hr⟩ | ⟨-, -, -, hr⟩ <;>
    rw [hr]
  · exact h
  · exact h.erase
  · have hmem : ∀ i, i ∈ (s.reclaimed ++ [Reclaimed.mk index now]).map Reclaimed.index ↔
        i ∈ s.released ∨ i = index := by simp [released]
    constructor
    · exact h.issued_nodup.erase index
    · change ((s.reclaimed ++ [Reclaimed.mk index now]).map Reclaimed.index).Nodup
      rw [List.map_append]
      exact h.released_nodup.append (List.nodup_singleton _) (by simpa using hn)
    · intro i hi' hr'
      rcases (hmem i).1 hr' with hr' | rfl
      · exact h.disjoint i (List.mem_of_mem_erase hi') hr'
      · exact h.issued_nodup.not_mem_erase hi'
    · exact fun i hi' => h.issued_lt i (List.mem_of_mem_erase hi')
    · intro i hr'
      rcases (hmem i).1 hr' with hr' | rfl
      · exact h.released_lt i hr'
      · exact h.issued_lt i hi
  · exact h.erase

theorem WellFormed.settle (h : WellFormed s) (index : Int) : WellFormed (s.settle index).2 := by
  rcases s.settle_cases index with ⟨-, hr⟩ | ⟨-, hr⟩ <;> rw [hr]
  · exact h
  · exact h.erase

end IndexState

end Mise.Gateway
