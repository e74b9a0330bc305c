import Mathlib.Data.List.Induction
import Mathlib.Data.List.ReduceOption

set_option autoImplicit true

namespace Mise

/-- The state of `pool`: the next item, the item that each worker awaits, the results, and the first
rejection. -/
structure Workers (ε β : Type) where
  next : Nat := 0
  busy : List (Option Nat) := []
  out : List (Option β)
  failed : Option ε := none

namespace Workers

/-- `while (i < items.length) { const idx = i++; …` -/
def take (n : Nat) (s : Workers ε β) : Workers ε β × Option Nat :=
  if s.next < n then ({ s with next := s.next + 1 }, some s.next) else (s, none)

/-- The workers of `Array.from`, which each run until they wait for the first time. -/
def hire (n : Nat) : Nat → Workers ε β → Workers ε β
  | 0, s => s
  | k + 1, s =>
    let s := hire n k s
    let r := s.take n
    { r.1 with busy := s.busy ++ [r.2] }

def begun (n limit : Nat) : Workers ε β := hire n (min limit n) { out := List.replicate n none }

/-- What `fn` makes of each item. Worker `w` gets what it has waited for. -/
def resume (results : List (Except ε β)) (s : Workers ε β) (w : Nat) : Workers ε β :=
  match s.busy[w]?.join with
  | none => s
  | some idx => match results[idx]? with
    | some (.ok v) =>
      let r := { s with out := s.out.set idx (some v) }.take results.length
      { r.1 with busy := s.busy.set w r.2 }
    | some (.error e) => { s with busy := s.busy.set w none, failed := s.failed.or (some e) }
    | none => s

/-- The workers after these have got what they waited for. -/
def run (results : List (Except ε β)) (limit : Nat) (schedule : List Nat) : Workers ε β :=
  schedule.foldl (resume results) (begun results.length limit)

/-- The items that are being worked at. -/
def inFlight (s : Workers ε β) : List Nat := s.busy.reduceOption

/-- What `Promise.all` has come to. -/
def outcome (s : Workers ε β) : Option (Except ε (List (Option β))) :=
  match s.failed with
  | some e => some (.error e)
  | none => if s.inFlight = [] then some (.ok s.out) else none

example : (run [.ok 10, .ok 20, .ok 30] 2 [1, 0, 1] : Workers Unit Nat).outcome =
    some (.ok [some 10, some 20, some 30]) := by decide

section Runs

variable {results : List (Except ε β)} {s : Workers ε β} {k limit w : Nat} {schedule : List Nat}

/-- What holds between the steps of `pool` with `k` workers. -/
structure Sound (results : List (Except ε β)) (k : Nat) (s : Workers ε β) : Prop where
  width : s.busy.length = k
  length : s.out.length = results.length
  bound : s.next ≤ results.length
  once : s.inFlight.Nodup
  started : ∀ i ∈ s.inFlight, i < s.next
  settled : ∀ i < s.next, i ∉ s.inFlight → s.out[i]? = results[i]?.map Except.toOption
  missing : ∀ i, i ∈ s.inFlight ∨ s.next ≤ i → s.out[i]?.join = none
  passed : s.failed = none → ∀ i < s.next, i ∉ s.inFlight → ∃ v, results[i]? = some (.ok v)
  rejected : ∀ e, s.failed = some e → .error e ∈ results
  full : s.failed = none → s.next < results.length → none ∉ s.busy

theorem resume_cases (results : List (Except ε β)) (s : Workers ε β) (w : Nat) :
    (resume results s w = s ∧ ∀ idx, s.busy[w]?.join = some idx → results[idx]? = none) ∨
      ∃ front idx back r, s.busy = front ++ some idx :: back ∧
      front.length = w ∧ results[idx]? = some r ∧
      ((∃ v, r = .ok v ∧ s.next < results.length ∧ resume results s w =
        ⟨s.next + 1, front ++ some s.next :: back, s.out.set idx (some v), s.failed⟩) ∨
      (∃ v, r = .ok v ∧ results.length ≤ s.next ∧ resume results s w =
        ⟨s.next, front ++ none :: back, s.out.set idx (some v), s.failed⟩) ∨
      ∃ e, r = .error e ∧ resume results s w =
        ⟨s.next, front ++ none :: back, s.out, s.failed.or (some e)⟩) := by
  rw [resume]
  cases hb : s.busy[w]?.join with
  | none => exact .inl ⟨rfl, fun idx hidx => absurd hidx (Option.some_ne_none idx).symm⟩
  | some idx =>
    have hw : s.busy[w]? = some (some idx) := Option.join_eq_some_iff.1 hb
    obtain ⟨hlt, hget⟩ := List.getElem?_eq_some_iff.1 hw
    cases hr : results[idx]? with
    | none =>
      refine .inl ⟨by simp only [hr], fun i hi => ?_⟩
      cases hi
      exact hr
    | some r =>
      obtain ⟨front, back, hbusy, hfront, -⟩ := @List.exists_of_set _ w none s.busy hlt
      rw [hget] at hbusy
      have hplace (x : Option Nat) : s.busy.set w x = front ++ x :: back := by
        rw [hbusy, List.set_append_right _ _ (Nat.le_of_eq hfront), hfront, Nat.sub_self]
        rfl
      refine .inr ⟨front, idx, back, r, hbusy, hfront, hr, ?_⟩
      cases r with
      | error e =>
        refine .inr (.inr ⟨e, rfl, ?_⟩)
        simp only [hr, hplace]
      | ok v =>
        by_cases hnext : s.next < results.length
        · refine .inl ⟨v, rfl, hnext, ?_⟩
          simp only [hr, take, if_pos hnext, hplace]
        · refine .inr (.inl ⟨v, rfl, Nat.le_of_not_lt hnext, ?_⟩)
          simp only [hr, take, if_neg hnext, hplace]

theorem Sound.others (h : Sound results k s) (hbusy : s.busy = front ++ some idx :: back) :
    idx ∈ s.inFlight ∧ (front.reduceOption ++ back.reduceOption).Nodup ∧
      (∀ i ∈ front.reduceOption ++ back.reduceOption, i ∈ s.inFlight ∧ i ≠ idx) ∧
      ∀ i ∉ front.reduceOption ++ back.reduceOption, i = idx ∨ i ∉ s.inFlight := by
  have hflight : s.inFlight = front.reduceOption ++ idx :: back.reduceOption := by
    rw [inFlight, hbusy, List.reduceOption_append, List.reduceOption_cons_of_some]
  have hmem (i : Nat) : i ∈ s.inFlight ↔ i = idx ∨ i ∈ front.reduceOption ++ back.reduceOption := by
    rw [hflight, List.perm_middle.mem_iff, List.mem_cons]
  have honce := h.once
  rw [hflight, List.perm_middle.nodup_iff, List.nodup_cons] at honce
  refine ⟨(hmem idx).2 (.inl rfl), honce.2, ?_, ?_⟩
  · intro i hi
    refine ⟨(hmem i).2 (.inr hi), ?_⟩
    rintro rfl
    exact honce.1 hi
  · intro i hi
    by_cases hidx : i = idx
    · exact .inl hidx
    · exact .inr fun hflying => ((hmem i).1 hflying).elim hidx hi

theorem Sound.settle (h : Sound results k s) (hbusy : s.busy = front ++ some idx :: back)
    (hr : results[idx]? = some r) {s' : Workers ε β} (hwidth : s'.busy.length = k)
    (hbound : s'.next ≤ results.length) (honce : s'.inFlight.Nodup) (hnext : s.next ≤ s'.next)
    (hmem : ∀ i, i ∈ s'.inFlight ↔
      (s.next ≤ i ∧ i < s'.next) ∨ i ∈ front.reduceOption ++ back.reduceOption)
    (hlength : s'.out.length = results.length)
    (hout : ∀ i, s'.out[i]? = if i = idx then some r.toOption else s.out[i]?)
    (hpassed : s'.failed = none → s.failed = none ∧ ∃ v, r = .ok v)
    (hrejected : ∀ e, s'.failed = some e → .error e ∈ results)
    (hfull : s'.failed = none → s'.next < results.length → none ∉ s'.busy) : Sound results k s' := by
  obtain ⟨hflying, -, hothers, hsettled⟩ := h.others hbusy
  have hidx := h.started idx hflying
  have hrest : ∀ i < s'.next, i ∉ s'.inFlight → i < s.next ∧ (i = idx ∨ i ∉ s.inFlight) := by
    intro i hi hnot
    rw [hmem, not_or] at hnot
    have hlt : i < s.next := by omega
    exact ⟨hlt, hsettled i hnot.2⟩
  constructor
  · exact hwidth
  · exact hlength
  · exact hbound
  · exact honce
  · intro i hi
    rcases (hmem i).1 hi with hi | hi
    · exact hi.2
    · exact Nat.lt_of_lt_of_le (h.started i (hothers i hi).1) hnext
  · intro i hi hnot
    rw [hout]
    rcases hrest i hi hnot with ⟨hlt, rfl | hflying⟩
    · rw [if_pos rfl, hr]
      rfl
    · split
      · next heq =>
        rw [heq, hr]
        rfl
      · exact h.settled i hlt hflying
  · intro i hi
    have hold : i ≠ idx ∧ (i ∈ s.inFlight ∨ s.next ≤ i) := by
      rcases hi with hi | hi
      · rcases (hmem i).1 hi with hi | hi
        · exact ⟨by omega, .inr hi.1⟩
        · exact ⟨(hothers i hi).2, .inl (hothers i hi).1⟩
      · exact ⟨by omega, .inr (Nat.le_trans hnext hi)⟩
    rw [hout, if_neg hold.1]
    exact h.missing i hold.2
  · intro hnone i hi hnot
    obtain ⟨hfailed, v, rfl⟩ := hpassed hnone
    rcases hrest i hi hnot with ⟨hlt, rfl | hflying⟩
    · exact ⟨v, hr⟩
    · exact h.passed hfailed i hlt hflying
  · exact hrejected
  · exact hfull

theorem Sound.stop (h : Sound results k s) (hbusy : s.busy = front ++ some idx :: back)
    (hr : results[idx]? = some r) {out : List (Option β)} {failed : Option ε}
    (hlength : out.length = results.length)
    (hout : ∀ i, out[i]? = if i = idx then some r.toOption else s.out[i]?)
    (hpassed : failed = none → s.failed = none ∧ (∃ v, r = .ok v) ∧ results.length ≤ s.next)
    (hrejected : ∀ e, failed = some e → .error e ∈ results) :
    Sound results k ⟨s.next, front ++ none :: back, out, failed⟩ := by
  obtain ⟨-, hnodup, -, -⟩ := h.others hbusy
  have hflight : (⟨s.next, front ++ none :: back, out, failed⟩ : Workers ε β).inFlight =
      front.reduceOption ++ back.reduceOption := by
    rw [inFlight, List.reduceOption_append, List.reduceOption_cons_of_none]
  apply h.settle hbusy hr
  · have hwidth := h.width
    rw [hbusy, List.length_append, List.length_cons] at hwidth
    rw [List.length_append, List.length_cons]
    exact hwidth
  · exact h.bound
  · rw [hflight]
    exact hnodup
  · exact Nat.le_refl _
  · intro i
    rw [hflight]
    constructor
    · exact .inr
    · rintro (⟨hle, hlt⟩ | hi)
      · exact absurd hlt (Nat.not_lt.2 hle)
      · exact hi
  · exact hlength
  · exact hout
  · exact fun hnone => ⟨(hpassed hnone).1, (hpassed hnone).2.1⟩
  · exact hrejected
  · intro hnone hlt
    exact absurd hlt (Nat.not_lt.2 (hpassed hnone).2.2)

theorem getElem?_settled {out : List (Option β)} (h : idx < out.length) (i : Nat) :
    (out.set idx x)[i]? = if i = idx then some x else out[i]? := by
  split
  · next heq =>
    rw [heq, List.getElem?_set_self h]
  · next hne => rw [List.getElem?_set_ne (Ne.symm hne)]

theorem Sound.resume (h : Sound results k s) (w : Nat) : Sound results k (s.resume results w) := by
  rcases resume_cases results s w with ⟨hs, -⟩ | ⟨front, idx, back, r, hbusy, -, hr, hs⟩
  · rw [hs]
    exact h
  · obtain ⟨hflying, hnodup, hothers, -⟩ := h.others hbusy
    have hwidth := h.width
    rw [hbusy, List.length_append, List.length_cons] at hwidth
    have hout : idx < s.out.length := by
      rw [h.length]
      exact (List.getElem?_eq_some_iff.1 hr).1
    have hfresh : s.next ∉ front.reduceOption ++ back.reduceOption :=
      fun hm => Nat.lt_irrefl _ (h.started _ (hothers _ hm).1)
    rcases hs with ⟨v, rfl, hnext, hs⟩ | ⟨v, rfl, hnext, hs⟩ | ⟨e, rfl, hs⟩
    · have hflight : (s.resume results w).inFlight =
          front.reduceOption ++ s.next :: back.reduceOption := by
        rw [hs, inFlight, List.reduceOption_append, List.reduceOption_cons_of_some]
      apply h.settle hbusy hr
      · rw [hs, List.length_append, List.length_cons]
        exact hwidth
      · rw [hs]
        exact hnext
      · rw [hflight, List.perm_middle.nodup_iff, List.nodup_cons]
        exact ⟨hfresh, hnodup⟩
      · rw [hs]
        exact Nat.le_succ _
      · intro i
        rw [hflight, List.perm_middle.mem_iff, List.mem_cons, hs]
        apply or_congr_left
        dsimp only
        omega
      · rw [hs, List.length_set]
        exact h.length
      · intro i
        rw [hs]
        exact getElem?_settled hout i
      · intro hnone
        rw [hs] at hnone
        exact ⟨hnone, v, rfl⟩
      · intro e he
        rw [hs] at he
        exact h.rejected e he
      · intro hnone _ hm
        rw [hs] at hnone hm
        have hfull := h.full hnone hnext
        rw [hbusy] at hfull
        simp only [List.mem_append, List.mem_cons] at hm hfull
        grind
    · rw [hs]
      apply h.stop hbusy hr
      · rw [List.length_set]
        exact h.length
      · exact getElem?_settled hout
      · exact fun hnone => ⟨hnone, ⟨v, rfl⟩, hnext⟩
      · exact h.rejected
    · rw [hs]
      apply h.stop hbusy hr
      · exact h.length
      · intro i
        split
        · next heq =>
          rw [heq, List.getElem?_eq_getElem hout]
          have hmissing := h.missing idx (.inl hflying)
          rw [List.getElem?_eq_getElem hout] at hmissing
          exact congrArg some hmissing
        · rfl
      · intro hnone
        cases hfailed : s.failed with
        | none =>
          rw [hfailed] at hnone
          cases hnone
        | some e =>
          rw [hfailed] at hnone
          cases hnone
      · intro e' he
        cases hfailed : s.failed with
        | none =>
          rw [hfailed] at he
          cases he
          exact List.mem_of_getElem? hr
        | some e =>
          rw [hfailed] at he
          cases he
          exact h.rejected _ hfailed

theorem hire_sound (results : List (Except ε β)) (k : Nat) (hk : k ≤ results.length) :
    hire results.length k { out := List.replicate results.length none } =
      (⟨k, (List.range k).map some, List.replicate results.length none, none⟩ : Workers ε β) := by
  induction k with
  | zero => rfl
  | succ k ih =>
    have hlt : k < results.length := hk
    simp only [hire, ih (Nat.le_of_succ_le hk), take, hlt, if_true, List.range_succ, List.map_append]
    rfl

theorem begun_sound (results : List (Except ε β)) (limit : Nat) :
    Sound results (min limit results.length) (begun results.length limit) := by
  have hle : min limit results.length ≤ results.length := Nat.min_le_right _ _
  rw [begun, hire_sound results _ hle]
  have hflight : (⟨min limit results.length, (List.range (min limit results.length)).map some,
      List.replicate results.length none, none⟩ : Workers ε β).inFlight =
        List.range (min limit results.length) := by
    rw [inFlight, List.reduceOption, List.filterMap_map]
    exact List.filterMap_some
  constructor
  · rw [List.length_map, List.length_range]
  · exact List.length_replicate
  · exact hle
  · rw [hflight]
    exact List.nodup_range
  · intro i hi
    rw [hflight] at hi
    exact List.mem_range.1 hi
  · intro i hi hnot
    rw [hflight] at hnot
    exact absurd (List.mem_range.2 hi) hnot
  · intro i _
    rw [List.getElem?_replicate]
    split <;> rfl
  · intro _ i hi hnot
    rw [hflight] at hnot
    exact absurd (List.mem_range.2 hi) hnot
  · intro e he
    cases he
  · intro _ _ hm
    obtain ⟨i, -, hi⟩ := List.mem_map.1 hm
    cases hi

theorem run_sound (results : List (Except ε β)) (limit : Nat) (schedule : List Nat) :
    Sound results (min limit results.length) (run results limit schedule) := by
  induction schedule using List.reverseRecOn with
  | nil => exact begun_sound results limit
  | append_singleton schedule w ih =>
    rw [run, List.foldl_append]
    exact ih.resume w

theorem Sound.count (h : Sound results k s) (hw : s.busy[w]?.join ≠ none) :
    (s.resume results w).next + s.inFlight.length = s.next + (s.resume results w).inFlight.length + 1 := by
  rcases resume_cases results s w with ⟨-, hs⟩ | ⟨front, idx, back, r, hbusy, -, hr, hs⟩
  · obtain ⟨idx, hidx⟩ := Option.ne_none_iff_exists'.1 hw
    have hmem : idx ∈ s.inFlight := by
      rw [inFlight, List.reduceOption_mem_iff]
      exact List.mem_of_getElem? (Option.join_eq_some_iff.1 hidx)
    have hlt := h.started idx hmem
    have hle := h.bound
    have hnone := List.getElem?_eq_none_iff.1 (hs idx hidx)
    omega
  · rcases hs with ⟨v, rfl, -, hs⟩ | ⟨v, rfl, -, hs⟩ | ⟨e, rfl, hs⟩
    all_goals
      rw [hs]
      simp only [inFlight, hbusy, List.reduceOption_append, List.reduceOption_cons_of_some,
        List.reduceOption_cons_of_none, List.length_append, List.length_cons]
      omega

/-- Each worker waits when it gets an answer. -/
def Legal (results : List (Except ε β)) (limit : Nat) (schedule : List Nat) : Prop :=
  ∀ earlier w later, schedule = earlier ++ w :: later → (run results limit earlier).busy[w]?.join ≠ none

theorem Legal.nil : Legal results limit [] :=
  fun _ w later hs => absurd hs.symm (List.append_ne_nil_of_right_ne_nil _ (List.cons_ne_nil w later))

theorem Legal.init (h : Legal results limit (schedule ++ [w])) : Legal results limit schedule ∧
    (run results limit schedule).busy[w]?.join ≠ none := by
  constructor
  · intro earlier v later hs
    exact h earlier v (later ++ [w]) (by rw [hs, List.append_assoc, List.cons_append])
  · exact h schedule w [] rfl

theorem Legal.concat (h : Legal results limit schedule)
    (hw : (run results limit schedule).busy[w]?.join ≠ none) : Legal results limit (schedule ++ [w]) := by
  intro earlier v later hs
  rcases List.eq_nil_or_concat later with rfl | ⟨later, u, rfl⟩
  · obtain ⟨rfl, hlast⟩ := List.append_inj' hs rfl
    cases hlast
    exact hw
  · rw [List.concat_eq_append, ← List.cons_append, ← List.append_assoc] at hs
    exact h earlier v later (List.append_inj' hs rfl).1

theorem Legal.count (h : Legal results limit schedule) :
    schedule.length + (run results limit schedule).inFlight.length = (run results limit schedule).next := by
  induction schedule using List.reverseRecOn with
  | nil =>
    rw [run, List.foldl_nil, begun, hire_sound results _ (Nat.min_le_right _ _), inFlight, List.reduceOption,
      List.filterMap_map]
    have hall : List.filterMap (id ∘ some) (List.range (min limit results.length)) =
        List.range (min limit results.length) := List.filterMap_some
    rw [hall, List.length_range, List.length_nil, Nat.zero_add]
  | append_singleton schedule w ih =>
    obtain ⟨hinit, hw⟩ := h.init
    have hcount := (run_sound results limit schedule).count hw
    have ih := ih hinit
    rw [run, List.foldl_append, List.length_append, List.length_singleton]
    change _ + ((run results limit schedule).resume results w).inFlight.length =
      ((run results limit schedule).resume results w).next
    omega

/-- While nothing has failed, as many items are worked at as the limit lets, or as are left. -/
theorem Legal.busy (h : Legal results limit schedule)
    (hnone : (run results limit schedule).failed = none) :
    (run results limit schedule).inFlight.length = min limit (results.length - schedule.length) := by
  have hs := run_sound results limit schedule
  have hcount := h.count
  have hbound := hs.bound
  by_cases hnext : (run results limit schedule).next < results.length
  · have hfull : (run results limit schedule).inFlight.length =
        (run results limit schedule).busy.length := by
      have hall : (run results limit schedule).busy.filter Option.isNone = [] := by
        rw [List.filter_eq_nil_iff]
        intro x hx hempty
        rw [Option.isNone_iff_eq_none] at hempty
        exact hs.full hnone hnext (hempty ▸ hx)
      rw [List.length_eq_reduceOption_length_add_filter_none, hall]
      rfl
    have hwidth := hs.width
    omega
  · have hle := Nat.le_trans (List.reduceOption_length_le (run results limit schedule).busy) (Nat.le_of_eq hs.width)
    rw [← inFlight] at hle
    omega

/-- What `pool` resolves with. -/
theorem Sound.resolved (h : Sound results k s) (hnone : s.failed = none) (hidle : s.inFlight = [])
    (hnext : s.next = results.length) :
    ∃ values : List β, results = values.map .ok ∧ s.out = values.map some := by
  have hok : ∀ r ∈ results, ∃ v, r = .ok v := by
    intro r hr
    obtain ⟨i, hlt, rfl⟩ := List.mem_iff_getElem.1 hr
    obtain ⟨v, hv⟩ := h.passed hnone i (hnext ▸ hlt) (by rw [hidle]; exact List.not_mem_nil)
    rw [List.getElem?_eq_getElem hlt] at hv
    exact ⟨v, Option.some.inj hv⟩
  have hout : s.out = results.map Except.toOption := by
    apply List.ext_getElem?
    intro i
    rw [List.getElem?_map]
    by_cases hlt : i < s.next
    · exact h.settled i hlt (by rw [hidle]; exact List.not_mem_nil)
    · have hle : results.length ≤ i := by omega
      rw [List.getElem?_eq_none hle, List.getElem?_eq_none (Nat.le_trans (Nat.le_of_eq h.length) hle)]
      rfl
  rw [hout]
  clear hout h hnext
  induction results with
  | nil => exact ⟨[], rfl, rfl⟩
  | cons r results ih =>
    obtain ⟨v, rfl⟩ := hok r List.mem_cons_self
    obtain ⟨values, rfl, hvalues⟩ := ih fun r hr => hok r (List.mem_cons_of_mem _ hr)
    refine ⟨v :: values, rfl, ?_⟩
    rw [List.map_cons, hvalues]
    rfl

/-- In every order in which the items are settled, no more are worked at than the limit lets, all
workers are busy while items are left and nothing has failed, and the promise is settled once no worker
waits: with what each item has come to, in the order of the items, or with the error of one. -/
theorem pool_settles (results : List (Except ε β)) (hlimit : 0 < limit)
    (h : Legal results limit schedule) :
    (run results limit schedule).inFlight.Nodup ∧ schedule.length ≤ results.length ∧
    ((run results limit schedule).failed = none →
      (run results limit schedule).inFlight.length = min limit (results.length - schedule.length)) ∧
    (((run results limit schedule).outcome = none ∧ ∃ w, Legal results limit (schedule ++ [w])) ∨
      (∃ values : List β, results = values.map .ok ∧ schedule.length = results.length ∧
        (run results limit schedule).outcome = some (.ok (values.map some))) ∨
      ∃ e, .error e ∈ results ∧ (run results limit schedule).outcome = some (.error e)) := by
  have hs := run_sound results limit schedule
  have hcount := h.count
  have hbound := hs.bound
  refine ⟨hs.once, by omega, h.busy, ?_⟩
  cases hfailed : (run results limit schedule).failed with
  | some e =>
    refine .inr (.inr ⟨e, hs.rejected e hfailed, ?_⟩)
    rw [outcome, hfailed]
  | none =>
    have hbusy := h.busy hfailed
    cases hflight : (run results limit schedule).inFlight with
    | nil =>
      rw [hflight, List.length_nil] at hbusy hcount
      have hdone : schedule.length = results.length := by omega
      obtain ⟨values, hvalues, hout⟩ := hs.resolved hfailed hflight (by omega)
      refine .inr (.inl ⟨values, hvalues, hdone, ?_⟩)
      rw [outcome, hfailed, hflight, if_pos rfl, hout]
    | cons idx others =>
      refine .inl ⟨?_, ?_⟩
      · rw [outcome, hfailed, hflight, if_neg (List.cons_ne_nil _ _)]
      · have hmem : some idx ∈ (run results limit schedule).busy := by
          rw [← List.reduceOption_mem_iff, ← inFlight, hflight]
          exact List.mem_cons_self
        obtain ⟨w, hw⟩ := List.mem_iff_getElem?.1 hmem
        refine ⟨w, h.concat ?_⟩
        rw [hw]
        exact Option.some_ne_none idx

end Runs

end Workers

end Mise
