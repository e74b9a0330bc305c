import Mise.Server.Serve

set_option autoImplicit true

namespace Mise.Server

open Js

/-- What had happened before request `i` began. -/
def before (i : Nat) : List Event → List Event
  | [] => []
  | .began j :: l => if j = i then l else before i l
  | _ :: l => before i l

/-- Request `i` has been answered. -/
def isAnswer (i : Nat) : Event → Bool
  | .answered j _ => j = i
  | _ => false

/-- A listing that is not there is written only by a submission that began after all deletions of
it had been answered. -/
def revives (s : Store) : Event → List Event → Bool
  | .put i _ purpose id _, l => (slot s id l).isSome || (purpose.submits && l.all fun
      | .cleared j k => k ≠ id || (before i l).any (isAnswer j)
      | _ => true)
  | _, _ => true

/-- The listing was submitted by a request that began in this part of the history. -/
def resubmitted (id : String) (l : List Event) : Prop :=
  ∃ i actor purpose r, purpose.submits = true ∧ .put i actor purpose id r ∈ l ∧ .began i ∈ l

/-- Once a request to delete a listing has been answered with success, the listing that it names is
not in the store when the requests that were in flight then have been answered, nor in a public list
that was built from then on, unless it has been submitted since. -/
def Gone (w : World Event) : Prop :=
  ∀ l₁ l₂ i q, w.log = l₁ ++ .answered i 200 :: l₂ → .asked i q ∈ l₂ → q.route.deletes →
    ∃ id, q.target = some id ∧
      ((∀ j, .began j ∈ l₂ → ∃ c, .answered j c ∈ w.log) → w.store.submissions.get id ≠ none →
        resubmitted id l₁) ∧
      ∀ l₃ l₄ k ids, l₁ = l₃ ++ .published k ids :: l₄ → .rebuilding k ∉ l₂ → id ∈ ids →
        resubmitted id l₄

section Facts

variable {s : Store} {id : String}

theorem before_suffix (i : Nat) (l : List Event) (h : e ∈ before i l) :
    ∃ l₁ l₂, l = l₁ ++ .began i :: l₂ ∧ e ∈ l₂ := by
  induction l with
  | nil => cases h
  | cons e' l ih =>
    cases e' with
    | began j =>
      simp only [before] at h
      split at h
      · next hj =>
        subst hj
        exact ⟨[], l, rfl, h⟩
      · obtain ⟨l₁, l₂, rfl, he⟩ := ih h
        exact ⟨_ :: l₁, l₂, rfl, he⟩
    | _ =>
      obtain ⟨l₁, l₂, rfl, he⟩ := ih h
      exact ⟨_ :: l₁, l₂, rfl, he⟩

theorem Legal.revived (h : Legal s l) (hd : .cleared i id ∈ l) (hslot : slot s id l ≠ none) :
    ∃ l₁ l₂ j b p r, l = l₁ ++ .put j b p id r :: l₂ ∧ .cleared i id ∈ l₂ ∧ slot s id l₂ = none := by
  induction h with
  | nil => cases hd
  | @cons l e h he ih =>
    have hlater (hd : .cleared i id ∈ l) (hslot : slot s id l ≠ none) :
        ∃ l₁ l₂ j b p r, e :: l = l₁ ++ .put j b p id r :: l₂ ∧ .cleared i id ∈ l₂ ∧
          slot s id l₂ = none := by
      obtain ⟨l₁, l₂, j, b, p, r, rfl, hrest⟩ := ih hd hslot
      exact ⟨e :: l₁, l₂, j, b, p, r, rfl, hrest⟩
    obtain rfl | hd' := List.mem_cons.1 hd
    · exact absurd he hslot
    · cases e with
      | put j b p k r =>
        by_cases hk : k = id
        · subst hk
          cases hl : slot s k l with
          | none => exact ⟨[], l, j, b, p, r, rfl, hd', hl⟩
          | some q => exact hlater hd' (by rw [hl]; exact Option.some_ne_none q)
        · exact hlater hd' (by simpa only [slot, Event.placed, hk, if_false] using hslot)
      | deleted j b k =>
        by_cases hk : k = id
        · simp [slot, Event.placed, hk] at hslot
        · exact hlater hd' (by simpa only [slot, Event.placed, hk, if_false] using hslot)
      | _ => exact hlater hd' hslot

theorem isAnswer_iff {e : Event} : isAnswer i e ↔ ∃ c, e = .answered i c := by
  cases e with
  | answered j c => simp [isAnswer]
  | _ => simp [isAnswer]

theorem Legal.answered_once (h : Legal s l) (hl : l = l₁ ++ .answered i c :: l₂)
    (hl' : l = l₃ ++ l₄) (hc : .answered i c' ∈ l₄) : ∃ l₅, l₁ = l₃ ++ l₅ := by
  obtain ⟨m, rfl, hm⟩ | ⟨m, rfl, hm⟩ := List.append_eq_append_iff.1 (hl.symm.trans hl')
  · cases m with
    | nil => exact ⟨[], by rw [List.append_nil, List.append_nil]⟩
    | cons e m =>
      cases hm
      have hno := (hl ▸ h).allowed c'
      exact absurd (List.mem_append_right m hc) hno
  · exact ⟨m, rfl⟩

theorem Legal.gone_slot (h : Legal s l) (hr : Always (revives s) l)
    (hl : l = l₁ ++ .answered i 200 :: l₂) (hd : .cleared i id ∈ l₂) (hslot : slot s id l ≠ none) :
    resubmitted id l₁ := by
  have hd : .cleared i id ∈ l := hl ▸ List.mem_append_right _ (List.mem_cons_of_mem _ hd)
  obtain ⟨l₃, l₄, j, b, p, r, hp, hd, hnone⟩ := h.revived hd hslot
  have hrev := always_iff.1 hr l₃ _ l₄ hp
  simp only [revives, hnone, Option.isSome_none, Bool.false_or, Bool.and_eq_true,
    List.all_eq_true] at hrev
  have hans := hrev.2 _ hd
  simp only [ne_eq, not_true_eq_false, decide_false, Bool.false_or, List.any_eq_true,
    isAnswer_iff] at hans
  obtain ⟨e, hbefore, c, rfl⟩ := hans
  obtain ⟨l₅, l₆, rfl, hc⟩ := before_suffix j l₄ hbefore
  have hsplit : l = (l₃ ++ .put j b p id r :: l₅ ++ [.began j]) ++ l₆ := by
    rw [hp]
    simp
  obtain ⟨m, rfl⟩ := h.answered_once hl hsplit hc
  exact ⟨j, b, p, r, hrev.1, by simp, by simp⟩

theorem Legal.gone_published (h : Legal s l) (hr : Always (revives s) l)
    (hl : l = (l₃ ++ .published k ids :: l₄) ++ .answered i 200 :: l₂) (hd : .cleared i id ∈ l₂)
    (hno : .rebuilding k ∉ l₂) (hid : id ∈ ids) : resubmitted id l₄ := by
  have hl : l = l₃ ++ .published k ids :: (l₄ ++ .answered i 200 :: l₂) := by
    rw [hl, List.append_assoc, List.cons_append]
  obtain ⟨l₅, l₆, hl', hk, hslot⟩ := (hl ▸ h).allowed id hid
  obtain ⟨m, rfl, hm⟩ | ⟨m, rfl, rfl⟩ := List.append_eq_append_iff.1 hl'
  · have hmem : .rebuilding k ∈ .answered i 200 :: l₂ := hm ▸ List.mem_append_right m hk
    obtain hmem | hmem := List.mem_cons.1 hmem
    · cases hmem
    · exact absurd hmem hno
  · have hl : l = (l₃ ++ .published k ids :: l₅) ++ (m ++ .answered i 200 :: l₂) := by
      simp [hl]
    obtain ⟨j, b, p, r, hp, hput, hbegan⟩ :=
      Legal.gone_slot (hl ▸ h).suffix (hl ▸ hr).suffix rfl hd hslot
    exact ⟨j, b, p, r, hp, List.mem_append_right _ hput, List.mem_append_right _ hbegan⟩

end Facts

/-- In every run in which what is not there is written only by submissions that began after its
deletions had been answered, what has been deleted stays away. -/
theorem deletion_final (s : Store) (hs : s.WellFormed) (g : Gates)
    (moves : List (Move Request Answer)) :
    let w := (Pool.run (serve g) ⟨⟨s, []⟩, []⟩ moves).shared
    Always (revives s) w.log → Tracks s w ∧ Gone w := by
  intro w hr
  have hw := served_run s hs g moves
  refine ⟨hw.toTracks, fun l₁ l₂ i q hl hq hdeletes => ?_⟩
  obtain ⟨id, htarget, hd⟩ := (hw.honest l₁ i l₂ q hl hq).cleared hdeletes
  refine ⟨id, htarget, fun _ hslot => ?_, fun l₃ l₄ k ids hpub hno hid => ?_⟩
  · exact hw.legal.gone_slot hr hl hd (hw.slots id ▸ hslot)
  · subst hpub
    exact hw.legal.gone_published hr hl hd hno hid

/-- A removal, and a submission that comes after it. -/
def removalMoves : List (Move Request Answer) :=
  [.call ⟨.remove, "maintainer", some (listingBody "http://a.onion")⟩] ++ answers 0 43 ++
  [.call ⟨.submit, "alice", some (listingBody "http://a.onion")⟩] ++ answers 1 19

theorem deletion_final_resubmitted :
    let w := (Pool.run (serve .lenient) ⟨⟨oneListing, []⟩, []⟩ removalMoves).shared
    Tracks oneListing w ∧ Gone w :=
  deletion_final oneListing oneListing_wellFormed .lenient removalMoves (by decide +kernel)

/-- An approval that waits for a PayNym while the owner deletes the listing. -/
def revivalMoves : List (Move Request Answer) :=
  [.call ⟨.approve, "maintainer", some (listingBody "http://a.onion")⟩] ++ answers 0 7 ++
  [.call ⟨.delete, "alice", some (listingBody "http://a.onion")⟩] ++ answers 1 20 ++ answers 0 40

/-- The listing is there although the `n`th last event answered its deletion, no request is in
flight and nobody has submitted a listing. -/
def revivedAfter (id : String) (n : Nat) (w : World Event) : Bool :=
  match w.log.drop n with
  | .answered i 200 :: l => (w.store.submissions.get id).isSome &&
      l.any (fun | .asked j q => j = i && q.route.deletes && q.target = some id | _ => false) &&
      w.log.all fun
        | .began j => w.log.any (isAnswer j)
        | .put _ _ purpose _ _ => !purpose.submits
        | _ => true
  | _ => false

theorem not_gone_of_revivedAfter {w : World Event} {id : String} (h : revivedAfter id n w) :
    ¬ Gone w := by
  intro hgone
  unfold revivedAfter at h
  split at h
  · next i l hdrop =>
    simp only [Bool.and_eq_true, List.any_eq_true, List.all_eq_true] at h
    obtain ⟨⟨hslot, e, he, hasked⟩, hall⟩ := h
    have hl : w.log = w.log.take n ++ .answered i 200 :: l := by rw [← hdrop, List.take_append_drop]
    have hd : ∃ q, .asked i q ∈ l ∧ q.route.deletes ∧ q.target = some id := by
      cases e with
      | asked j q =>
        simp only [Bool.and_eq_true, decide_eq_true_eq] at hasked
        obtain ⟨⟨rfl, hdeletes⟩, htarget⟩ := hasked
        exact ⟨q, he, hdeletes, htarget⟩
      | _ => cases hasked
    obtain ⟨q, hq, hdeletes, htarget⟩ := hd
    have hflight : ∀ j, .began j ∈ l → ∃ c, .answered j c ∈ w.log := by
      intro j hj
      have hans := hall _ (hl ▸ List.mem_append_right _ (List.mem_cons_of_mem _ hj))
      simp only [List.any_eq_true, isAnswer_iff] at hans
      obtain ⟨e, he, c, rfl⟩ := hans
      exact ⟨c, he⟩
    have hslot := Option.isSome_iff_ne_none.1 hslot
    obtain ⟨id', htarget', hstays, -⟩ := hgone _ l i q hl hq hdeletes
    cases htarget.symm.trans htarget'
    obtain ⟨j, b, p, r, hp, hput, -⟩ := hstays hflight hslot
    have hno := hall _ (List.mem_of_mem_take hput)
    simp only [hp, Bool.not_true, Bool.false_eq_true] at hno
  · cases h

/-- An approval brings back a listing that its owner has deleted. -/
theorem approval_revives_listing :
    ¬ ∀ s : Store, s.WellFormed → ∀ (g : Gates) (moves : List (Move Request Answer)),
      Gone (Pool.run (serve g) ⟨⟨s, []⟩, []⟩ moves).shared := by
  intro h
  refine absurd (h oneListing oneListing_wellFormed .lenient revivalMoves) ?_
  exact not_gone_of_revivedAfter (show revivedAfter "mainnet-dojo" 4 _ from by decide +kernel)

end Mise.Server
