import Mise.Server.Serve

set_option autoImplicit true

namespace Mise.Server

open Js

/-- A change that keeps the pairing details finds under the id nothing, or the very object it
stores. -/
def inPlace (s : Store) : Event → List Event → Bool
  | .put _ _ .keep id r, l => (slot s id l).all (· = r)
  | _, _ => true

/-- A later request has given the object `r` pairing details. -/
def Repaired (i r : Nat) (l : List Event) : Prop := ∃ e ∈ l, ∃ j ≠ i, e.detailed = some (j, r)

/-- A later request has stored the listing with pairing details of its own. -/
def Restored (i : Nat) (id : String) (l : List Event) : Prop :=
  ∃ j a p r, .put j a p id r ∈ l ∧ j ≠ i ∧ p ≠ .keep

/-- Request `i` made the object `r` the record `rec` and then stored it; `later` is what has happened
since it stored it, and `since` what has happened since it made it what it is. -/
structure Laid (i r : Nat) (rec : StoreRecord) (later since l : List Event) : Prop where
  stored : ∃ actor purpose l', l = later ++ .put i actor purpose rec.id r :: l' ∧ purpose ≠ .keep
  written : ∃ e l', l = since ++ e :: l' ∧ e.detailed = some (i, r) ∧ e.written = some (r, rec)

/-- Once a submission or a change of the pairing details has been answered with success, it has
stored the listing that it names with the details that it posts, and they are those of the listing
in the store until another request writes newer ones or the listing is deleted. -/
def Kept (g : Gates) (w : World Event) : Prop :=
  ∀ l₁ l₂ i q, w.log = l₁ ++ .answered i 200 :: l₂ → .asked i q ∈ l₂ → q.route.posts →
    ∃ posted r later since, q.Posts g posted ∧ Laid i r posted later since w.log ∧
      ((∃ j a, .deleted j a posted.id ∈ later) ∨ Restored i posted.id later ∨
        ∃ rec, w.store.record posted.id = some rec ∧
          (rec.details = posted.details ∨ Repaired i r since))

section Facts

variable {s : Store} {id : String} {rec : StoreRecord}

theorem Allowed.details (h : Allowed s l e) (hc : content s r l = some rec)
    (hd : ∃ e' ∈ l, e'.detailed = some (i, r)) :
    (∃ rec', content s r (e :: l) = some rec' ∧ rec'.details = rec.details) ∨
    ∃ j ≠ i, ∃ rec', e.detailed = some (j, r) ∧ content s r (e :: l) = some rec' := by
  have hkeep (he : ∀ rec', e.written ≠ some (r, rec')) :
      (∃ rec', content s r (e :: l) = some rec' ∧ rec'.details = rec.details) ∨
      ∃ j ≠ i, ∃ rec', e.detailed = some (j, r) ∧ content s r (e :: l) = some rec' :=
    .inl ⟨rec, (content_cons r e l he).trans hc, rfl⟩
  cases e with
  | made j q rec' =>
    refine hkeep fun rec'' he => ?_
    cases he
    exact absurd (hc.symm.trans h.1) (Option.some_ne_none rec)
  | changed j actor q rec' =>
    by_cases hq : q = r
    · subst hq
      obtain ⟨old, ho, -, -, -, -, hdetails⟩ := h
      cases hc.symm.trans ho
      exact .inl ⟨rec', by simp only [content, Event.written, if_true], hdetails⟩
    · exact hkeep fun rec'' he => by cases he; exact hq rfl
  | paired j actor q rec' =>
    by_cases hq : q = r
    · subst hq
      obtain ⟨e', he', hd⟩ := hd
      have hj : j ≠ i := fun hj => h.2 e' he' q (hj ▸ hd)
      exact .inr ⟨j, hj, rec', rfl, by simp only [content, Event.written, if_true]⟩
    · exact hkeep fun rec'' he => by cases he; exact hq rfl
  | _ => exact hkeep fun rec' he => by cases he

theorem Legal.details (h : Legal s (l₁ ++ e :: l₂)) (hd : e.detailed = some (i, r))
    (hw : e.written = some (r, rec)) :
    ∃ rec', content s r (l₁ ++ e :: l₂) = some rec' ∧
      (rec'.details = rec.details ∨ Repaired i r l₁) := by
  induction l₁ with
  | nil =>
    exact ⟨rec, by simp only [List.nil_append, content, hw, if_true], .inl rfl⟩
  | cons e' l₁ ih =>
    cases h with
    | cons h he =>
      obtain ⟨rec', hc, hrec⟩ := ih h
      have hmem : e ∈ l₁ ++ e :: l₂ := List.mem_append_right _ List.mem_cons_self
      obtain ⟨rec'', hc', hdetails⟩ | ⟨j, hj, rec'', hd', hc'⟩ := he.details hc ⟨e, hmem, hd⟩
      · refine ⟨rec'', hc', hrec.imp (hdetails.trans ·) fun hrep => ?_⟩
        obtain ⟨e₁, he₁, h₁⟩ := hrep
        exact ⟨e₁, List.mem_cons_of_mem _ he₁, h₁⟩
      · exact ⟨rec'', hc', .inr ⟨e', List.mem_cons_self, j, hj, hd'⟩⟩

/-- An object stays under the id until it is deleted, or another request stores the listing with
details of its own. -/
theorem Legal.placed (h : Legal s (l₁ ++ .put i a p id r :: l₂))
    (ht : Always (inPlace s) (l₁ ++ .put i a p id r :: l₂)) :
    (∃ j b, .deleted j b id ∈ l₁) ∨ Restored i id l₁ ∨
      slot s id (l₁ ++ .put i a p id r :: l₂) = some r := by
  induction l₁ with
  | nil => exact .inr (.inr (by simp only [List.nil_append, slot, Event.placed, if_true]))
  | cons e l₁ ih =>
    rw [List.cons_append] at h ht ⊢
    cases h with
    | cons h he =>
      obtain ⟨j, b, hdel⟩ | ⟨j, b, q, r', hput, hj, hq⟩ | hslot := ih h ht.2
      · exact .inl ⟨j, b, List.mem_cons_of_mem _ hdel⟩
      · exact .inr (.inl ⟨j, b, q, r', List.mem_cons_of_mem _ hput, hj, hq⟩)
      have hkeep (hp : ∀ q, e.placed ≠ some (id, q)) :
          (∃ j b, .deleted j b id ∈ e :: l₁) ∨ Restored i id (e :: l₁) ∨
            slot s id (e :: (l₁ ++ .put i a p id r :: l₂)) = some r :=
        .inr (.inr ((slot_cons id e _ hp).trans hslot))
      cases e with
      | put j b q k r' =>
        by_cases hk : k = id
        · subst hk
          by_cases hq : q = .keep
          · subst hq
            have htime := ht.1
            simp only [inPlace, hslot, Option.all_some, decide_eq_true_eq] at htime
            exact .inr (.inr (by simp only [slot, Event.placed, if_true, htime]))
          · have hj : j ≠ i := by
              intro hj
              subst hj
              exact he.1 a p k r (List.mem_append_right _ List.mem_cons_self)
            exact .inr (.inl ⟨j, b, q, r', List.mem_cons_self, hj, hq⟩)
        · exact hkeep fun q hp => by cases hp; exact hk rfl
      | deleted j b k =>
        by_cases hk : k = id
        · subst hk
          exact .inl ⟨j, b, List.mem_cons_self⟩
        · exact hkeep fun q hp => by cases hp; exact hk rfl
      | _ => exact hkeep fun q hp => by cases hp

end Facts

/-- In every run in which each change that keeps the pairing details stores the object that is there
already, or one that is there no more, new pairing details stay. -/
theorem details_kept (s : Store) (hs : s.WellFormed) (g : Gates)
    (moves : List (Move Request Answer)) :
    let w := (Pool.run (serve g) ⟨⟨s, []⟩, []⟩ moves).shared
    Always (inPlace s) w.log → Tracks s w ∧ Kept g w := by
  intro w ht
  have hw := served_run s hs g moves
  refine ⟨hw.toTracks, fun l₁ l₂ i q hl hq hposts => ?_⟩
  obtain ⟨posted, hposted, actor, purpose, r, m₁, m₂, rfl, hp, e, he, hd, hwritten⟩ :=
    (hw.honest l₁ i l₂ q hl hq).wrote hposts
  obtain ⟨l₃, l₄, rfl⟩ := List.append_of_mem he
  let later := l₁ ++ .answered i 200 :: m₁
  let since := later ++ .put i actor purpose posted.id r :: l₃
  have hput : w.log = later ++ .put i actor purpose posted.id r :: (l₃ ++ e :: l₄) := by
    simp [hl, later]
  have hmade : w.log = since ++ e :: l₄ := by simp [hput, since]
  refine ⟨posted, r, later, since, hposted, ⟨⟨actor, purpose, _, hput, hp⟩, e, l₄, hmade, hd, hwritten⟩,
    ?_⟩
  obtain hdel | hrestored | hslot := Legal.placed (hput ▸ hw.legal) (hput ▸ ht)
  · exact .inl hdel
  · exact .inr (.inl hrestored)
  · obtain ⟨rec, hc, hrec⟩ := Legal.details (hmade ▸ hw.legal) hd hwritten
    have hstored : w.store.record posted.id = some rec := by
      rw [Store.record, hw.slots, hput, hslot, Option.bind_some, hw.objects, hmade, hc]
    exact .inr (.inr ⟨rec, hstored, hrec⟩)

/-- New pairing details, and an edit that comes while they are probed. -/
def pairingMoves : List (Move Request Answer) :=
  [.call ⟨.pairing, "alice", some (listingBody "http://a.onion")⟩] ++ answers 0 8 ++
  [.call ⟨.edit, "alice", some (listingBody "http://a.onion")⟩] ++ answers 1 30 ++ answers 0 30

theorem details_kept_overlapping :
    let w := (Pool.run (serve .lenient) ⟨⟨oneListing, []⟩, []⟩ pairingMoves).shared
    Tracks oneListing w ∧ Kept .lenient w :=
  details_kept oneListing oneListing_wellFormed .lenient pairingMoves (by decide +kernel)

/-- An approval that waits for a PayNym while the owner submits the listing again. -/
def revertingMoves : List (Move Request Answer) :=
  [.call ⟨.approve, "maintainer", some (listingBody "http://a.onion")⟩] ++ answers 0 7 ++
  [.call ⟨.submit, "alice", some (listingBody "http://a.onion")⟩] ++ answers 1 20 ++ answers 0 50

/-- The `n`th last event answered a request that posts pairing details with success, and without
any other new details or a deletion the signed block under `id` in the store is another. -/
def revertedAfter (id : String) (n : Nat) (w : World Event) : Bool :=
  match w.log.drop n with
  | .answered i 200 :: l =>
      l.any (fun | .asked j q => j = i && q.route.posts | _ => false) &&
      w.log.all (fun
        | .deleted _ _ _ => false
        | .put j _ purpose k _ => purpose = .keep || j = i && k = id
        | e => e.detailed.all fun x => x.1 = i) &&
      (w.store.record id).any fun rec =>
        w.log.all fun e => e.detailed.isNone || e.written.all fun x => x.2.signed ≠ rec.signed
  | _ => false

theorem not_kept_of_revertedAfter {w : World Event} {g : Gates} {id : String}
    (h : revertedAfter id n w) : ¬ Kept g w := by
  intro hkept
  unfold revertedAfter at h
  split at h
  · next i l hdrop =>
    simp only [Bool.and_eq_true, List.any_eq_true, List.all_eq_true, Option.any_eq_true] at h
    obtain ⟨⟨⟨e, he, hasked⟩, hno⟩, rec, hrec, hsigned⟩ := h
    have hlog : w.log = w.log.take n ++ .answered i 200 :: l := by
      rw [← hdrop, List.take_append_drop]
    have hq : ∃ q, .asked i q ∈ l ∧ q.route.posts := by
      cases e with
      | asked j q =>
        simp only [Bool.and_eq_true, decide_eq_true_eq] at hasked
        obtain ⟨rfl, hposts⟩ := hasked
        exact ⟨q, he, hposts⟩
      | _ => cases hasked
    obtain ⟨q, hq, hposts⟩ := hq
    have honly (e : Event) (he : e ∈ w.log) {j r : Nat} (hd : e.detailed = some (j, r)) : j = i := by
      have h := hno e he
      cases e with
      | made j' r' rec' => cases hd; simpa [Event.detailed] using h
      | paired j' a r' rec' => cases hd; simpa [Event.detailed] using h
      | _ => cases hd
    obtain ⟨posted, r, later, since, -, ⟨⟨actor, p, l', hput, hp⟩, e₀, l₀, hmade, hd, hw⟩, hout⟩ :=
      hkept _ l i q hlog hq hposts
    have hid : posted.id = id := by
      have h := hno _ (hput ▸ List.mem_append_right _ List.mem_cons_self)
      simpa [hp] using h
    obtain ⟨j, a, hdel⟩ | ⟨j, a, p', q', hput', hj, hp'⟩ | ⟨rec', hrec', hsame⟩ := hout
    · have h := hno _ (hput ▸ List.mem_append_left _ hdel)
      cases h
    · have h := hno _ (hput ▸ List.mem_append_left _ hput')
      simp [hp', hj] at h
    · rw [hid] at hrec'
      cases hrec.symm.trans hrec'
      obtain hdetails | ⟨e', he', j, hj, hd'⟩ := hsame
      · have hne := hsigned e₀ (hmade ▸ List.mem_append_right _ List.mem_cons_self)
        have hs : rec.signed = posted.signed := congrArg Details.signed hdetails
        simp [hd, hw, hs] at hne
      · exact hj (honly e' (hmade ▸ List.mem_append_left _ he') hd')
  · cases h

/-- An approval brings back the pairing details that a later submission has replaced. -/
theorem approval_reverts_details :
    ¬ ∀ s : Store, s.WellFormed → ∀ (g : Gates) (moves : List (Move Request Answer)),
      Kept g (Pool.run (serve g) ⟨⟨s, []⟩, []⟩ moves).shared := by
  intro h
  refine absurd (h oneListing oneListing_wellFormed .lenient revertingMoves) ?_
  exact not_kept_of_revertedAfter
    (show revertedAfter "mainnet-dojo" 4 _ from by decide +kernel)

end Mise.Server
