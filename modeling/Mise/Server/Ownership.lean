import Mise.Server.Serve

set_option autoImplicit true

namespace Mise.Server

open Js

/-- The object that request `i` saw under `id`, where `id` has not been deleted since. -/
def held (i : Nat) (id : String) : List Event → Option Nat
  | [] => none
  | .saw j k r :: l => if j = i ∧ k = id then some r else held i id l
  | .deleted _ _ k :: l => if k = id then none else held i id l
  | _ :: l => held i id l

/-- A request writes a new listing where its id is still free, and anything else, as a deletion by
an owner, where the id has not been deleted since the request got hold of the record. -/
def timely (s : Store) : Event → List Event → Bool
  | .put i _ purpose id _, l =>
    slot s id l = none || (purpose ≠ .create && (held i id l).isSome)
  | .deleted i (.operator _) id, l => (held i id l).isSome
  | _, _ => true

/-- The record has no owner, or the actor is a maintainer or one of its owners. -/
def Actor.owner (rec : StoreRecord) : Actor → Bool
  | operator pc => rec.codes.isEmpty || owns rec pc
  | maintainer => true

/-- No operator overwrites, changes or removes a stored record of others. -/
def lawful (s : Store) : Event → List Event → Bool
  | .changed _ actor r _, l | .paired _ actor r _, l => (content s r l).all (actor.owner ·)
  | .put _ actor _ id _, l | .deleted _ actor id, l => (stored s id l).all (actor.owner ·)
  | _, _ => true

theorem owner_of_mayChange {rec : StoreRecord} {actor : Actor} (h : actor.mayChange rec.codes) :
    actor.owner rec := by
  cases actor with
  | operator pc =>
    obtain ⟨c, hc, rfl⟩ := h
    simp [Actor.owner, owns, hc]
  | maintainer => rfl

section Facts

variable {s : Store} {id : String}

theorem held_saw (h : held i id l = some r) : .saw i id r ∈ l := by
  induction l with
  | nil => cases h
  | cons e l ih =>
    cases e with
    | saw j k q =>
      simp only [held] at h
      split at h
      · next hj =>
        cases h
        rw [hj.1, hj.2]
        exact List.mem_cons_self
      · exact List.mem_cons_of_mem _ (ih h)
    | deleted j a k =>
      simp only [held] at h
      split at h
      · cases h
      · exact List.mem_cons_of_mem _ (ih h)
    | _ => exact List.mem_cons_of_mem _ (ih h)

/-- What lies under an id that has not been deleted since a request saw it has the payment codes of
what the request saw. -/
theorem held_codes (h : Legal s l) (hs : s.WellFormed) (ht : Always (timely s) l)
    (hr : held i id l = some r) :
    ∃ q cs, slot s id l = some q ∧ Coded s q id cs l ∧ Coded s r id cs l := by
  induction h generalizing i r with
  | nil => cases hr
  | @cons l e h he ih =>
    have hmono {q : Nat} {cs : List String} (hc : Coded s q id cs l) : Coded s q id cs (e :: l) :=
      hc.mono (m := [e]) (.cons h he)
    have hkeep (hr : held i id l = some r) (hslot : slot s id (e :: l) = slot s id l) :
        ∃ q cs, slot s id (e :: l) = some q ∧ Coded s q id cs (e :: l) ∧
          Coded s r id cs (e :: l) := by
      obtain ⟨q, cs, hq, hc, hc'⟩ := ih ht.2 hr
      exact ⟨q, cs, hslot.trans hq, hmono hc, hmono hc'⟩
    cases e with
    | saw j k q =>
      simp only [held] at hr
      split at hr
      · next hj =>
        cases hr
        obtain ⟨rfl, rfl⟩ := hj
        obtain ⟨rec, hrec, hid⟩ := h.stored hs he.1
        have hc := hmono ⟨rec, hrec, hid, rfl⟩
        exact ⟨r, rec.codes, he.1, hc, hc⟩
      · exact hkeep hr rfl
    | deleted j a k =>
      simp only [held] at hr
      split at hr
      · cases hr
      · next hk =>
        refine hkeep hr ?_
        simp only [slot, Event.placed, hk, if_false]
    | put j a p k q' =>
      have hr : held i id l = some r := hr
      by_cases hk : k = id
      · subst hk
        obtain ⟨q, cs, hq, hc, hc'⟩ := ih ht.2 hr
        obtain ⟨-, ⟨cs', hcoded, hbase⟩, -⟩ := id he
        have htime := ht.1
        simp only [timely, hq, reduceCtorEq, decide_false, Bool.false_or, Bool.and_eq_true,
          decide_eq_true_eq, Option.isSome_iff_exists] at htime
        obtain ⟨hp, r', hr'⟩ := htime
        obtain ⟨q₀, hheld, -⟩ := hbase.resolve_left hp
        cases h.saw_unique hheld.1 (held_saw hr')
        obtain ⟨q₁, cs₁, hq₁, hc₁, hc₁'⟩ := ih ht.2 hr'
        cases hq.symm.trans hq₁
        have hcs : cs' = cs := (hheld.2.codes_eq hc₁').trans (hc.codes_eq hc₁).symm
        subst hcs
        exact ⟨q', cs', by simp only [slot, Event.placed, if_true], hmono hcoded, hmono hc'⟩
      · exact hkeep hr (by simp only [slot, Event.placed, hk, if_false])
    | _ => exact hkeep hr rfl

theorem stored_codes (hslot : slot s id l = some q) (hc : Coded s q id cs l)
    (hrec : stored s id l = some rec) : rec.codes = cs := by
  obtain ⟨rec', hr, -, rfl⟩ := hc
  simp only [stored, hslot, Option.bind_some, hr, Option.some.injEq] at hrec
  rw [hrec]

/-- A write over a record that the request holds, where its id has not been deleted since. -/
theorem held_lawful (h : Legal s l) (hs : s.WellFormed) (ht : Always (timely s) l)
    (hr : (held i id l).isSome) (hheld : Held s i id cs q l) {actor : Actor}
    (hmay : actor.mayChange cs) : (stored s id l).all (actor.owner ·) := by
  rw [Option.all_eq_true]
  intro rec hrec
  obtain ⟨r, hr⟩ := Option.isSome_iff_exists.1 hr
  obtain ⟨q', cs', hslot, hc, hc'⟩ := held_codes h hs ht hr
  cases h.saw_unique hheld.1 (held_saw hr)
  have hcs := (stored_codes hslot hc hrec).trans (hc'.codes_eq hheld.2)
  exact owner_of_mayChange (hcs ▸ hmay)

theorem Legal.lawful (h : Legal s l) (hs : s.WellFormed) (ht : Always (timely s) l) :
    Always (lawful s) l := by
  induction h with
  | nil => trivial
  | @cons l e h he ih =>
    refine ⟨?_, ih ht.2⟩
    cases e with
    | changed i actor r rec =>
      obtain ⟨old, hr, hmay, -⟩ := he
      simp only [Server.lawful, hr, Option.all_some]
      exact owner_of_mayChange hmay
    | paired i actor r rec =>
      obtain ⟨⟨old, hr, hmay, -⟩, -⟩ := he
      simp only [Server.lawful, hr, Option.all_some]
      exact owner_of_mayChange hmay
    | put i actor purpose id r =>
      obtain ⟨-, ⟨cs, -, hbase⟩, -⟩ := he
      have htime := ht.1
      simp only [timely, Bool.or_eq_true, decide_eq_true_eq, Bool.and_eq_true] at htime
      obtain hnone | ⟨hp, hr⟩ := htime
      · simp only [Server.lawful, Server.stored, hnone, Option.bind_none, Option.all_none]
      · obtain ⟨q, hheld, hmay⟩ := hbase.resolve_left hp
        exact held_lawful h hs ht.2 hr hheld hmay
    | deleted i actor id =>
      cases actor with
      | maintainer =>
        rw [Server.lawful, Option.all_eq_true]
        exact fun _ _ => rfl
      | operator pc =>
        obtain ⟨r, cs, hheld, hmay⟩ := he.2.resolve_left nofun
        exact held_lawful h hs ht.2 ht.1 hheld hmay
    | _ => rfl

end Facts

/-- In every run in which a new listing finds its id free, and every other write and every owner's
deletion comes before the next deletion of the id, no operator overwrites, changes or removes a
record of others. The routes of an operator note the payment code of their session with each event,
and only the maintainer's note `.maintainer`. -/
theorem only_owners_change (s : Store) (hs : s.WellFormed) (g : Gates)
    (moves : List (Move Request Answer)) :
    let w := (Pool.run (serve g) ⟨⟨s, []⟩, []⟩ moves).shared
    Always (timely s) w.log → Tracks s w ∧ Always (lawful s) w.log := by
  intro w ht
  have hw := tracks_run s hs g moves
  exact ⟨hw, hw.legal.lawful hs ht⟩

/-- An edit, and a deletion that comes while the edit waits. -/
def ownerMoves : List (Move Request Answer) :=
  [.call ⟨.edit, "alice", some (listingBody "http://a.onion")⟩,
    .call ⟨.delete, "alice", some (listingBody "http://a.onion")⟩] ++
  answers 0 8 ++ answers 1 20 ++ answers 0 20

theorem only_owners_change_overlapping :
    let w := (Pool.run (serve .lenient) ⟨⟨oneListing, []⟩, []⟩ ownerMoves).shared
    Tracks oneListing w ∧ Always (lawful oneListing) w.log :=
  only_owners_change oneListing oneListing_wellFormed .lenient ownerMoves (by decide +kernel)

/-- Of two submissions under one name, the later write takes the listing of the earlier. -/
theorem later_submission_takes_listing :
    ¬ ∀ s : Store, s.WellFormed → ∀ (g : Gates) (moves : List (Move Request Answer)),
      Always (lawful s) (Pool.run (serve g) ⟨⟨s, []⟩, []⟩ moves).shared.log := by
  intro h
  refine absurd (h { sessions := someSessions } noListing_wellFormed .lenient
    ([.call ⟨.submit, "alice", some (listingBody "http://a.onion")⟩] ++ answers 0 9 ++
    [.call ⟨.submit, "bob", some (listingBody "http://b.onion")⟩] ++ answers 1 19 ++ answers 0 10)) ?_
  decide +kernel

end Mise.Server
