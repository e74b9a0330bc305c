import Mise.Server.Routes

set_option autoImplicit true

namespace Mise.Server

open Js

/-- The name that a body gives to a listing. -/
def nameOf (body : Json) : Except Throw String := do
  return slice 40 (trim (← (orEmpty (← body.get "name")).text))

/-- The pairing details that a body posts, as the server stores them. -/
def Gates.posted (g : Gates) (body : Json) : Except Throw (Option Details) := do
  let payload := (← body.get "payload").getD .null
  match ← cleanSigned =<< body.get "signed" with
  | none => return none
  | some block =>
    let payload : Payload := ⟨← payload.get "pairing", ← payload.get "explorer"⟩
    return some ⟨payload, orNull ((g.repairSignedBlock block).getD block)⟩

/-- The record is the one that the request names, with the pairing details that it posts. -/
def Request.Posts (g : Gates) (q : Request) (rec : StoreRecord) : Prop :=
  ∃ body, q.body = some body ∧ g.posted body = .ok (some rec.details) ∧
    if q.route = .pairing then q.target = some rec.id
    else body.get "network" = .ok (some (.str rec.network.text)) ∧
      ∃ name, nameOf body = .ok name ∧ rec.name = some name

/-- Request `i` gave an object the content `rec`, and then stored it as a listing with new pairing
details. -/
def Wrote (i : Nat) (rec : StoreRecord) (l : List Event) : Prop :=
  ∃ actor purpose r l₁ l₂, l = l₁ ++ .put i actor purpose rec.id r :: l₂ ∧ purpose ≠ .keep ∧
    ∃ e ∈ l₂, e.detailed = some (i, r) ∧ e.written = some (r, rec)

/-- The request posts pairing details for a listing. -/
def Route.posts : Route → Bool
  | submit | pairing => true
  | _ => false

/-- The request deletes a listing. -/
def Route.deletes : Route → Bool
  | delete | remove => true
  | _ => false

/-- What the answer 200 says that request `i` has done. -/
structure Fulfilled (g : Gates) (i : Nat) (q : Request) (l : List Event) : Prop where
  wrote : q.route.posts → ∃ rec, q.Posts g rec ∧ Wrote i rec l
  cleared : q.route.deletes → ∃ id, q.target = some id ∧ .cleared i id ∈ l

/-- Every request that has been answered 200 has done what that says. -/
def Honest (g : Gates) (l : List Event) : Prop :=
  ∀ l₁ i l₂ q, l = l₁ ++ .answered i 200 :: l₂ → .asked i q ∈ l₂ → Fulfilled g i q l₂

section Facts

variable {g : Gates} {i : Nat} {q : Request} {l : List Event}

theorem Wrote.longer (h : Wrote i rec l) (l' : List Event) : Wrote i rec (l' ++ l) := by
  obtain ⟨actor, purpose, r, l₁, l₂, rfl, h⟩ := h
  exact ⟨actor, purpose, r, l' ++ l₁, l₂, (List.append_assoc ..).symm, h⟩

theorem Fulfilled.longer (h : Fulfilled g i q l) (l' : List Event) : Fulfilled g i q (l' ++ l) where
  wrote hq := by
    obtain ⟨rec, hposts, hwrote⟩ := h.wrote hq
    exact ⟨rec, hposts, hwrote.longer l'⟩
  cleared hq := by
    obtain ⟨id, ht, hid⟩ := h.cleared hq
    exact ⟨id, ht, List.mem_append_right l' hid⟩

theorem Honest.cons (h : Honest g l) (he : e.rank ≤ 4) : Honest g (e :: l) := by
  intro l₁ j l₂ q hl hq
  cases l₁ with
  | nil =>
    cases hl
    exact absurd he (by simp [Event.rank])
  | cons e' l₁ =>
    cases hl
    exact h l₁ j l₂ q rfl hq

theorem Honest.append {l' : List Event} (h : Honest g l) (he : ∀ e ∈ l', e.rank ≤ 4) :
    Honest g (l' ++ l) := by
  induction l' with
  | nil => exact h
  | cons e l' ih =>
    have hl := ih fun e he' => he e (List.mem_cons_of_mem _ he')
    exact hl.cons (he e List.mem_cons_self)

theorem Honest.answer (h : Honest g l)
    (hc : code = 200 → ∀ q, .asked i q ∈ l → Fulfilled g i q l) :
    Honest g (.answered i code :: l) := by
  intro l₁ j l₂ q hl hq
  cases l₁ with
  | nil =>
    cases hl
    exact hc rfl q hq
  | cons e l₁ =>
    cases hl
    exact h l₁ j l₂ q rfl hq

theorem Legal.asked_unique {s : Store} (h : Legal s l) (hq : .asked i q ∈ l)
    (hq' : .asked i q' ∈ l) : q = q' := by
  induction h with
  | nil => cases hq
  | cons h he ih =>
    obtain rfl | m := List.mem_cons.1 hq
    · obtain hq' | m' := List.mem_cons.1 hq'
      · cases hq'
        rfl
      · exact absurd m' (he _)
    · obtain rfl | m' := List.mem_cons.1 hq'
      · exact absurd m (he _)
      · exact ih m m'

theorem target_of_get {body : Json} (hv : body.get "id" = .ok v) (hk : propertyKey v = .ok k) :
    (Request.mk route sid (some body)).target = some k := by
  simp [Request.target, hv, hk, Except.toOption]

theorem nameOf_of_parts {body : Json} (hv : body.get "name" = .ok v) (ht : (orEmpty v).text = .ok t) :
    nameOf body = .ok (slice 40 (trim t)) := by
  simp only [nameOf, hv, ht, bind, Except.bind]
  rfl

theorem posted_of_parts {body : Json} (hp : body.get "payload" = .ok payload)
    (hb : (cleanSigned =<< body.get "signed") = .ok (some block))
    (hx : (payload.getD .null).get "pairing" = .ok x)
    (hy : (payload.getD .null).get "explorer" = .ok y) :
    g.posted body = .ok (some ⟨⟨x, y⟩, orNull ((g.repairSignedBlock block).getD block)⟩) := by
  simp only [Gates.posted, hp, hb, hx, hy, bind, Except.bind]
  rfl

end Facts

end Mise.Server
