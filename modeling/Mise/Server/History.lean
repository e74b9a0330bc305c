import Mise.Server.Store

set_option autoImplicit true

namespace Mise.Server

open Js

/-- Whether a session's payment code is one of the record's. -/
def owns (rec : StoreRecord) (pc : Option String) : Bool := pc.any (· ∈ rec.codes)

/-- For whom a request acts: the operator of a session, or a maintainer. -/
inductive Actor where
  | operator (paymentCode : Option String)
  | maintainer
  deriving DecidableEq

/-- Whether the actor may change a record with the payment codes `cs`. -/
def Actor.mayChange (cs : List String) : Actor → Prop
  | operator pc => ∃ c ∈ cs, pc = some c
  | maintainer => True

/-- Why a request stores a record: it is a new listing, a listing submitted again, or one with new
pairing details, or the request keeps its pairing details. -/
inductive Purpose where
  | create
  | update
  | pairing
  | keep
  deriving DecidableEq

def Purpose.submits : Purpose → Bool
  | create | update => true
  | pairing | keep => false

/-- The pairing details of a record and the signed block over them. -/
structure Details where
  payload : Payload
  signed : Option String

def StoreRecord.details (rec : StoreRecord) : Details := ⟨rec.payload, rec.signed⟩

inductive Route where
  | submit
  | edit
  | pairing
  | delete
  | adminEdit
  | approve
  | reject
  | remove
  deriving DecidableEq

/-- A request about a listing; `sid` is its session cookie, empty where it has none, and `body` is
`none` where it is not JSON. -/
structure Request where
  route : Route
  sid : String
  body : Option Json

/-- The id of the listing that the body names. -/
def Request.target (q : Request) : Option String := do
  let v ← (← q.body).get "id" |>.toOption
  (propertyKey v).toOption

/-- What a request does to the listings. Objects are named by their place in the heap. -/
inductive Event where
  | began (i : Nat)
  /-- What the request that began asks for. -/
  | asked (i : Nat) (q : Request)
  /-- The request got hold of the object that is stored under `id`. -/
  | saw (i : Nat) (id : String) (r : Nat)
  /-- The request made the object `r`. -/
  | made (i r : Nat) (rec : StoreRecord)
  /-- The request changed the object `r` in place, but not its pairing details. -/
  | changed (i : Nat) (actor : Actor) (r : Nat) (rec : StoreRecord)
  /-- The request gave the object `r` new pairing details. -/
  | paired (i : Nat) (actor : Actor) (r : Nat) (rec : StoreRecord)
  | put (i : Nat) (actor : Actor) (purpose : Purpose) (id : String) (r : Nat)
  | deleted (i : Nat) (actor : Actor) (id : String)
  /-- The request has made sure that nothing is stored under `id`. -/
  | cleared (i : Nat) (id : String)
  | rebuilding (i : Nat)
  /-- The rebuild of the request wrote the public list with these submissions. -/
  | published (i : Nat) (ids : List String)
  | answered (i : Nat) (code : Nat)

namespace Event

/-- The request that did it. -/
def request : Event → Nat
  | began i | asked i _ | saw i _ _ | made i _ _ | changed i _ _ _ | paired i _ _ _ | put i _ _ _ _
  | deleted i _ _ | cleared i _ | rebuilding i | published i _ | answered i _ => i

/-- The id whose place in the store changes, and the object it gets. -/
def placed : Event → Option (String × Option Nat)
  | put _ _ _ id r => some (id, some r)
  | deleted _ _ id => some (id, none)
  | _ => none

/-- The object that is written, and what it is afterwards. -/
def written : Event → Option (Nat × StoreRecord)
  | made _ r rec | changed _ _ r rec | paired _ _ r rec => some (r, rec)
  | _ => none

/-- How far a request has come that has done it. -/
def rank : Event → Nat
  | began _ | asked _ _ => 0
  | saw _ _ _ => 1
  | made _ _ _ | changed _ _ _ _ | paired _ _ _ _ => 2
  | put _ _ _ _ _ | deleted _ _ _ | cleared _ _ => 3
  | rebuilding _ | published _ _ => 4
  | answered _ _ => 5

/-- The request and the object to which it gives pairing details. -/
def detailed : Event → Option (Nat × Nat)
  | made i r _ | paired i _ r _ => some (i, r)
  | _ => none

end Event

section Replay

variable (s : Store)

/-- The object that a history over the store `s` leaves under `id`. -/
def slot (id : String) : List Event → Option Nat
  | [] => s.submissions.get id
  | e :: l => match e.placed with
    | some (k, r) => if k = id then r else slot id l
    | none => slot id l

/-- What a history over the store `s` makes of the object `r`. -/
def content (r : Nat) : List Event → Option StoreRecord
  | [] => s.object r
  | e :: l => match e.written with
    | some (q, rec) => if q = r then some rec else content r l
    | none => content r l

/-- The record that a history leaves under `id`. -/
def stored (id : String) (l : List Event) : Option StoreRecord :=
  (slot s id l).bind fun r => content s r l

/-- The object `r` has the id `id` and the payment codes `cs`. -/
def Coded (r : Nat) (id : String) (cs : List String) (l : List Event) : Prop :=
  ∃ rec, content s r l = some rec ∧ rec.id = id ∧ rec.codes = cs

/-- The request has seen the object `r` under the id `id`, and it has the payment codes `cs`. -/
def Held (i : Nat) (id : String) (cs : List String) (r : Nat) (l : List Event) : Prop :=
  .saw i id r ∈ l ∧ Coded s r id cs l

/-- What a request may do after the history `l`. -/
def Allowed (l : List Event) : Event → Prop
  | .began i => ∀ e ∈ l, e.request ≠ i
  | .asked i _ => ∀ q, .asked i q ∉ l
  | .saw i id r => slot s id l = some r ∧ ∀ q, .saw i id q ∉ l
  | .made i r rec => content s r l = none ∧ Normal rec ∧ ∀ e ∈ l, ∀ q, e.detailed ≠ some (i, q)
  | .changed _ actor r rec => ∃ old, content s r l = some old ∧ actor.mayChange old.codes ∧ Normal rec ∧
      rec.id = old.id ∧ rec.codes = old.codes ∧ rec.details = old.details
  | .paired i actor r rec => (∃ old, content s r l = some old ∧ actor.mayChange old.codes ∧ Normal rec ∧
      rec.id = old.id ∧ rec.codes = old.codes) ∧ ∀ e ∈ l, ∀ q, e.detailed ≠ some (i, q)
  | .put i actor purpose id r => (∀ a p k q, .put i a p k q ∉ l) ∧
      (∃ cs, Coded s r id cs l ∧
        (purpose = .create ∨ ∃ q, Held s i id cs q l ∧ actor.mayChange cs)) ∧
      (purpose ≠ .keep → ∃ e ∈ l, e.detailed = some (i, r))
  | .deleted i actor id => slot s id l ≠ none ∧
      (actor = .maintainer ∨ ∃ r cs, Held s i id cs r l ∧ actor.mayChange cs)
  | .cleared _ id => slot s id l = none
  | .rebuilding _ => True
  | .published i ids => ∀ id ∈ ids, ∃ l₁ l₂, l = l₁ ++ l₂ ∧ .rebuilding i ∈ l₂ ∧ slot s id l₂ ≠ none
  | .answered i _ => ∀ c, .answered i c ∉ l

/-- A history of which every step was allowed. -/
inductive Legal : List Event → Prop
  | nil : Legal []
  | cons (h : Legal l) (he : Allowed s l e) : Legal (e :: l)

end Replay

/-- Every event of a history satisfies `p`, given the history before it. -/
def Always (p : Event → List Event → Bool) : List Event → Prop
  | [] => True
  | e :: l => p e l ∧ Always p l

instance decidableAlways (p : Event → List Event → Bool) : (l : List Event) → Decidable (Always p l)
  | [] => isTrue trivial
  | e :: l => @instDecidableAnd (p e l) (Always p l) _ (decidableAlways p l)

theorem always_iff {p : Event → List Event → Bool} :
    Always p l ↔ ∀ l₁ e l₂, l = l₁ ++ e :: l₂ → p e l₂ := by
  induction l with
  | nil => simp [Always]
  | cons e l ih =>
    refine ⟨fun h l₁ e' l₂ hl => ?_, fun h => ⟨h [] e l rfl, ih.2 fun l₁ e' l₂ hl =>
      h (e :: l₁) e' l₂ (by rw [hl]; rfl)⟩⟩
    cases l₁ with
    | nil => cases hl; exact h.1
    | cons e₁ l₁ => cases hl; exact ih.1 h.2 l₁ e' l₂ rfl

theorem Always.suffix {p : Event → List Event → Bool} (h : Always p (l₁ ++ l₂)) : Always p l₂ := by
  induction l₁ with
  | nil => exact h
  | cons e l₁ ih => exact ih h.2

/-- A store as a load leaves it: every record is normalised and stored under its own id. -/
structure Store.WellFormed (s : Store) : Prop where
  stored : ∀ id r, s.submissions.get id = some r → ∃ rec, s.object r = some rec ∧ rec.id = id
  normal : ∀ r rec, s.object r = some rec → Normal rec

section Facts

variable {s : Store} {id : String} {rec : StoreRecord}

theorem Legal.suffix {m l : List Event} (h : Legal s (m ++ l)) : Legal s l := by
  induction m with
  | nil => exact h
  | cons e m ih =>
    cases h with
    | cons h _ => exact ih h

theorem Legal.allowed {m l : List Event} (h : Legal s (m ++ e :: l)) : Allowed s l e := by
  cases h.suffix with
  | cons _ he => exact he

theorem slot_note (h : e.placed = none) : slot s id (e :: l) = slot s id l := by
  rw [slot, h]

theorem content_note (h : e.written = none) : content s r (e :: l) = content s r l := by
  rw [content, h]

theorem slot_cons (id : String) (e : Event) (l : List Event) (h : ∀ r, e.placed ≠ some (id, r)) :
    slot s id (e :: l) = slot s id l := by
  rw [slot]
  split
  · next k r he =>
    have hk : k ≠ id := fun hk => h r (hk ▸ he)
    rw [if_neg hk]
  · rfl

theorem content_cons (r : Nat) (e : Event) (l : List Event) (h : ∀ rec, e.written ≠ some (r, rec)) :
    content s r (e :: l) = content s r l := by
  rw [content]
  split
  · next q rec he =>
    have hq : q ≠ r := fun hq => h rec (hq ▸ he)
    rw [if_neg hq]
  · rfl

theorem Allowed.written (h : Allowed s l e) (he : e.written = some (r, rec)) :
    Normal rec ∧ ∀ old, content s r l = some old → rec.id = old.id ∧ rec.codes = old.codes := by
  cases e with
  | made i q rec' =>
    cases he
    exact ⟨h.2.1, fun old ho => by rw [h.1] at ho; cases ho⟩
  | changed i actor q rec' =>
    cases he
    obtain ⟨old, ho, -, hn, hid, hcodes, -⟩ := h
    exact ⟨hn, fun old' ho' => by rw [ho] at ho'; cases ho'; exact ⟨hid, hcodes⟩⟩
  | paired i actor q rec' =>
    cases he
    obtain ⟨⟨old, ho, -, hn, hid, hcodes⟩, -⟩ := h
    exact ⟨hn, fun old' ho' => by rw [ho] at ho'; cases ho'; exact ⟨hid, hcodes⟩⟩
  | _ => cases he

theorem Legal.normal (h : Legal s l) (hs : s.WellFormed) (hr : content s r l = some rec) :
    Normal rec := by
  induction h with
  | nil => exact hs.normal r rec hr
  | cons h he ih =>
    rw [content] at hr
    split at hr
    · next hw =>
      split at hr
      · next hq =>
        cases hr
        exact (he.written hw).1
      · exact ih hr
    · exact ih hr

theorem Legal.keeps {m l : List Event} (h : Legal s (m ++ l)) (hr : content s r l = some rec) :
    ∃ rec', content s r (m ++ l) = some rec' ∧ rec'.id = rec.id ∧ rec'.codes = rec.codes := by
  induction m with
  | nil => exact ⟨rec, hr, rfl, rfl⟩
  | cons e m ih =>
    cases h with
    | cons h he =>
      obtain ⟨rec', hr', hid, hcodes⟩ := ih h
      rw [List.cons_append, content]
      split
      · next q rec'' hw =>
        split
        · next hq =>
          subst hq
          obtain ⟨hid', hcodes'⟩ := (he.written hw).2 rec' hr'
          exact ⟨rec'', rfl, hid'.trans hid, hcodes'.trans hcodes⟩
        · exact ⟨rec', hr', hid, hcodes⟩
      · exact ⟨rec', hr', hid, hcodes⟩

theorem Legal.stored (h : Legal s l) (hs : s.WellFormed) (hid : slot s id l = some r) :
    ∃ rec, content s r l = some rec ∧ rec.id = id := by
  induction h with
  | nil => exact hs.stored id r hid
  | @cons l e h he ih =>
    have hkeep (hr : ∃ rec, content s r l = some rec ∧ rec.id = id) :
        ∃ rec, content s r (e :: l) = some rec ∧ rec.id = id := by
      obtain ⟨rec, hr, hid⟩ := hr
      obtain ⟨rec', hr', hid', -⟩ := (Legal.cons h he).keeps (m := [e]) hr
      exact ⟨rec', hr', hid'.trans hid⟩
    refine hkeep ?_
    rw [slot] at hid
    split at hid
    · next k q hp =>
      split at hid
      · next hk =>
        subst hk
        cases e with
        | put i actor purpose id' r' =>
          cases hp
          cases hid
          obtain ⟨-, ⟨cs, ⟨rec, hr, hrec, -⟩, -⟩, -⟩ := he
          exact ⟨rec, hr, hrec⟩
        | deleted i actor id' =>
          cases hp
          cases hid
        | _ => cases hp
      · exact ih hid
    · exact ih hid

theorem Coded.mono {m l : List Event} (h : Coded s r id cs l) (hl : Legal s (m ++ l)) :
    Coded s r id cs (m ++ l) := by
  obtain ⟨rec, hr, hid, hcodes⟩ := h
  obtain ⟨rec', hr', hid', hcodes'⟩ := hl.keeps hr
  exact ⟨rec', hr', hid'.trans hid, hcodes'.trans hcodes⟩

theorem Held.mono {l₁ l₂ : List Event} (h : Held s i id cs r l₂) (hl : Legal s (l₁ ++ l₂)) :
    Held s i id cs r (l₁ ++ l₂) :=
  ⟨List.mem_append_right _ h.1, h.2.mono hl⟩

theorem Coded.codes_eq (h : Coded s r id cs l) (h' : Coded s r id' cs' l) : cs = cs' := by
  obtain ⟨rec, hr, -, rfl⟩ := h
  obtain ⟨rec', hr', -, rfl⟩ := h'
  cases hr.symm.trans hr'
  rfl

theorem Legal.saw_unique (h : Legal s l) (h₁ : .saw i id r₁ ∈ l) (h₂ : .saw i id r₂ ∈ l) : r₁ = r₂ := by
  induction h with
  | nil => cases h₁
  | cons h he ih =>
    obtain rfl | m₁ := List.mem_cons.1 h₁
    · obtain h₂ | m₂ := List.mem_cons.1 h₂
      · cases h₂
        rfl
      · exact absurd m₂ (he.2 _)
    · obtain rfl | m₂ := List.mem_cons.1 h₂
      · exact absurd m₁ (he.2 _)
      · exact ih m₁ m₂

end Facts

end Mise.Server
