import Mise.Async.Logged
import Mise.Server.Store

set_option autoImplicit true

namespace Mise.Server

open Js

/-- A curated node of the seed file. -/
structure Seed where
  id : String
  name : Option String := none
  network : Network
  paymentCode : Option String := none
  payload : Payload := {}
  signed : Option String := none

/-- What the resolvers that answered have in their TXT records, and why the others have not. -/
structure TxtLookup where
  byResolver : List (List String) := []
  errors : List String := []

/-- What an await resumes with: whether the operation it waited for succeeded, the time, what
`randomBytes` gives next, and what a probe, a PayNym look-up, the seed file or a look-up of a
domain, where it does not throw, has said. -/
structure Answer where
  ok : Bool := true
  clock : Int := 0
  random : Nat → UInt8 := fun _ => 0
  probe : Probe := {}
  paynym : Option String := none
  seeds : List Seed := []
  txt : Except String TxtLookup := .ok {}

/-- The loaded store, and the history of what requests have done, newest first. -/
structure World (α : Type) where
  store : Store := {}
  log : List α := []

abbrev Action (α : Type) := Async (World α) Answer Fault

/-- The status of an answer and the text of its error. -/
structure Response where
  code : Nat
  error : Option String := none
  deriving DecidableEq

namespace World

def emit (e : α) (w : World α) : World α := { w with log := e :: w.log }

/-- Change the store, and record what the change calls for. -/
def change (f : Store → β × Store) (note : β → List α) (w : World α) : β × World α :=
  let r := f w.store
  (r.1, ⟨r.2, note r.1 ++ w.log⟩)

end World

/-- `await p` for a call of an asynchronous function: its caller goes on at a later moment. -/
def awaiting (p : Action α β) : Action α (β × Answer) := do
  let x ← p
  let a ← Async.wait
  return (x, a)

/-- `persist` serialises the cache and writes it to the file; either file operation can fail. -/
def persist : Action α Unit := do
  let a ← Async.wait        -- writeFile
  unless a.ok do throw .io
  let a ← Async.wait        -- rename
  unless a.ok do throw .io

/-- A write of the store: `load`, the change, and `persist` where the change calls for it. -/
def write (f : Store → β × Store) (note : β → List α) (persists : β → Bool) : Action α β := do
  let _ ← Async.wait
  let x ← Async.updateGet (World.change f note)
  if persists x then
    let _ ← awaiting persist
  return x

/-- It persists where it has changed something. -/
def gcNonces (now : Int) : Action α Bool :=
  write (fun s => (s.nonces.values.any (·.expires < now), s.gcNonces now)) (fun _ => []) id

def putNonce (nonce : String) (data : Nonce) (note : List α := []) : Action α Unit :=
  write (fun s => ((), s.putNonce nonce data)) (fun _ => note) fun _ => true

/-- `note` is what a stored nonce that is taken leaves in the history. -/
def takeNonce (nonce : String) (note : List α := []) : Action α (Found Nonce) :=
  write (Store.takeNonce nonce) (fun n => if n matches .own _ then note else [])
    fun n => !(n matches .absent)

def putSession (id : String) (data : Session) (note : List α := []) : Action α Unit :=
  write (fun s => ((), s.putSession id data)) (fun _ => note) fun _ => true

/-- A handler's caller answers for whatever the handler throws. -/
def handled (p : Action α Response) : Action α Response :=
  MonadExcept.tryCatch p fun _ => return ⟨500, some "server error"⟩

section Specs

open Async

variable {R G : World α → World α → Prop} {E : Fault → World α → World α → Prop}

/-- What the caller knows after the call still has to hold when it goes on. -/
theorem awaiting_sat {Q : β × Answer → World α → World α → Prop} {p : Action α β}
    {K : β → World α → Prop} (hK : ∀ {x w w'}, K x w → R w w' → K x w')
    (h : Sat R G (fun x w₀ w => G w₀ w ∧ K x w) E p w₀ w)
    (hQ : ∀ x a w, K x w → Q (x, a) w w) : Sat R G Q E (awaiting p) w₀ w := by
  simp only [awaiting, sat_bind, sat_wait, sat_pure]
  exact h.mono (fun x t₀ t ht => ⟨ht.1, fun u hu a => hQ x a u (hK ht.2 hu)⟩) fun _ _ _ he => he

theorem persist_sat {Q : Unit → World α → World α → Prop} {K : World α → Prop}
    (hK : ∀ {w w'}, K w → R w w' → K w') (hG : ∀ w, G w w) (h : G w₀ w) (hk : K w)
    (hQ : ∀ w, K w → Q () w w) (hE : ∀ w, K w → E .io w w) :
    Sat R G Q E (persist : Action α Unit) w₀ w := by
  simp only [persist, sat_bind, sat_wait]
  refine ⟨h, fun t ht a => ?_⟩
  have hkt := hK hk ht
  cases ha : a.ok with
  | false => exact hE t hkt
  | true =>
    simp only [if_true, sat_bind, sat_wait]
    refine ⟨hG t, fun u hu b => ?_⟩
    have hku := hK hkt hu
    cases hb : b.ok with
    | false => exact hE u hku
    | true => exact hQ u hku

/-- A write keeps the guarantee where its change does; `K` is known before the change and `K'`
after it. -/
theorem write_sat {f : Store → β × Store} {note : β → List α} {persists : β → Bool}
    {Q : β → World α → World α → Prop} (K : World α → Prop) (K' : β → World α → Prop)
    (hK : ∀ {w w'}, K w → R w w' → K w') (hK' : ∀ {x w w'}, K' x w → R w w' → K' x w')
    (hG : ∀ w, G w w)
    (hf : ∀ w, K w → G w (w.change f note).2 ∧ K' (w.change f note).1 (w.change f note).2)
    (h : G w₀ w) (hk : K w) (hQ : ∀ x w₀ w, G w₀ w → K' x w → Q x w₀ w)
    (hE : ∀ x w, K' x w → E .io w w) :
    Sat R G Q E (write f note persists) w₀ w := by
  simp only [write, sat_bind, sat_wait, sat_updateGet]
  refine ⟨h, fun t ht a => ?_⟩
  obtain ⟨hg, hk'⟩ := hf t (hK hk ht)
  revert hg hk'
  generalize t.change f note = r
  intro hg hk'
  cases hp : persists r.1 with
  | false => exact hQ r.1 t r.2 hg hk'
  | true =>
    simp only [if_true, sat_bind]
    refine awaiting_sat (K := fun _ => K' r.1) hK' ?_ fun x a w hw => hQ r.1 w w (hG w) hw
    exact persist_sat hK' hG hg hk' (fun w hw => ⟨hG w, hw⟩) fun w hw => hE r.1 w hw

end Specs

section Logged

open Async Logged

variable {Inv : World α → Prop} {P : List α → Prop} {w₀ w : World α}

/-- `await p`, where what is known after `p` is still known when the caller goes on. -/
theorem keeps_awaiting {P : β → List α → Prop} {p : Action α β}
    (h : Keeps World.log Inv (fun x => Knows World.log Inv (P x)) p w₀ w) :
    Keeps World.log Inv (fun x => Knows World.log Inv (P x.1)) (awaiting p) w₀ w := by
  refine awaiting_sat (K := fun x w => Knows World.log Inv (P x) w w) (fun h hr => h.rely hr) ?_
    fun x a w h => h
  exact h.mono (fun x w₀ w h => ⟨h.steps, h.here⟩) fun _ _ _ h => h

theorem keeps_persist (h : Knows World.log Inv P w₀ w) :
    Keeps World.log Inv (fun _ => Knows World.log Inv P) persist w₀ w := by
  unfold persist
  refine h.wait.seq fun a t₀ t ht => ?_
  cases ha : a.ok with
  | false => exact ht.ends _
  | true =>
    refine ht.wait.seq fun b u₀ u hu => ?_
    cases hb : b.ok with
    | false => exact hu.ends _
    | true => exact hu

theorem keeps_write {P' : β → List α → Prop} {f : Store → β × Store} {note : β → List α}
    {persists : β → Bool} (h : Knows World.log Inv P w₀ w)
    (hf : ∀ t₀ t, Knows World.log Inv P t₀ t →
      Knows World.log Inv (P' (t.change f note).1) t₀ (t.change f note).2) :
    Keeps World.log Inv (fun x => Knows World.log Inv (P' x)) (write f note persists) w₀ w := by
  unfold write
  refine h.wait.seq fun a t₀ t ht => ?_
  simp only [sat_bind, sat_updateGet]
  have ht' := hf t₀ t ht
  cases hp : persists (t.change f note).1 with
  | false => exact ht'
  | true =>
    simp only [if_true]
    exact (keeps_awaiting (keeps_persist ht')).seq fun _ _ _ hu => hu

end Logged

def hexDigit (n : Nat) : Char := Char.ofNat (if n < 10 then 48 + n else 87 + n)

/-- `randomBytes(n).toString("hex")` -/
def hex (n : Nat) (random : Nat → UInt8) : String :=
  String.ofList ((List.range n).flatMap fun i =>
    [hexDigit ((random i).toNat / 16), hexDigit ((random i).toNat % 16)])

end Mise.Server
