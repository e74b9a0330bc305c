import Mise.Async.Logged
import Mise.Server.Products

set_option autoImplicit true

namespace Mise.Server.Products

open Js Async Logged

/-- The guards let the product through. -/
def Sellable (number : Json → Option Rat) (p : Product) : Prop := (p.record number).guard = .ok ()

/-- The event writes or removes the product. -/
def Event.Changes (id : String) : Event → Prop
  | stored _ w => w.product.id = id
  | removed _ k => k = id
  | _ => False

section History

variable (number : Json → Option Rat) (s : Table Product)

/-- The product that a history over the table `s` leaves. -/
def current (id : String) : List Event → Option Product
  | [] => s.get id
  | .stored _ w :: l => if w.product.id = id then some w.product else current id l
  | .removed _ k :: l => if k = id then none else current id l
  | .asked _ _ :: l | .saw _ _ _ :: l | .answered _ _ :: l => current id l

/-- The request has found this before, or it has made up the id. -/
def Founded (i : Nat) (w : Write) (l : List Event) : Prop :=
  .saw i w.id w.existing ∈ l ∨ w.existing = none ∧ ∃ random, w.id = "p_" ++ hex 8 random

/-- The request has been asked for a save by a body with these fields. -/
def Named (i : Nat) (fields : Fields) (l : List Event) : Prop :=
  ∃ refusal body, .asked i (.save refusal (some body)) ∈ l ∧ Fields.read body = .ok fields

/-- What may happen after the history `l`. -/
def Allowed (l : List Event) : Event → Prop
  | .saw _ id found => current s id l = found ∧ ∀ p, found = some p → p.id = id
  | .stored i w =>
    Sellable number w.product ∧ w.product.id = w.id ∧ Founded i w l ∧ Named i w.fields l
  | .asked _ _ | .removed _ _ | .answered _ _ => True

/-- Every product is stored under its id, and has passed the guards. -/
def Stocked (t : Table Product) : Prop := ∀ id p, t.get id = some p → p.id = id ∧ Sellable number p

/-- The history of a world is legal, and says what its products are. -/
structure Traced (w : World) : Prop where
  legal : Throughout (Allowed number s) w.log
  products : ∀ id, w.products.get id = current s id w.log
  stocked : Stocked number w.products

end History

section Steps

variable {number : Json → Option Rat} {s : Table Product} {w : World} {l m : List Event} {id : String}

theorem current_other (h : ∀ e ∈ m, ¬ e.Changes id) : current s id (m ++ l) = current s id l := by
  induction m with
  | nil => rfl
  | cons e m ih =>
    have hrest := ih fun x hx => h x (List.mem_cons_of_mem e hx)
    have he := h e List.mem_cons_self
    cases e with
    | asked => exact hrest
    | saw => exact hrest
    | stored i v => exact (if_neg he).trans hrest
    | removed i k => exact (if_neg he).trans hrest
    | answered => exact hrest

/-- What a history leaves was left by what came before, or has been stored since. -/
theorem current_some (h : current s id (m ++ l) = some p) :
    (∃ j v, .stored j v ∈ m ∧ v.product = p) ∨ current s id l = some p := by
  induction m with
  | nil => exact .inr h
  | cons e m ih =>
    have hrest (h : current s id (m ++ l) = some p) :
        (∃ j v, .stored j v ∈ e :: m ∧ v.product = p) ∨ current s id l = some p :=
      (ih h).imp (fun ⟨j, v, hv, hp⟩ => ⟨j, v, List.mem_cons_of_mem e hv, hp⟩) fun h => h
    cases e with
    | asked => exact hrest h
    | saw => exact hrest h
    | stored i v =>
      rw [List.cons_append, current] at h
      split at h
      · exact .inl ⟨i, v, List.mem_cons_self, Option.some.inj h⟩
      · exact hrest h
    | removed i k =>
      rw [List.cons_append, current] at h
      split at h
      · cases h
      · exact hrest h
    | answered => exact hrest h

theorem Traced.start (hs : Stocked number s) : Traced number s { products := s } := ⟨.nil, fun _ => rfl, hs⟩

theorem Traced.saw (h : Traced number s w) (hf : w.products.get id = found) :
    Traced number s (w.emit (.saw i id found)) where
  legal := by
    refine .cons h.legal ⟨?_, fun p hp => ?_⟩
    · rw [← h.products, hf]
    · rw [hp] at hf
      exact (h.stocked id p hf).1
  products := h.products
  stocked := h.stocked

theorem Traced.asked (h : Traced number s w) : Traced number s (w.emit (.asked i q)) :=
  ⟨.cons h.legal trivial, h.products, h.stocked⟩

theorem Traced.answered (h : Traced number s w) : Traced number s (w.emit (.answered i r)) :=
  ⟨.cons h.legal trivial, h.products, h.stocked⟩

theorem Traced.stored (h : Traced number s w) (hv : Allowed number s w.log (.stored i v)) :
    Traced number s (w.store i v) where
  legal := .cons h.legal hv
  products id := by
    rw [World.store, Table.get_set, current, ← h.products id]
    split
    · next hid => rw [if_pos hid.symm]
    · next hid => rw [if_neg fun he => hid he.symm]
  stocked id p hp := by
    rw [World.store, Table.get_set] at hp
    split at hp
    · next hid =>
      cases hp
      exact ⟨hid.symm, hv.1⟩
    · exact h.stocked id p hp

theorem Traced.removed (h : Traced number s w) : Traced number s
    { w with products := w.products.delete k, log := .removed i k :: w.log } where
  legal := .cons h.legal trivial
  products id := by
    rw [Table.get_delete, current, ← h.products id]
    split
    · next hid => rw [if_pos hid.symm]
    · next hid => rw [if_neg fun he => hid he.symm]
  stocked id p hp := by
    rw [Table.get_delete] at hp
    split at hp
    · cases hp
    · exact h.stocked id p hp

end Steps

section Operations

variable {number : Json → Option Rat} {s : Table Product} {i : Nat} {id : String}
  {P : List Event → Prop} {w₀ w : World}

/-- What a request knows of the history of the products. -/
abbrev Known (number : Json → Option Rat) (s : Table Product) (P : List Event → Prop)
    (w₀ w : World) : Prop :=
  Knows World.log (Traced number s) P w₀ w

/-- A part of a request that keeps the history legal, and ends with `Q` where it does not throw. -/
abbrev Tracing (number : Json → Option Rat) (s : Table Product) (Q : β → World → World → Prop)
    (p : Action β) (w₀ w : World) : Prop := Logged.Keeps World.log (Traced number s) Q p w₀ w

/-- What a look-up has noted. -/
def Noted (i : Nat) (id : String) (l : List Event) : Found Product → Prop
  | .own p => .saw i id (some p) ∈ l ∧ p.id = id
  | .absent => .saw i id none ∈ l
  | .inherited => True

theorem noted_persistent (i : Nat) (id : String) (found : Found Product) :
    Logged.Persistent fun l => Noted i id l found := by
  cases found with
  | own p => exact .and (.mem _) (.const _)
  | absent => exact .mem _
  | inherited => exact .const _

theorem known_evaluate (h : Known number s P w₀ w) (x : Except Throw β) :
    Tracing number s (fun y w₀ w => x = .ok y ∧ Known number s P w₀ w) (evaluate x) w₀ w := by
  cases x with
  | ok y => exact ⟨rfl, h⟩
  | error e =>
    cases e
    exact h.ends _

theorem known_persist (h : Known number s P w₀ w) :
    Tracing number s (fun _ => Known number s P) persist w₀ w := by
  unfold persist
  refine h.wait.seq fun a t₀ t ht => ?_
  cases ha : a.ok with
  | false => exact ht.ends _
  | true =>
    refine ht.wait.seq fun b u₀ u hu => ?_
    cases hb : b.ok with
    | false => exact hu.ends _
    | true => exact hu

theorem known_getProduct (h : Known number s P w₀ w) (id : String) :
    Tracing number s (fun found => Known number s fun l => P l ∧ Noted i id l found)
      (getProduct i id) w₀ w := by
  unfold getProduct
  refine h.wait.seq fun a t₀ t ht => ?_
  have hP := ht.persistent.and (noted_persistent i id (t.look i id).1)
  have hsaw {found : Option Product} (hf : t.products.get id = found) :
      Extends World.log (Traced number s) t (t.emit (.saw i id found)) :=
    ⟨List.suffix_cons _ _, fun htraced => htraced.saw hf⟩
  obtain ⟨p, hfind, hget⟩ | ⟨hfind, -⟩ | ⟨hfind, hget⟩ := Table.find_cases t.prototype t.products id
  · have hlook : t.look i id = (.own p, t.emit (.saw i id (some p))) := by
      rw [World.look, World.find, hfind]
    have hp := (ht.inv.stocked id p hget).1
    rw [sat_updateGet]
    rw [hlook] at hP ⊢
    exact (ht.step (hsaw hget) ht.persistent fun h => h).mono hP fun hl => ⟨hl, List.mem_cons_self, hp⟩
  · have hlook : t.look i id = (.inherited, t) := by
      rw [World.look, World.find, hfind]
    rw [sat_updateGet]
    rw [hlook] at hP ⊢
    exact ht.mono hP fun hl => ⟨hl, trivial⟩
  · have hlook : t.look i id = (.absent, t.emit (.saw i id none)) := by
      rw [World.look, World.find, hfind]
    rw [sat_updateGet]
    rw [hlook] at hP ⊢
    exact (ht.step (hsaw hget) ht.persistent fun h => h).mono hP fun hl => ⟨hl, List.mem_cons_self⟩

theorem Write.guard_ok {v w : Write} (h : w.guard number = .ok v) : v = w ∧ Sellable number w.product := by
  rw [Write.guard] at h
  cases hg : (w.product.record number).guard with
  | error e =>
    rw [hg] at h
    cases h
  | ok u =>
    rw [hg] at h
    cases h
    exact ⟨rfl, hg⟩

/-- What a write goes back to: what the request has noted, or an id that it has made up, and the fields
of its body. -/
def Grounds (i : Nat) (id : String) (fields : Fields) (found : Found Product) (l : List Event) : Prop :=
  (Noted i id l found ∨ found = .absent ∧ ∃ random, id = "p_" ++ hex 8 random) ∧ Named i fields l

theorem allowed_of_guarded {found : Found Product} (hv : guarded number found fields id now = .ok v)
    (hl : Grounds i id fields found l) : Allowed number s l (.stored i v) := by
  obtain ⟨hl, hnamed⟩ := hl
  cases found with
  | own p =>
    obtain ⟨rfl, hsellable⟩ := Write.guard_ok hv
    rcases hl with ⟨hsaw, hid⟩ | ⟨hfound, -⟩
    · exact ⟨hsellable, hid, .inl hsaw, hnamed⟩
    · cases hfound
  | absent =>
    obtain ⟨rfl, hsellable⟩ := Write.guard_ok hv
    refine ⟨hsellable, rfl, ?_, hnamed⟩
    rcases hl with hsaw | ⟨-, hrandom⟩
    · exact .inl hsaw
    · exact .inr ⟨rfl, hrandom⟩
  | inherited => cases hv

theorem known_putProduct {found : Found Product} {fields : Fields} (h : Known number s P w₀ w)
    (hP : ∀ l, P l → Grounds i id fields found l) (now : Int) :
    Tracing number s (Logged.Ends World.log (Traced number s)) (putProduct number i found fields id now)
      w₀ w := by
  unfold putProduct
  cases hv : guarded number found fields id now with
  | error e => exact h.ends _
  | ok v =>
    refine h.wait.seq fun a t₀ t ht => ?_
    have hallowed := allowed_of_guarded (s := s) hv (hP t.log ht.known)
    have hstored : Known number s (fun _ => True) t₀ (t.store i v) :=
      (ht.ends ()).step ⟨List.suffix_cons _ _, fun htraced => htraced.stored hallowed⟩ (.const _) fun h => h
    rw [sat_bind, sat_update]
    exact (known_persist hstored).seq fun _ _ _ hu => hu.ends _

theorem known_deleteProduct (h : Known number s P w₀ w) (id : String) :
    Tracing number s (Logged.Ends World.log (Traced number s)) (deleteProduct i id) w₀ w := by
  unfold deleteProduct
  refine h.wait.seq fun a t₀ t ht => ?_
  rw [sat_bind, sat_updateGet]
  obtain ⟨p, hfind, -⟩ | ⟨hfind, -⟩ | ⟨hfind, -⟩ := Table.find_cases t.prototype t.products id
  · have hremove : t.remove i id =
        (true, { t with products := t.products.delete id, log := .removed i id :: t.log }) := by
      rw [World.remove, World.find, hfind]
    rw [hremove]
    refine known_persist ((ht.ends ()).step ⟨List.suffix_cons _ _, ?_⟩ (.const _) fun h => h)
    exact fun htraced => htraced.removed
  · have hremove : t.remove i id = (true, t) := by
      rw [World.remove, World.find, hfind]
    rw [hremove]
    exact known_persist (ht.ends ())
  · have hremove : t.remove i id = (false, t) := by
      rw [World.remove, World.find, hfind]
    rw [hremove]
    exact ht.ends _

end Operations

section Routes

variable {number : Json → Option Rat} {s : Table Product} {i : Nat} {id : String}
  {P : List Event → Prop} {w₀ w : World}

theorem known_listProducts (h : Known number s P w₀ w) (refusal : Option Reply) :
    Tracing number s (Logged.Ends World.log (Traced number s)) (listProducts refusal) w₀ w := by
  unfold listProducts
  refine h.wait.seq fun _ _ _ h => ?_
  cases refusal with
  | some r => exact h.ends _
  | none =>
    refine h.wait.seq fun _ _ _ h => ?_
    rw [sat_bind, sat_read]
    exact h.wait.seq fun _ _ _ h => h.ends _

theorem known_readProduct (h : Known number s P w₀ w) (refusal : Option Reply) (id : String) :
    Tracing number s (Logged.Ends World.log (Traced number s)) (readProduct i refusal id) w₀ w := by
  unfold readProduct
  refine h.wait.seq fun _ _ _ h => ?_
  cases refusal with
  | some r => exact h.ends _
  | none =>
    refine (known_getProduct h id).seq fun found _ _ h => ?_
    refine h.wait.seq fun _ _ _ h => ?_
    cases found with
    | own p => exact h.ends _
    | inherited => exact h.ends _
    | absent => exact h.ends _

theorem known_save {found : Found Product} {fields : Fields} (h : Known number s P w₀ w)
    (hP : ∀ l, P l → Grounds i id fields found l) (now : Int) :
    Tracing number s (Logged.Ends World.log (Traced number s))
      (saveProduct.save number i found fields id now) w₀ w := by
  unfold saveProduct.save
  refine (sat_tryCatch _ _ _ _).2 ?_
  refine Sat.mono (Q := Logged.Ends World.log (Traced number s)) ?_ (fun _ _ _ h => h) fun _ _ _ h => h
  refine (known_putProduct h hP now).seq fun saved _ _ h => ?_
  exact h.wait.seq fun _ _ _ h => h.ends _

theorem known_saveProduct {refusal : Option Reply} {body : Option Json} (h : Known number s P w₀ w)
    (hP : ∀ l, P l → .asked i (.save refusal body) ∈ l) :
    Tracing number s (Logged.Ends World.log (Traced number s)) (saveProduct number i refusal body)
      w₀ w := by
  unfold saveProduct
  refine h.wait.seq fun _ _ _ h => ?_
  cases refusal with
  | some r => exact h.ends _
  | none =>
    refine h.wait.seq fun a _ _ h => ?_
    cases body with
    | none => exact h.ends _
    | some body =>
      refine (known_evaluate h _).seq fun id _ _ ⟨_, h⟩ => ?_
      refine (known_evaluate h _).seq fun fields _ _ ⟨hfields, h⟩ => ?_
      have hnamed : ∀ l, P l → Named i fields l := fun l hl => ⟨none, body, hP l hl, hfields⟩
      split
      · refine (known_evaluate h _).seq fun id _ _ ⟨_, h⟩ => ?_
        refine (known_getProduct h id).seq fun found _ _ h => ?_
        refine h.wait.seq fun _ _ _ h => ?_
        exact known_save h (fun l hl => ⟨.inl hl.2, hnamed l hl.1⟩) a.clock
      · exact known_save h (fun l hl => ⟨.inr ⟨rfl, a.random, rfl⟩, hnamed l hl⟩) a.clock

theorem known_removeProduct (h : Known number s P w₀ w) (refusal : Option Reply) (body : Option Json) :
    Tracing number s (Logged.Ends World.log (Traced number s)) (removeProduct i refusal body)
      w₀ w := by
  unfold removeProduct
  refine h.wait.seq fun _ _ _ h => ?_
  cases refusal with
  | some r => exact h.ends _
  | none =>
    refine h.wait.seq fun a _ _ h => ?_
    cases body with
    | none => exact h.ends _
    | some body =>
      refine (known_evaluate h _).seq fun id _ _ ⟨_, h⟩ => ?_
      refine (known_evaluate h _).seq fun id _ _ ⟨_, h⟩ => ?_
      refine (known_getProduct h id).seq fun found _ _ h => ?_
      refine h.wait.seq fun _ _ _ h => ?_
      split
      · exact h.ends _
      · refine (known_deleteProduct h id).seq fun _ _ _ h => ?_
        exact h.wait.seq fun _ _ _ h => h.ends _

theorem known_handler (q : Request) (h : Known number s P w₀ w) (hP : ∀ l, P l → .asked i q ∈ l) :
    Tracing number s (Logged.Ends World.log (Traced number s)) (q.handler number i) w₀ w := by
  cases q with
  | list refusal => exact known_listProducts h refusal
  | read refusal id => exact known_readProduct h refusal id
  | save refusal body => exact known_saveProduct h hP
  | remove refusal body => exact known_removeProduct h refusal body

theorem known_serve (i : Nat) (q : Request) (h : Known number s P w₀ w) :
    Tracing number s (Logged.Ends World.log (Traced number s)) (serve number i q) w₀ w := by
  have hasked : Known number s (.asked i q ∈ ·) w₀ (w.emit (.asked i q)) :=
    (h.step ⟨List.suffix_cons _ _, fun htraced => htraced.asked⟩ (.const True) fun _ => trivial).mono
      (.mem _) fun _ => List.mem_cons_self
  have hanswer {t₀ t : World} (r : Reply) (h : Known number s (fun _ => True) t₀ t) :
      Known number s (fun _ => True) t₀ (t.emit (.answered i r)) :=
    h.step ⟨List.suffix_cons _ _, fun htraced => htraced.answered⟩ (.const _) fun h => h
  unfold serve
  refine (sat_bind _ _ _ _).2 ?_
  rw [sat_update]
  refine (sat_bind _ _ _ _).2 ((sat_tryCatch _ _ _ _).2 ?_)
  exact (known_handler q hasked fun l hl => hl).mono (fun r _ _ h => hanswer r h)
    fun _ _ _ h => hanswer _ h

end Routes

section Runs

variable {number : Json → Option Rat} {s : Table Product} {w : World}

theorem traced_run (hs : Stocked number s) (moves : List (Move Request Answer)) :
    Traced number s (Pool.run (serve number) ⟨{ products := s }, []⟩ moves).shared :=
  inv_run World.log (fun i q _ (_ : True) h => known_serve i q h) (Traced.start hs) moves fun _ _ => trivial

/-- What becomes of the products. Each is stored under its own id and has passed the guards. Each write
sets the fields that the body of its request names. It is of a new id, or it keeps what the body does
not name from the product that its request has found; that is what is stored still, unless another write
or a removal of the product has come between. And a product that has been removed is there again only
after it has been written again. -/
structure Kept (number : Json → Option Rat) (s : Table Product) (w : World) : Prop where
  stocked : Stocked number w.products
  named : ∀ m i v l, w.log = m ++ .stored i v :: l → Named i v.fields l
  derived : ∀ m i v l, w.log = m ++ .stored i v :: l →
    v.existing = none ∧ (∃ random, v.id = "p_" ++ hex 8 random) ∨
      ∃ m' l', l = m' ++ .saw i v.id v.existing :: l' ∧ current s v.id l' = v.existing ∧
        ((∀ e ∈ m', ¬ e.Changes v.id) → current s v.id l = v.existing)
  removed : ∀ m i id l p, w.log = m ++ .removed i id :: l → w.products.get id = some p →
    ∃ j v, .stored j v ∈ m ∧ v.product = p

theorem Traced.kept (h : Traced number s w) : Kept number s w where
  stocked := h.stocked
  named m i v l hlog := by
    have hlegal := h.legal
    rw [hlog] at hlegal
    exact hlegal.before.2.2.2
  derived m i v l hlog := by
    have hlegal := h.legal
    rw [hlog] at hlegal
    obtain ⟨-, -, hsaw | hnew, -⟩ := hlegal.before
    · right
      obtain ⟨m', l', rfl⟩ := List.append_of_mem hsaw
      have hsuffix : Throughout (Allowed number s) (m' ++ .saw i v.id v.existing :: l') := by
        cases hlegal.suffix with
        | cons hrest _ => exact hrest
      have hfound : current s v.id l' = v.existing := hsuffix.before.1
      exact ⟨m', l', rfl, hfound, fun hother => (current_other hother).trans hfound⟩
    · exact .inl hnew
  removed m i id l p hlog hp := by
    rw [h.products, hlog] at hp
    rcases current_some hp with hstored | hnone
    · exact hstored
    · rw [current, if_pos rfl] at hnone
      cases hnone

/-- In whatever order the panel's requests are served. -/
theorem products_kept (hs : Stocked number s) (moves : List (Move Request Answer)) :
    Kept number s (Pool.run (serve number) ⟨{ products := s }, []⟩ moves).shared :=
  (traced_run hs moves).kept

def sampleNumber : Json → Option Rat
  | .num "500" => some 500
  | .num "700" => some 700
  | _ => none

def sampleProduct : Product where
  id := "p_mug"
  name := some (.str "Mug")
  priceUsdCents := some (.num "500")
  inventory := some .null

def sampleTable : Table Product := ({} : Table Product).set "p_mug" sampleProduct

/-- One request lists the product while another sets its price. -/
def sampleMoves : List (Move Request Answer) :=
  [.call (.save none (some (.obj [("id", .str "p_mug"), ("status", .str "listed")]))),
    .call (.save none (some (.obj [("id", .str "p_mug"), ("price_usd_cents", .num "700")])))] ++
  (List.replicate 8 [.resume 0 {}, .resume 1 {}]).flatten

theorem products_kept_sample :
    let w := (Pool.run (serve sampleNumber) ⟨{ products := sampleTable }, []⟩ sampleMoves).shared
    Kept sampleNumber sampleTable w ∧
      (w.products.get "p_mug").any fun p =>
        p.name matches some (.str "Mug") && p.priceUsdCents matches some (.num "700") := by
  have hs : Stocked sampleNumber sampleTable := by
    intro id p h
    rw [sampleTable, Table.get_set] at h
    split at h
    · next hid =>
      cases h
      refine ⟨hid.symm, ?_⟩
      unfold Sellable
      decide +kernel
    · cases h
  exact ⟨products_kept hs sampleMoves, by decide +kernel⟩

end Runs

end Mise.Server.Products
