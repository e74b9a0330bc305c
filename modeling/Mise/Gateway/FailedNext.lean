import Mathlib.Logic.Function.Basic
import Mise.Async.Drive
import Mise.Gateway.Derive
import Mise.Gateway.IndexStore

set_option autoImplicit true

namespace Mise.Gateway

open Js

/-- The index stores of a gateway, by number. -/
abbrev IndexStores := Nat → World

def storeAt (n : Nat) : Part IndexStores World where
  get stores := stores n
  set w stores := Function.update stores n w
  get_set w stores := Function.update_self n w stores
  set_get stores := Function.update_eq_self n stores
  set_set w v stores := Function.update_idem v w stores

/-- What a request of the gateway fails with: a fault of the index store, or one of its own. -/
inductive Failure where
  | store (f : Fault)
  | request (f : Shop.Fault)

/-- The index that a reply to `allocate` carries. -/
def Reply.toIndex : Reply → Int
  | .index i => i
  | .bool _ => 0

namespace Handler

variable {κ : Type} (K : Keys κ)

/-- The operation `next` as the server awaits it. `now` is the clock when the index is asked for. -/
def nextAsync (h : Handler κ Nat) (q : Int) (i : Nat) (now : Int) :
    Async IndexStores Answer Failure SignedAddress := do
  let cur ← Async.ofExcept (h.active.mapError .request)
  match h.receiver cur.network with
  | none => MonadExcept.throw (.request (needReceiver cur.network))
  | some personal =>
    let reply ← Async.zoom (storeAt cur.store) id ((IndexStore.call q i (.allocate now)).mapError .store)
    Async.ofExcept ((h.recordFor K cur reply.toIndex personal).mapError .request)

end Handler

namespace IndexState

/-- The two states have the same indices. -/
structure Same (s t : IndexState) : Prop where
  next : t.next = s.next
  issued : t.issued = s.issued
  reclaimed : t.reclaimed = s.reclaimed

theorem Same.refl (s : IndexState) : s.Same s := ⟨rfl, rfl, rfl⟩

theorem Same.trans {s t u : IndexState} (h : s.Same t) (h' : t.Same u) : s.Same u :=
  ⟨h'.next.trans h.next, h'.issued.trans h.issued, h'.reclaimed.trans h.reclaimed⟩

theorem not_same_allocate (q now : Int) (s : IndexState) : ¬ s.Same (s.allocate q now).2 := by
  intro h
  rcases s.allocate_cases q now with ⟨r, l₁, l₂, hl, -, -, ha⟩ | ⟨-, ha⟩
  · have hlen := congrArg List.length h.reclaimed
    rw [ha, hl] at hlen
    simp at hlen
  · have hnext := h.next
    rw [ha] at hnext
    have hnext : s.next + 1 = s.next := hnext
    omega

end IndexState

namespace World

/-- The state in memory. A store that has not been loaded yet has what it would load. -/
def current (w : World) : IndexState :=
  match w.state with
  | some r => w.objects[r]?.getD .empty
  | none => w.onDisk

/-- `this.state` is one of the objects that were made. -/
def Referenced (w : World) : Prop := ∀ r, w.state = some r → r < w.objects.length

theorem referenced_opened (file : Option IndexState) : (opened file).Referenced := by
  intro r h
  cases h

/-- Neither the state in memory nor the one on disk has changed. -/
structure Same (w w' : World) : Prop where
  current : w.current.Same w'.current
  onDisk : w.onDisk.Same w'.onDisk

theorem Same.refl (w : World) : w.Same w := ⟨.refl _, .refl _⟩

theorem Same.trans {u v w : World} (h : u.Same v) (h' : v.Same w) : u.Same w :=
  ⟨h.current.trans h'.current, h.onDisk.trans h'.onDisk⟩

/-- The directory and the file of the state can be read, where they have to be. -/
def loads (xs : Nat → Answer) (w : World) : Bool :=
  w.state.isSome || ((xs 0).ok && (xs 2).ok)

/-- The temporary file can be written and renamed. A load has taken four answers before. -/
def saves (xs : Nat → Answer) (w : World) : Bool :=
  let ys := fun n => if w.state.isSome then xs n else xs (n + 4)
  (ys 1).ok && (ys 3).ok

end World

theorem drive_fileOp (f : World → Bool × World) (xs : Nat → Answer) (w : World) :
    (IndexStore.fileOp f).drive xs w =
      (if (xs 0).ok && (f w).1 then .ok () else .error .io,
        if (xs 0).ok then (f w).2 else w.emit (.failed .io), fun n => xs (n + 2)) := by
  unfold IndexStore.fileOp
  simp only [Async.drive_bind, Async.drive_wait, Async.drive_updateGet, Async.andThen]
  cases (xs 0).ok with
  | false => rfl
  | true => cases hf : (f w).1 <;> simp [hf]

theorem drive_load_unread (xs : Nat → Answer) {w : World} (hs : w.state = none) :
    IndexStore.load.drive xs w =
      if (xs 0).ok then
        if (xs 2).ok then (.ok w.objects.length, w.publish w.onDisk, fun n => xs (n + 4))
        else (.error .io, w.emit (.failed .io), fun n => xs (n + 3))
      else (.error .io, w.emit (.failed .io), fun n => xs (n + 2)) := by
  unfold IndexStore.load
  simp only [Async.drive_bind, Async.drive_read, Async.andThen, hs, drive_fileOp, Bool.and_true]
  cases h₀ : (xs 0).ok with
  | false => rfl
  | true =>
    simp only [if_true, Async.drive_wait]
    cases (xs (0 + 2)).ok with
    | false => rfl
    | true => rfl

theorem drive_load (xs : Nat → Answer) {w : World} (hw : w.Referenced) :
    (w.loads xs = false ∧ ∃ u ys, IndexStore.load.drive xs w = (.error .io, u, ys) ∧ w.Same u ∧
      u.Referenced) ∨
    (w.loads xs = true ∧ ∃ r u, IndexStore.load.drive xs w =
        (.ok r, u, fun n => if w.state.isSome then xs n else xs (n + 4)) ∧
      u.state = some r ∧ u.objects[r]? = some w.current ∧ u.Referenced) := by
  unfold World.loads
  cases hs : w.state with
  | some r =>
    obtain ⟨s, hr⟩ : ∃ s, w.objects[r]? = some s := ⟨_, List.getElem?_eq_getElem (hw r hs)⟩
    have hload : IndexStore.load.drive xs w = (.ok r, w, xs) := by
      unfold IndexStore.load
      simp only [Async.drive_bind, Async.drive_read, Async.andThen, hs, Async.drive_pure]
    have hcurrent : w.current = s := by
      rw [World.current, hs]
      dsimp only
      rw [hr, Option.getD_some]
    exact .inr ⟨rfl, r, w, hload, hs, hcurrent ▸ hr, hw⟩
  | none =>
    have hcurrent : w.current = w.onDisk := by
      rw [World.current, hs]
    have hfailed : w.Same (w.emit (.failed .io)) := ⟨⟨rfl, rfl, rfl⟩, ⟨rfl, rfl, rfl⟩⟩
    have hload := drive_load_unread xs hs
    cases h₀ : (xs 0).ok with
    | false =>
      rw [h₀] at hload
      exact .inl ⟨rfl, _, _, hload, hfailed, hw⟩
    | true =>
      rw [h₀] at hload
      cases h₂ : (xs 2).ok with
      | false =>
        rw [h₂] at hload
        exact .inl ⟨rfl, _, _, hload, hfailed, hw⟩
      | true =>
        rw [h₂] at hload
        refine .inr ⟨rfl, _, _, hload, rfl, ?_, fun r hr => ?_⟩
        · rw [hcurrent]
          simp [World.publish, World.emit]
        · cases hr
          simp [World.publish, World.emit]

theorem drive_persist (i : Nat) (clock : Int) (ys : Nat → Answer) (u : World) :
    ∃ v zs, (IndexStore.persist i clock).drive ys u =
        (if (ys 0).ok && (ys 2).ok then .ok () else .error .io, v, zs) ∧
      v.state = u.state ∧ v.objects = (u.serialise i clock).2.objects := by
  unfold IndexStore.persist
  simp only [Async.drive_bind, Async.drive_updateGet, Async.andThen, drive_fileOp, Bool.and_true]
  cases h₀ : (ys 0).ok with
  | false => exact ⟨_, _, rfl, rfl, rfl⟩
  | true =>
    have hrename (w : World) (tmp : Nat) (d : Snapshot) : (w.writeFile tmp d).rename tmp d.stamp =
        (true, (w.writeFile tmp d).replace tmp d (d.stamp = d.stamp ∧ w.saved.stamp ≤ d.stamp)) := by
      unfold World.rename World.writeFile
      rw [List.lookup_cons_self]
      rfl
    simp only [if_true, hrename, Bool.and_true, Bool.true_and]
    cases (ys (0 + 2)).ok with
    | false => exact ⟨_, _, rfl, rfl, rfl⟩
    | true => exact ⟨_, _, rfl, rfl, rfl⟩

theorem World.current_eq {v : World} (hst : v.state = some r) (hr : v.objects[r]? = some s) :
    v.current = s := by
  rw [World.current, hst]
  dsimp only
  rw [hr, Option.getD_some]

/-- The part of `allocate` after its load. -/
def afterLoad (q : Int) (i r : Nat) (now : Int) : Store Reply := do
  let a ← Async.wait
  match ← Async.updateGet (World.mutate q i r (.allocate now)) with
  | .ok reply =>
    if persists (.ok reply) then IndexStore.persist i a.clock
    pure reply
  | .error f => throw f

/-- What follows a load uses an index up, and succeeds if the file can be written. -/
theorem drive_afterLoad (q : Int) (i : Nat) (now : Int) (ys : Nat → Answer) {r : Nat} {u : World}
    {s : IndexState} (hst : u.state = some r) (hr : u.objects[r]? = some s) (hu : u.Referenced) :
    ∃ v zs, (afterLoad q i r now).drive ys u =
        (if (ys 1).ok && (ys 3).ok then .ok (.index (s.allocate q now).1) else .error .io, v, zs) ∧
      (s.allocate q now).2.Same v.current ∧ v.Referenced := by
  have hlt : r < u.objects.length := hu r hst
  have hmutate : (u.mutate q i r (.allocate now)).1 = .ok (.index (s.allocate q now).1) := by
    rw [World.mutate, hr]
    rfl
  have hobjects : (u.mutate q i r (.allocate now)).2.objects = u.objects.set r (s.allocate q now).2 := by
    rw [World.mutate, hr]
    rfl
  obtain ⟨v, zs, hv, hstate, hv'⟩ := drive_persist i (ys 0).clock (fun n => ys (n + 1))
    (u.mutate q i r (.allocate now)).2
  have hstate : v.state = some r := hstate.trans hst
  have hheld : (u.mutate q i r (.allocate now)).2.held = (s.allocate q now).2 := by
    have hst' : (u.mutate q i r (.allocate now)).2.state = some r := hst
    rw [World.held, hst', Option.bind_some, hobjects, List.getElem?_set_self hlt, Option.getD_some]
  refine ⟨v, zs, ?_, ?_, ?_⟩
  · unfold afterLoad
    simp only [Async.drive_bind, Async.drive_wait, Async.drive_updateGet, Async.andThen, hmutate,
      persists, if_true]
    rw [hv]
    cases (ys (0 + 1)).ok <;> cases (ys (2 + 1)).ok <;> rfl
  · have hcurrent : v.objects[r]? = some { (s.allocate q now).2 with updatedAt := some (ys 0).clock } := by
      have hst' : (u.mutate q i r (.allocate now)).2.state = some r := hst
      rw [hv']
      unfold World.serialise
      rw [hst', hheld, hobjects]
      simp [hlt]
    rw [World.current_eq hstate hcurrent]
    exact ⟨rfl, rfl, rfl⟩
  · intro r' hr'
    rw [hstate] at hr'
    cases hr'
    rw [hv']
    unfold World.serialise
    rw [hobjects]
    simpa using hlt

/-- An allocation fails without a trace where nothing can be loaded, and else uses an index up. -/
theorem drive_allocate (q : Int) (i : Nat) (now : Int) (xs : Nat → Answer) {w : World}
    (hw : w.Referenced) :
    ∃ x v zs, (IndexStore.call q i (.allocate now)).drive xs w = (x, v, zs) ∧ v.Referenced ∧
      if w.loads xs then
        ¬ w.Same v ∧
          x = if w.saves xs then .ok (.index (w.current.allocate q now).1) else .error .io
      else w.Same v ∧ x = .error .io := by
  have hcall : IndexStore.call q i (.allocate now) =
      IndexStore.load >>= fun r => afterLoad q i r now := rfl
  rw [hcall, Async.drive_bind]
  obtain ⟨hl, u, ys, hload, hsame, hu⟩ | ⟨hl, r, u, hload, hst, hr, hu⟩ := drive_load xs hw
  · rw [hload, hl]
    exact ⟨_, u, ys, rfl, hu, hsame, rfl⟩
  · obtain ⟨v, zs, hv, hsame, hv'⟩ := drive_afterLoad q i now
      (fun n => if w.state.isSome then xs n else xs (n + 4)) hst hr hu
    rw [hload, hl]
    refine ⟨_, v, zs, hv, hv', fun h => ?_, rfl⟩
    apply w.current.not_same_allocate q now
    exact h.current.trans ⟨hsame.next.symm, hsame.issued.symm, hsame.reclaimed.symm⟩

/-- The state of every chain is as it was. -/
def Unchanged (stores stores' : IndexStores) : Prop := ∀ n, (stores n).Same (stores' n)

theorem unchanged_update {stores : IndexStores} {n : Nat} {w : World} :
    Unchanged stores (Function.update stores n w) ↔ (stores n).Same w := by
  constructor
  · intro h
    have hn := h n
    rwa [Function.update_self] at hn
  · intro h m
    by_cases hm : m = n
    · rw [hm, Function.update_self]
      exact h
    · rw [Function.update_of_ne hm]
      exact .refl _

/-- A request for the next address, with the clock at which it asks for an index and with what its
file operations answer. -/
structure Request (κ : Type) where
  handler : Handler κ Nat
  call : Nat
  now : Int
  answers : Nat → Answer

namespace Request

variable {κ : Type} (K : Keys κ) (q : Int)

def answer (r : Request κ) (stores : IndexStores) : Except Failure SignedAddress × IndexStores :=
  let x := (r.handler.nextAsync K q r.call r.now).drive r.answers stores
  (x.1, x.2.1)

/-- The stores after some requests, one after another. -/
def served (requests : List (Request κ)) (stores : IndexStores) : IndexStores :=
  requests.foldl (fun stores r => (r.answer K q stores).2) stores

/-- Where the request has a chain and a receiver, and the state of the chain can be read, the state
can be written as well, and the record of the index that is next can be derived and signed. -/
def Spared (r : Request κ) (stores : IndexStores) : Prop :=
  ∀ cur personal, r.handler.active = .ok cur → r.handler.receiver cur.network = some personal →
    (stores cur.store).loads r.answers = true →
      (stores cur.store).saves r.answers = true ∧
        ∃ record, r.handler.recordFor K cur ((stores cur.store).current.allocate q r.now).1 personal =
          .ok record

variable {K q}

theorem answer_before {r : Request κ} {stores : IndexStores}
    (h : ∀ cur personal, r.handler.active = .ok cur →
      r.handler.receiver cur.network ≠ some personal) :
    (r.answer K q stores).2 = stores := by
  unfold answer Handler.nextAsync
  simp only [Async.drive_bind, Async.drive_ofExcept]
  cases ha : r.handler.active with
  | error e => rfl
  | ok cur =>
    simp only [Except.mapError, Async.andThen]
    cases hr : r.handler.receiver cur.network with
    | none => rfl
    | some personal => exact absurd hr (h cur personal ha)

/-- A request that comes to its chain is answered as the index store and the keys have it. -/
theorem answer_chain {r : Request κ} {stores : IndexStores} (ha : r.handler.active = .ok cur)
    (hr : r.handler.receiver cur.network = some personal)
    (hx : (IndexStore.call q r.call (.allocate r.now)).drive r.answers (stores cur.store) = (x, v, zs)) :
    r.answer K q stores =
      ((x.mapError Failure.store).bind fun reply =>
        (r.handler.recordFor K cur reply.toIndex personal).mapError .request,
        Function.update stores cur.store v) := by
  unfold answer Handler.nextAsync
  simp only [Async.drive_bind, Async.drive_ofExcept, ha, Except.mapError, Async.andThen, hr,
    Async.drive_zoom, Async.drive_mapError, storeAt, hx]
  cases x with
  | error f => rfl
  | ok reply => cases r.handler.recordFor K cur reply.toIndex personal <;> rfl

theorem answer_referenced (r : Request κ) {stores : IndexStores} (hs : ∀ n, (stores n).Referenced) :
    ∀ n, ((r.answer K q stores).2 n).Referenced := by
  by_cases h : ∃ cur personal, r.handler.active = .ok cur ∧
      r.handler.receiver cur.network = some personal
  · obtain ⟨cur, personal, ha, hr⟩ := h
    obtain ⟨x, v, zs, hx, hv, -⟩ := drive_allocate q r.call r.now r.answers (hs cur.store)
    rw [answer_chain ha hr hx]
    dsimp only
    intro n
    by_cases hn : n = cur.store
    · rw [hn, Function.update_self]
      exact hv
    · rw [Function.update_of_ne hn]
      exact hs n
  · rw [answer_before fun cur personal ha hr => h ⟨cur, personal, ha, hr⟩]
    exact hs

/-- A request that fails leaves everything as it is exactly if it is spared what can fail once an
index has been taken. -/
theorem unchanged_iff_spared (r : Request κ) {stores : IndexStores} (hs : ∀ n, (stores n).Referenced) :
    (∀ e, (r.answer K q stores).1 = .error e → Unchanged stores (r.answer K q stores).2) ↔
      r.Spared K q stores := by
  by_cases h : ∃ cur personal, r.handler.active = .ok cur ∧
      r.handler.receiver cur.network = some personal
  · obtain ⟨cur, personal, ha, hr⟩ := h
    obtain ⟨x, v, zs, hx, -, hout⟩ := drive_allocate q r.call r.now r.answers (hs cur.store)
    have hspared : r.Spared K q stores ↔ ((stores cur.store).loads r.answers = true →
        (stores cur.store).saves r.answers = true ∧ ∃ record, r.handler.recordFor K cur
          ((stores cur.store).current.allocate q r.now).1 personal = .ok record) := by
      constructor
      · intro h
        exact h cur personal ha hr
      · intro h cur' personal' ha' hr'
        rw [ha] at ha'
        cases ha'
        rw [hr] at hr'
        cases hr'
        exact h
    rw [hspared, answer_chain ha hr hx]
    dsimp only
    rw [unchanged_update]
    cases hl : (stores cur.store).loads r.answers with
    | false =>
      rw [hl] at hout
      exact ⟨fun _ he => absurd he Bool.false_ne_true, fun _ _ _ => hout.1⟩
    | true =>
      rw [hl] at hout
      obtain ⟨hchanged, rfl⟩ := hout
      cases hw : (stores cur.store).saves r.answers with
      | false =>
        constructor
        · intro h
          exact absurd (h _ rfl) hchanged
        · intro h
          exact absurd (h rfl).1 Bool.false_ne_true
      | true =>
        change (∀ e, (r.handler.recordFor K cur
          ((stores cur.store).current.allocate q r.now).1 personal).mapError Failure.request =
            .error e → _) ↔ _
        cases r.handler.recordFor K cur ((stores cur.store).current.allocate q r.now).1 personal with
        | ok record =>
          constructor
          · intro _ _
            exact ⟨rfl, record, rfl⟩
          · intro _ e he
            cases he
        | error f =>
          constructor
          · intro h
            exact absurd (h _ rfl) hchanged
          · intro h
            obtain ⟨-, record, he⟩ := h rfl
            cases he
  · rw [answer_before fun cur personal ha hr => h ⟨cur, personal, ha, hr⟩]
    constructor
    · intro _ cur personal ha hr
      exact absurd ⟨cur, personal, ha, hr⟩ h
    · intro _ _ _ n
      exact .refl _

theorem served_referenced (requests : List (Request κ)) {stores : IndexStores}
    (hs : ∀ n, (stores n).Referenced) : ∀ n, (served K q requests stores n).Referenced := by
  induction requests generalizing stores with
  | nil => exact hs
  | cons r requests ih => exact ih (answer_referenced r hs)

variable (K q)

/-- In a run of requests, those that fail leave everything as it is exactly if every one is spared,
and so any number of spared requests that fail do not move a chain. -/
theorem failed_next_consumes_nothing_iff (requests : List (Request κ)) (stores : IndexStores)
    (hs : ∀ n, (stores n).Referenced) :
    ((∀ before r after, requests = before ++ r :: after → ∀ e,
        (r.answer K q (served K q before stores)).1 = .error e →
          Unchanged (served K q before stores) (r.answer K q (served K q before stores)).2) ↔
      ∀ before r after, requests = before ++ r :: after →
        r.Spared K q (served K q before stores)) ∧
    ((∀ before r after, requests = before ++ r :: after →
        r.Spared K q (served K q before stores) ∧
          ∃ e, (r.answer K q (served K q before stores)).1 = .error e) →
      Unchanged stores (served K q requests stores)) := by
  have hstep (before : List (Request κ)) (r : Request κ) :=
    unchanged_iff_spared (K := K) (q := q) r (@served_referenced κ K q before stores hs)
  constructor
  · constructor
    · intro h before r after hl
      exact (hstep before r).1 (h before r after hl)
    · intro h before r after hl
      exact (hstep before r).2 (h before r after hl)
  · intro h
    induction requests using List.reverseRecOn with
    | nil => exact fun n => .refl _
    | append_singleton requests r ih =>
      have hbefore := ih fun before r' after hl =>
        h before r' (after ++ [r]) (by rw [hl, List.append_assoc]; rfl)
      obtain ⟨hspared, e, he⟩ := h requests r [] rfl
      have hlast := (hstep requests r).2 hspared e he
      have hserved : served K q (requests ++ [r]) stores =
          (r.answer K q (served K q requests stores)).2 := by
        rw [served, List.foldl_append]
        rfl
      rw [hserved]
      intro n
      exact (hbefore n).trans (hlast n)

section Sample

/-- Keys that know no other payment code than one, and file operations that all succeed. -/
def strictKeys : Keys Unit where
  paymentCode _ := "PM8TStore"
  paymentAddress _ code _ i _ :=
    if code = "PM8TPersonal" then .ok ("bc1q" ++ toString i) else .error "Invalid payment code"
  sign _ text := .ok text

def walletRequest (personalCode : Option String) : Request Unit where
  handler := ⟨.wallet ⟨(), "bitcoin"⟩ 0, personalCode, .p2wpkh⟩
  call := 0
  now := 0
  answers _ := {}

theorem failed_next_unbound :
    Unchanged (fun _ => .opened none)
      (served strictKeys 0 [walletRequest none, walletRequest none] fun _ => .opened none) := by
  apply (failed_next_consumes_nothing_iff strictKeys 0 [walletRequest none, walletRequest none]
    (fun _ => .opened none) fun _ => World.referenced_opened none).2
  intro before r after hl
  have hr : r ∈ [walletRequest none, walletRequest none] := by
    rw [hl]
    exact List.mem_append_right before List.mem_cons_self
  have hr : r = walletRequest none := by simpa using hr
  subst hr
  constructor
  · intro cur personal ha hr
    cases ha
    cases hr
  · exact ⟨_, rfl⟩

/-- The receiver of the environment is no payment code: the address cannot be derived, and its index
is gone. -/
theorem failed_next_consumes :
    ¬ ∀ (κ : Type) (K : Keys κ) (q : Int) (r : Request κ) (stores : IndexStores),
      (∀ n, (stores n).Referenced) → ∀ e, (r.answer K q stores).1 = .error e →
        Unchanged stores (r.answer K q stores).2 := by
  intro h
  have hout : ((walletRequest (some "PM8")).answer strictKeys 0 fun _ => .opened none).1.toOption.isNone ∧
      (((walletRequest (some "PM8")).answer strictKeys 0 fun _ => .opened none).2 0).current.next = 1 := by
    decide +kernel
  obtain ⟨hfails, hnext⟩ := hout
  cases he : ((walletRequest (some "PM8")).answer strictKeys 0 fun _ => .opened none).1 with
  | ok record =>
    rw [he] at hfails
    cases hfails
  | error e =>
    have hsame := h Unit strictKeys 0 (walletRequest (some "PM8")) (fun _ => .opened none)
      (fun _ => World.referenced_opened none) e he 0
    have hzero := hsame.current.next
    rw [hnext] at hzero
    cases hzero

end Sample

end Request

end Mise.Gateway
