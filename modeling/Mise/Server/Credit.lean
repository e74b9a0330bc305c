import Mise.Gateway.Chain
import Mise.Js.JsonLaws
import Mise.Server.Store

set_option autoImplicit true

namespace Mise.Server
open Js Gateway

namespace Store

/-- `putInvoice` where the id may be `__proto__`, which is no key of the table: assigning to it sets
the prototype of the table. -/
def storeInvoice (maxAge : Int) (rec : InvoiceRecord) (s : Store) : Except Fault Store :=
  if rec.id = "__proto__" then (rec.guard maxAge).map fun _ => s else s.putInvoice maxAge rec

/-- `Object.values` of the invoices. -/
def listInvoices (s : Store) : List InvoiceRecord := (inKeyOrder s.invoices.entries).map Prod.snd

def invoiceByAddress (address network : String) (s : Store) : Option InvoiceRecord :=
  if address = "" ∨ network = "" then none
  else s.listInvoices.find? fun i => i.address = some address ∧ i.network = some network

end Store

/-- A shop's indices on one chain and its invoices. `allotted` are the indices that were allocated,
each with the id of the invoice it is for, and `stored` the invoices in the order in which they were
stored, the last one first. -/
structure Shop where
  indices : Chain := {}
  store : Store := {}
  allotted : List (String × Int) := []
  stored : List InvoiceRecord := []

/-- What happens in a shop. `now` is the time of the call, `clock` that of its write. -/
inductive Order where
  | allocate (id : String) (now clock : Int)
  | release (index now clock : Int)
  | put (rec : InvoiceRecord)

namespace Shop

variable (q maxAge : Int) (record : Int → SignedAddress)

/-- Each invoice has one index, and carries the record that the gateway gives for it. -/
def step (s : Shop) : Order → Shop
  | .allocate id now clock =>
    if (s.allotted.lookup id).isSome then s
    else match s.indices.call q clock (.allocate now) with
    | (.ok (.index i), indices) => { s with indices, allotted := (id, i) :: s.allotted }
    | (_, indices) => { s with indices }
  | .release index now clock => { s with indices := (s.indices.call q clock (.release index now)).2 }
  | .put rec =>
    if (s.allotted.lookup rec.id).any fun i => rec.addressRecord = some (record i) then
      match s.store.storeInvoice maxAge rec with
      | .ok store => { s with store, stored := rec :: s.stored }
      | .error _ => s
    else s

def run (orders : List Order) : Shop := orders.foldl (step q maxAge record) {}

/-- What is stored under each id, the last one first. -/
def current : List InvoiceRecord → List InvoiceRecord
  | [] => []
  | rec :: stored => rec :: (current stored).filter (·.id ≠ rec.id)

def For (address network : String) (rec : InvoiceRecord) : Prop :=
  rec.address = some address ∧ rec.network = some network

instance (address network : String) (rec : InvoiceRecord) : Decidable (For address network rec) :=
  inferInstanceAs (Decidable (_ ∧ _))

/-- The invoice that was stored most recently for the address. -/
def latest (s : Shop) (address network : String) : Option InvoiceRecord :=
  (current s.stored).find? fun rec => For address network rec

/-- The address record names the network. -/
def Names (network : String) (rec : InvoiceRecord) : Prop :=
  ∃ signed, rec.addressRecord = some signed ∧ signed.network = some network

/-- A payment to the address is credited to the invoice stored most recently for it, and that
invoice's record is of the network. -/
def Credits (s : Shop) (address network : String) : Prop :=
  ∀ rec, s.latest address network = some rec →
    s.store.invoiceByAddress address network = some rec ∧ Names network rec

/-- The ids in the order of the table's keys: array indices by their size, then the others in the
order in which they were first stored. -/
def keyOrder (stored : List InvoiceRecord) : List String :=
  (inKeyOrder (((stored.filter (·.id ≠ "__proto__")).map (·.id)).dedup.reverse.map (·, ()))).map Prod.fst

/-- The invoice comes before every other one that is stored for its address, and its record is of
its network. -/
structure First (s : Shop) (network : String) (rec : InvoiceRecord) : Prop where
  names : Names network rec
  listed : rec.id ≠ "__proto__"
  before : ∀ other ∈ current s.stored, other.id ≠ rec.id → other.id ≠ "__proto__" →
    other.address = rec.address → other.network = rec.network →
      [rec.id, other.id].Sublist (keyOrder s.stored)

section Guard

theorem not_refused {more : Unit → Except Fault Unit} :
    ((Except.error e : Except Fault Unit) >>= more) ≠ .ok () := by
  intro h
  cases h

theorem refuse_ok {c : Prop} [Decidable c] {more : Unit → Except Fault Unit}
    (h : (if c then (Except.error e : Except Fault Unit) >>= more else more ()) = .ok ()) :
    ¬ c ∧ more () = .ok () := by
  by_cases hc : c
  · rw [if_pos hc] at h
    exact absurd h not_refused
  · rw [if_neg hc] at h
    exact ⟨hc, h⟩

theorem guard_ok {rec : InvoiceRecord} (h : rec.guard maxAge = .ok ()) :
    rec.address ≠ some "" ∧ rec.network ≠ some "" := by
  unfold InvoiceRecord.guard at h
  obtain ⟨-, h⟩ := refuse_ok h
  obtain ⟨hnetwork, h⟩ := refuse_ok h
  constructor
  · cases hr : rec.addressRecord with
    | none =>
      rw [hr] at h
      exact absurd h not_refused
    | some a =>
      rw [hr] at h
      obtain ⟨signed, address, network⟩ := a
      cases signed with
      | none => exact absurd h not_refused
      | some signed =>
        cases address with
        | none => exact absurd h not_refused
        | some address =>
          obtain ⟨hsigned, h⟩ := refuse_ok h
          obtain ⟨haddress, -⟩ := refuse_ok h
          rw [not_not.1 haddress]
          exact fun he => hsigned (.inr (Option.some.inj he))
  · intro hn
    rw [hn] at hnetwork
    exact hnetwork ⟨by decide, by decide⟩

end Guard

section Current

variable {rec : InvoiceRecord} {stored : List InvoiceRecord}

theorem mem_current : rec ∈ current stored ↔ stored.find? (·.id = rec.id) = some rec := by
  induction stored with
  | nil => simp [current]
  | cons first stored ih =>
    rw [current, List.mem_cons, List.mem_filter, ih, List.find?_cons]
    by_cases hid : first.id = rec.id
    · simp only [hid, decide_true, Option.some.injEq]
      constructor
      · rintro (rfl | ⟨-, hne⟩)
        · rfl
        · simp at hne
      · intro h
        exact .inl h.symm
    · have hne : rec ≠ first := fun h => hid (by rw [h])
      have hid' : rec.id ≠ first.id := fun h => hid h.symm
      simp [hid, hid', hne]

/-- What can be found among the keys of the table. -/
def listed (stored : List InvoiceRecord) : List InvoiceRecord := stored.filter (·.id ≠ "__proto__")

theorem find_listed {id : String} (hid : id ≠ "__proto__") :
    (listed stored).find? (·.id = id) = stored.find? (·.id = id) := by
  rw [listed, List.find?_filter]
  congr 1
  funext rec
  by_cases h : rec.id = id
  · simp [h, hid]
  · simp [h]

end Current

/-- The table holds what was stored last under each id, in the order of first storing. -/
structure Kept (s : Shop) : Prop where
  get : ∀ id, s.store.invoices.get id = (listed s.stored).find? (·.id = id)
  keys : s.store.invoices.keys = ((listed s.stored).map (·.id)).dedup.reverse
  guarded : ∀ rec ∈ s.stored, rec.address ≠ some "" ∧ rec.network ≠ some ""

theorem Kept.put {s : Shop} {rec : InvoiceRecord} {after : Store} (h : Kept s) (hstore : s.store.storeInvoice maxAge rec = .ok after) :
    Kept { s with store := after, stored := rec :: s.stored } := by
  have hguard : rec.guard maxAge = .ok () := by
    unfold Store.storeInvoice Store.putInvoice at hstore
    cases hg : rec.guard maxAge with
    | ok _ => rfl
    | error e => rw [hg] at hstore; split at hstore <;> exact absurd hstore (by simp [Except.map])
  have hguarded : ∀ r ∈ rec :: s.stored, r.address ≠ some "" ∧ r.network ≠ some "" :=
    List.forall_mem_cons.2 ⟨guard_ok maxAge hguard, h.guarded⟩
  rw [Store.storeInvoice, Store.putInvoice, hguard] at hstore
  by_cases hid : rec.id = "__proto__"
  · rw [if_pos hid] at hstore
    cases hstore
    have hlisted : listed (rec :: s.stored) = listed s.stored := by simp [listed, hid]
    exact ⟨fun id => by rw [hlisted]; exact h.get id, by rw [hlisted]; exact h.keys, hguarded⟩
  · rw [if_neg hid] at hstore
    cases hstore
    have hlisted : listed (rec :: s.stored) = rec :: listed s.stored := by simp [listed, hid]
    refine ⟨fun id => ?_, ?_, hguarded⟩
    · rw [hlisted, Table.get_set, List.find?_cons, h.get]
      by_cases hk : id = rec.id
      · simp [hk]
      · have hk' : rec.id ≠ id := fun e => hk e.symm
        simp [hk, hk']
    · have hkeys : s.store.invoices.entries.map Prod.fst = _ := h.keys
      refine (Table.keys_put rec.id rec s.store.invoices.entries).trans ?_
      rw [hkeys, hlisted, List.map_cons]
      by_cases hin : rec.id ∈ (listed s.stored).map (·.id)
      · rw [if_pos (List.mem_reverse.2 (List.mem_dedup.2 hin)), List.dedup_cons_of_mem hin]
      · have hout : rec.id ∉ ((listed s.stored).map (·.id)).dedup.reverse := fun hmem =>
          hin (List.mem_dedup.1 (List.mem_reverse.1 hmem))
        rw [if_neg hout, List.dedup_cons_of_notMem hin, List.reverse_cons]

theorem Kept.step {s : Shop} (h : Kept s) (order : Order) : Kept (s.step q maxAge record order) := by
  cases order with
  | allocate id now clock =>
    unfold Shop.step
    dsimp only
    split
    · exact h
    · split <;> exact ⟨h.get, h.keys, h.guarded⟩
  | release index now clock => exact ⟨h.get, h.keys, h.guarded⟩
  | put rec =>
    unfold Shop.step
    dsimp only
    split
    · split
      · next hstore => exact h.put maxAge hstore
      · exact h
    · exact h

theorem kept (orders : List Order) : Kept (run q maxAge record orders) := by
  suffices ∀ s, Kept s → Kept (orders.foldl (step q maxAge record) s) by
    exact this {} ⟨fun _ => rfl, rfl, fun _ h => absurd h List.not_mem_nil⟩
  intro s h
  induction orders generalizing s with
  | nil => exact h
  | cons order orders ih => exact ih _ (h.step q maxAge record order)

section Lookup

variable {s : Shop} {rec : InvoiceRecord}

theorem Kept.mem_entries (h : Kept s) {x : String × InvoiceRecord} :
    x ∈ s.store.invoices.entries ↔
      x.1 = x.2.id ∧ x.2.id ≠ "__proto__" ∧ x.2 ∈ current s.stored := by
  have hget : x ∈ s.store.invoices.entries ↔ s.store.invoices.get x.1 = some x.2 :=
    ⟨Table.get_of_mem, Table.mem_of_lookup⟩
  rw [hget, h.get]
  constructor
  · intro hfind
    have hid : x.2.id = x.1 := by simpa using List.find?_some hfind
    have hmem := List.mem_of_find?_eq_some hfind
    have hproto : x.2.id ≠ "__proto__" := by simpa using (List.mem_filter.1 hmem).2
    rw [← hid, find_listed hproto] at hfind
    exact ⟨hid.symm, hproto, mem_current.2 hfind⟩
  · rintro ⟨hid, hproto, hmem⟩
    rw [hid, find_listed hproto]
    exact mem_current.1 hmem

theorem Kept.keys_inKeyOrder (h : Kept s) :
    (inKeyOrder s.store.invoices.entries).map Prod.fst = keyOrder s.stored := by
  have hmap := inKeyOrder_map (fun _ : InvoiceRecord => ()) s.store.invoices.entries
  have hkeys : s.store.invoices.entries.map (Prod.map id fun _ => ()) =
      (((listed s.stored).map (·.id)).dedup.reverse).map (·, ()) := by
    rw [← h.keys, Table.keys, List.map_map]
    rfl
  rw [keyOrder, ← listed, ← hkeys, hmap, List.map_map]
  rfl

theorem nodup_keyOrder (h : Kept s) : (keyOrder s.stored).Nodup := by
  rw [← h.keys_inKeyOrder]
  exact ((perm_inKeyOrder _).map Prod.fst).nodup_iff.2 s.store.invoices.nodup

theorem not_before {x y : String} {l r : List String} (hn : (l ++ x :: r).Nodup) (hy : y ∈ l) :
    ¬ [x, y].Sublist (l ++ x :: r) := by
  obtain ⟨-, hr, hdisjoint⟩ := List.nodup_append.1 hn
  intro hsub
  obtain ⟨a, b, hab, ha, hb⟩ := List.sublist_append_iff.1 hsub
  cases a with
  | nil =>
    rw [List.nil_append] at hab
    have hmem : y ∈ b := by
      rw [← hab]
      exact List.mem_cons_of_mem _ List.mem_cons_self
    exact hdisjoint y hy y (hb.subset hmem) rfl
  | cons x' a =>
    obtain ⟨rfl, -⟩ := List.cons.inj hab
    exact hdisjoint x (ha.subset List.mem_cons_self) x List.mem_cons_self rfl

theorem Kept.lookup (h : Kept s) (hrec : rec ∈ current s.stored)
    (hfor : For address network rec) : s.store.invoiceByAddress address network = some rec ↔
      rec.id ≠ "__proto__" ∧ ∀ other ∈ current s.stored, other.id ≠ rec.id →
        other.id ≠ "__proto__" → For address network other →
          [rec.id, other.id].Sublist (keyOrder s.stored) := by
  have hstored : rec ∈ s.stored := List.mem_of_find?_eq_some (mem_current.1 hrec)
  obtain ⟨haddress, hnetwork⟩ := h.guarded rec hstored
  have hsome : ¬ (address = "" ∨ network = "") := by
    rintro (rfl | rfl)
    · exact haddress hfor.1
    · exact hnetwork hfor.2
  have hperm := perm_inKeyOrder s.store.invoices.entries
  have hnodup := nodup_keyOrder h
  rw [← h.keys_inKeyOrder] at hnodup ⊢
  rw [Store.invoiceByAddress, if_neg hsome, Store.listInvoices, List.find?_map, Option.map_eq_some_iff]
  constructor
  · rintro ⟨x, hx, rfl⟩
    obtain ⟨-, as, bs, hsplit, has⟩ := List.find?_eq_some_iff_append.1 hx
    have hmem : x ∈ inKeyOrder s.store.invoices.entries := by
      rw [hsplit]
      exact List.mem_append_right _ List.mem_cons_self
    obtain ⟨hid, hproto, -⟩ := h.mem_entries.1 (hperm.mem_iff.1 hmem)
    refine ⟨hproto, fun other hother hne hproto' hfor' => ?_⟩
    have hin : (other.id, other) ∈ inKeyOrder s.store.invoices.entries :=
      hperm.mem_iff.2 (h.mem_entries.2 ⟨rfl, hproto', hother⟩)
    rw [hsplit, List.mem_append, List.mem_cons] at hin
    obtain hin | hin | hin := hin
    · have hnot := has _ hin
      rw [Bool.not_eq_true', Function.comp_apply, decide_eq_false_iff_not] at hnot
      exact absurd hfor' hnot
    · exact absurd (by rw [← hin]) hne
    · rw [hsplit, List.map_append, List.map_cons, hid]
      apply List.Sublist.trans _ (List.sublist_append_right _ _)
      exact (List.singleton_sublist.2 (List.mem_map_of_mem (f := Prod.fst) hin)).cons_cons _
  · rintro ⟨hproto, hbefore⟩
    have hin : (rec.id, rec) ∈ inKeyOrder s.store.invoices.entries :=
      hperm.mem_iff.2 (h.mem_entries.2 ⟨rfl, hproto, hrec⟩)
    obtain ⟨as, bs, hsplit⟩ := List.append_of_mem hin
    refine ⟨(rec.id, rec), List.find?_eq_some_iff_append.2 ⟨by simpa [For] using hfor, as, bs, hsplit, ?_⟩, rfl⟩
    intro x hx
    have hmem : x ∈ inKeyOrder s.store.invoices.entries := by
      rw [hsplit]
      exact List.mem_append_left _ hx
    obtain ⟨hid, hproto', hcurrent⟩ := h.mem_entries.1 (hperm.mem_iff.1 hmem)
    rw [hsplit, List.map_append, List.map_cons] at hnodup hbefore
    have hkey : x.1 ∈ as.map Prod.fst := List.mem_map_of_mem hx
    by_contra hmatch
    have hfor' : For address network x.2 := by simpa [For] using hmatch
    have hne : x.2.id ≠ rec.id := by
      rw [← hid]
      intro he
      exact (List.nodup_append.1 hnodup).2.2 _ hkey _ List.mem_cons_self he
    exact not_before hnodup hkey (hid ▸ hbefore x.2 hcurrent hne hproto' hfor')

end Lookup

/-- In every run, payments to an address are credited to the invoice that was stored most recently
for it, exactly if that invoice comes first among those that are stored for the address and its
record is of its network. -/
theorem credits_iff (orders : List Order) (address network : String) :
    (run q maxAge record orders).Credits address network ↔
      ∀ rec, (run q maxAge record orders).latest address network = some rec →
        (run q maxAge record orders).First network rec := by
  have h := kept q maxAge record orders
  constructor
  · intro hcredits rec hlatest
    obtain ⟨hlookup, hnames⟩ := hcredits rec hlatest
    have hfor : For address network rec := by simpa using List.find?_some hlatest
    obtain ⟨hlisted, hbefore⟩ := (h.lookup (List.mem_of_find?_eq_some hlatest) hfor).1 hlookup
    refine ⟨hnames, hlisted, fun other hother hne hproto ha hn => ?_⟩
    exact hbefore other hother hne hproto ⟨ha.trans hfor.1, hn.trans hfor.2⟩
  · intro hfirst rec hlatest
    have hfor : For address network rec := by simpa using List.find?_some hlatest
    have hf := hfirst rec hlatest
    refine ⟨(h.lookup (List.mem_of_find?_eq_some hlatest) hfor).2 ⟨hf.listed, ?_⟩, hf.names⟩
    intro other hother hne hproto hother'
    exact hf.before other hother hne hproto (hother'.1.trans hfor.1.symm) (hother'.2.trans hfor.2.symm)

/-- An invoice for the address of index 0. -/
def sampleInvoice (id : String) : InvoiceRecord where
  id
  network := some "bitcoin"
  address := some "1Q0"
  addressRecord := some ⟨some "H", some "1Q0", some "bitcoin"⟩
  amountSats := some 33316
  rateUsd := some 60000
  createdAt := .at 0
  rateAt := .at 0

def sampleRecord (i : Int) : SignedAddress := ⟨some "H", some ("1Q" ++ toString i), some "bitcoin"⟩

/-- An invoice expires, its index rests for a day, and another invoice gets it. -/
def reissued : List Order :=
  [.allocate "a" 0 0, .put (sampleInvoice "a"), .release 0 900000 900000,
    .allocate "b" 87300000 87300000, .put (sampleInvoice "b")]

/-- A payment for the second invoice is credited to the first. -/
theorem credits_expired : ¬ (run 86400000 900000 sampleRecord reissued).Credits "1Q0" "bitcoin" := by
  intro h
  have hlatest : (run 86400000 900000 sampleRecord reissued).latest "1Q0" "bitcoin" =
      some (sampleInvoice "b") := by decide +kernel
  have hlookup : (run 86400000 900000 sampleRecord reissued).store.invoiceByAddress "1Q0" "bitcoin" =
      some (sampleInvoice "a") := by decide +kernel
  have hb := (h _ hlatest).1
  rw [hlookup] at hb
  exact absurd (congrArg InvoiceRecord.id (Option.some.inj hb)) (by decide)

end Shop

end Mise.Server
