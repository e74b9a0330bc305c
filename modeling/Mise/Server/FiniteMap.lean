import Mathlib.Logic.Function.Basic
import Mise.Server.Store

set_option autoImplicit true

namespace Mise.Server

open Js

/-- The six tables of the store. -/
inductive Kind where
  | nonce
  | session
  | submission
  | product
  | invoice
  | domain
  deriving DecidableEq

abbrev Kind.Value : Kind → Type
  | nonce => Nonce
  | session => Session
  | submission => StoreRecord
  | product => ProductRecord
  | invoice => InvoiceRecord
  | domain => DomainClaim

/-- What the store is for: six finite maps. -/
abbrev Maps := (t : Kind) → String → Option t.Value

namespace Maps

def put (m : Maps) (t : Kind) (k : String) (v : t.Value) : Maps :=
  Function.update m t (Function.update (m t) k (some v))

/-- Take away every entry of `t` that satisfies `p`. -/
def prune (m : Maps) (t : Kind) (p : String → t.Value → Bool) : Maps :=
  Function.update m t fun k => (m t k).filter fun v => !p k v

def delete (m : Maps) (t : Kind) (k : String) : Maps := m.prune t fun k' _ => k' == k

end Maps

/-- An operation of the store. The key of `putSession` is the one `randomBytes` gives. -/
inductive Op where
  | putNonce (nonce : String) (data : Nonce)
  | takeNonce (nonce : String)
  | gcNonces (now : Int)
  | putSession (id : String) (data : Session)
  | getSession (id : String) (now : Int)
  | dropSession (id : String)
  | putSubmission (rec : StoreRecord)
  | getSubmission (id : String)
  | pruneRejected (days now : Int)
  | deleteSubmission (id : String)
  | putProduct (rec : ProductRecord)
  | getProduct (id : String)
  | deleteProduct (id : String)
  | putInvoice (rec : InvoiceRecord)
  | getInvoice (id : String)
  | deleteInvoice (id : String)
  | putDomain (claim : DomainClaim)
  | getDomain (paymentCode : String)
  | deleteDomain (paymentCode : String)

namespace Op

/-- The table and the key of a look-up. -/
def lookup : Op → Option (Kind × String)
  | takeNonce k => some (.nonce, k)
  | getSession k _ => some (.session, k)
  | getSubmission k => some (.submission, k)
  | getProduct k => some (.product, k)
  | getInvoice k => some (.invoice, k)
  | getDomain k => some (.domain, k)
  | _ => none

/-- The key under which a put stores its value. -/
def stored : Op → Option String
  | putNonce k _ | putSession k _ => some k
  | putSubmission rec => some rec.id
  | putProduct rec => some rec.id
  | putInvoice rec => some rec.id
  | putDomain claim => some claim.paymentCode
  | _ => none

/-- The server's own callers of a put generate the keys: hexadecimal digits, a network and a slug, a
payment code. None of them is empty or the name of something that every object inherits. An import is
another caller: it stores the ids of the remote list as they are, and these can be such a name. -/
def Generated (o : Op) : Prop := ∀ k, o.stored = some k → k ∉ "" :: objectPrototype

instance (o : Op) : Decidable o.Generated :=
  match h : o.stored with
  | none => isTrue fun k hk => by rw [h] at hk; cases hk
  | some k' => decidable_of_iff (k' ∉ "" :: objectPrototype)
    ⟨fun hn k hk => by rw [h] at hk; cases hk; exact hn, fun hg => hg k' h⟩

end Op

section Steps

variable (maxAge : Int)

/-- One operation on the code's store: what it returns, where it is a look-up, and the store
that it leaves. A put that throws leaves the store as it was. -/
def Store.step (s : Store) : Op → Option ((t : Kind) × Found t.Value) × Store
  | .putNonce k v => (none, s.putNonce k v)
  | .takeNonce k => (some ⟨.nonce, (s.takeNonce k).1⟩, (s.takeNonce k).2)
  | .gcNonces now => (none, s.gcNonces now)
  | .putSession k v => (none, s.putSession k v)
  | .getSession k now => (some ⟨.session, (s.getSession k now).1⟩, (s.getSession k now).2)
  | .dropSession k => (none, s.dropSession k)
  | .putSubmission rec => (none, (s.putSubmission rec).toOption.getD s)
  | .getSubmission k =>
    let r := s.getSubmission k
    (some ⟨.submission, match r.1 with
      | .own n => .ofOption (r.2.object n)
      | .inherited => .inherited
      | .absent => .absent⟩, r.2)
  | .pruneRejected days now => (none, s.pruneRejected days now)
  | .deleteSubmission k => (none, s.deleteSubmission k)
  | .putProduct rec => (none, (s.putProduct rec).toOption.getD s)
  | .getProduct k => (some ⟨.product, s.getProduct k⟩, s)
  | .deleteProduct k => (none, s.deleteProduct k)
  | .putInvoice rec => (none, (s.putInvoice maxAge rec).toOption.getD s)
  | .getInvoice k => (some ⟨.invoice, s.getInvoice k⟩, s)
  | .deleteInvoice k => (none, s.deleteInvoice k)
  | .putDomain claim => (none, s.putDomain claim)
  | .getDomain k => (some ⟨.domain, s.getDomain k⟩, s)
  | .deleteDomain k => (none, s.deleteDomain k)

/-- One operation on the maps. -/
def Maps.step (m : Maps) : Op → Option ((t : Kind) × Option t.Value) × Maps
  | .putNonce k v => (none, m.put .nonce k v)
  | .takeNonce k => (some ⟨.nonce, m .nonce k⟩, m.delete .nonce k)
  | .gcNonces now => (none, m.prune .nonce fun _ v => v.expires < now)
  | .putSession k v => (none, m.put .session k v)
  | .getSession k now =>
    let expired := fun (v : Session) => decide (v.expires < now)
    (some ⟨.session, (m .session k).filter fun v => !expired v⟩,
      m.prune .session fun k' v => k' == k && expired v)
  | .dropSession k => (none, m.delete .session k)
  | .putSubmission rec =>
    let r := normaliseSubmission rec
    (none, if r.guard.isOk then m.put .submission r.id r else m)
  | .getSubmission k => (some ⟨.submission, m .submission k⟩, m)
  | .pruneRejected days now =>
    (none, m.prune .submission fun _ rec => Store.prunable (now - days * 86400 * 1000) rec)
  | .deleteSubmission k => (none, m.delete .submission k)
  | .putProduct rec => (none, if rec.guard.isOk then m.put .product rec.id rec else m)
  | .getProduct k => (some ⟨.product, m .product k⟩, m)
  | .deleteProduct k => (none, m.delete .product k)
  | .putInvoice rec => (none, if (rec.guard maxAge).isOk then m.put .invoice rec.id rec else m)
  | .getInvoice k => (some ⟨.invoice, m .invoice k⟩, m)
  | .deleteInvoice k => (none, m.delete .invoice k)
  | .putDomain claim => (none, m.put .domain claim.paymentCode claim)
  | .getDomain k => (some ⟨.domain, m .domain k⟩, m)
  | .deleteDomain k => (none, m.delete .domain k)

/-- Through a whole run every look-up returns what the maps hold, and a look-up of a key that
they do not hold leaves the store as it is. -/
def Conforms (s : Store) (m : Maps) : List Op → Prop
  | [] => True
  | o :: os =>
    (s.step maxAge o).1 = (m.step maxAge o).1.map (fun v => ⟨v.1, .ofOption v.2⟩) ∧
      (∀ t k, o.lookup = some (t, k) → m t k = none → (s.step maxAge o).2 = s) ∧
      Conforms (s.step maxAge o).2 (m.step maxAge o).2 os

end Steps

/-- What the maps are of a store. -/
def Store.view (s : Store) : Maps
  | .nonce => s.nonces.get
  | .session => s.sessions.get
  | .submission => s.record
  | .product => s.products.get
  | .invoice => s.invoices.get
  | .domain => s.domains.get

/-- Every reference of the submissions table leads to a normalised record. -/
def Store.Sound (s : Store) : Prop :=
  ∀ k r, s.submissions.get k = some r → ∃ rec, s.object r = some rec ∧ Normal rec

/-- The maps hold nothing under the names that no caller generates. -/
def Maps.Clear (m : Maps) : Prop := ∀ t, ∀ k ∈ "" :: objectPrototype, m t k = none

/-- A store that has only been asked for keys that nothing inherits. -/
structure Plain (s : Store) : Prop where
  prototype : s.prototype = []
  sound : s.Sound
  clear : s.view.Clear

namespace Store

variable (s : Store)

theorem view_nonces (t : Table Nonce) :
    ({ s with nonces := t } : Store).view = Function.update s.view .nonce t.get := by
  funext k
  cases k <;> rfl

theorem view_sessions (t : Table Session) :
    ({ s with sessions := t } : Store).view = Function.update s.view .session t.get := by
  funext k
  cases k <;> rfl

theorem view_submissions (t : Table Nat) : ({ s with submissions := t } : Store).view =
    Function.update s.view .submission fun k => (t.get k).bind s.object := by
  funext k
  cases k <;> rfl

theorem view_products (t : Table ProductRecord) :
    ({ s with products := t } : Store).view = Function.update s.view .product t.get := by
  funext k
  cases k <;> rfl

theorem view_invoices (t : Table InvoiceRecord) :
    ({ s with invoices := t } : Store).view = Function.update s.view .invoice t.get := by
  funext k
  cases k <;> rfl

theorem view_domains (t : Table DomainClaim) :
    ({ s with domains := t } : Store).view = Function.update s.view .domain t.get := by
  funext k
  cases k <;> rfl

end Store

theorem get_set_eq (t : Table β) (k : String) (v : β) :
    (t.set k v).get = Function.update t.get k (some v) := by
  funext k'
  rw [t.get_set, Function.update_apply]

theorem get_deleteAll_eq (t : Table β) (p : String → β → Bool) :
    (t.deleteAll p).get = fun k => (t.get k).filter fun v => !p k v :=
  funext (t.get_deleteAll p)

theorem Maps.delete_of_none {m : Maps} (h : m t k = none) : m.delete t k = m := by
  have ht : (fun k' => (m t k').filter fun _ => !(k' == k)) = m t := by
    funext k'
    by_cases hk : k' = k
    · rw [hk, h]
      rfl
    · cases m t k' <;> simp [Option.filter, hk]
  rw [Maps.delete, Maps.prune, ht, Function.update_eq_self]

theorem filter_delete (t : Table β) (k : String) (p : β → Bool) :
    (fun k' => (t.get k').filter fun v => !(k' == k && p v)) =
      if (t.get k).any p then (t.delete k).get else t.get := by
  funext k'
  by_cases hk : k' = k
  · subst hk
    cases hv : t.get k' with
    | none => simp [hv]
    | some v => by_cases hp : p v <;> simp [hv, hp, Option.filter, t.get_delete]
  · cases hv : t.get k' with
    | none => split <;> simp [hv, hk, t.get_delete]
    | some v => split <;> simp [hv, hk, Option.filter, t.get_delete]

theorem Plain.find (h : Plain s) (t : Table β) (hk : k ∉ objectPrototype) :
    t.find s.prototype k = .ofOption (t.get k) :=
  t.find_ofOption (by simpa [h.prototype] using hk)

theorem Store.Sound.record_eq {s : Store} (h : s.Sound) (hk : s.submissions.get k = some r) :
    ∃ rec, s.record k = some rec ∧ s.object r = some rec ∧ Normal rec := by
  obtain ⟨rec, hr, hn⟩ := h k r hk
  exact ⟨rec, by rw [Store.record, hk, Option.bind_some, hr], hr, hn⟩

theorem Store.Sound.modify {s : Store} (h : s.Sound) (hk : s.submissions.get k = some r) :
    s.modify r normaliseSubmission = s := by
  apply Store.modify_normal
  intro rec hrec
  obtain ⟨rec', hr, hn⟩ := h k r hk
  cases hrec.symm.trans hr
  exact hn

theorem Store.Sound.getSubmission {s : Store} (h : s.Sound) (k : String) :
    ∃ l, (s.getSubmission k).2 = { s with prototype := l } := by
  obtain ⟨r, hf, hr⟩ | ⟨hf, -⟩ | ⟨hf, -⟩ := s.submissions.find_cases s.prototype k <;>
    simp only [Store.getSubmission, hf]
  · exact ⟨s.prototype, h.modify hr⟩
  · split
    · exact ⟨_, rfl⟩
    · exact ⟨s.prototype, rfl⟩
  · exact ⟨s.prototype, rfl⟩

theorem Plain.getSubmission (h : Plain s) (hk : k ∉ objectPrototype) :
    s.getSubmission k = (.ofOption (s.submissions.get k), s) := by
  rw [Store.getSubmission, h.find _ hk]
  cases hr : s.submissions.get k with
  | none => rfl
  | some r => simp only [Found.ofOption, h.sound.modify hr]

theorem getSession_view {s : Store} (k : String) (now : Int)
    (hk : k = "" → s.sessions.get k = none) :
    (s.getSession k now).2.view = s.view.prune .session fun k' v => k' == k && v.expires < now := by
  have hv : s.view.prune .session (fun k' v => k' == k && v.expires < now) =
      Function.update s.view .session
        (if (s.sessions.get k).any (fun v => v.expires < now) then (s.sessions.delete k).get
          else s.sessions.get) :=
    congrArg (Function.update s.view .session) (filter_delete s.sessions k _)
  have hself : s.view = Function.update s.view .session s.sessions.get :=
    (Function.update_eq_self .session s.view).symm
  rw [hv, Store.getSession]
  by_cases he : k = ""
  · rw [if_pos he, hk he]
    exact hself
  · rw [if_neg he]
    obtain ⟨sess, hf, hs⟩ | ⟨hf, hs⟩ | ⟨hf, hs⟩ := s.sessions.find_cases s.prototype k <;>
      rw [hf, hs]
    · by_cases hx : sess.expires < now
      · simp only [hx, if_true, Option.any_some, decide_true]
        exact s.view_sessions _
      · simp only [hx, if_false, Option.any_some, decide_false, Bool.false_eq_true]
        exact hself
    · exact hself
    · exact hself

theorem Store.Sound.putObject_view {s : Store} (h : s.Sound) (rec : StoreRecord) :
    (Store.putObject s.objects.length { s with objects := s.objects ++ [rec] }).view =
      s.view.put .submission rec.id rec := by
  have ho : Store.object { s with objects := s.objects ++ [rec] } s.objects.length = some rec := by
    simp [Store.object]
  rw [Store.putObject, ho]
  refine (Store.view_submissions _ _).trans ?_
  have hother : ∀ k, (s.submissions.get k).bind
      (Store.object { s with objects := s.objects ++ [rec] }) = s.record k := by
    intro k
    cases hr : s.submissions.get k with
    | none => simp [Store.record, hr]
    | some r =>
      obtain ⟨rec', hrec, hobj, -⟩ := h.record_eq hr
      have hlt : r < s.objects.length := (List.getElem?_eq_some_iff.1 hobj).1
      rw [hrec, Option.bind_some, Store.object, List.getElem?_append_left hlt]
      exact hobj
  funext t
  by_cases ht : t = .submission
  · subst ht
    funext k
    by_cases hk : k = rec.id
    · simp [Maps.put, hk, Table.get_set, ho]
    · simp [Maps.put, hk, Table.get_set, hother, Store.view]
  · simp only [Maps.put, Function.update_of_ne ht]
    cases t <;> first | rfl | exact absurd rfl ht

theorem Store.Sound.step_view {s : Store} (h : s.Sound) (maxAge : Int) (o : Op)
    (hk : ∀ now, o = .getSession "" now → s.sessions.get "" = none) :
    (s.step maxAge o).2.view = (s.view.step maxAge o).2 := by
  cases o with
  | putNonce k v => exact (s.view_nonces _).trans (by rw [get_set_eq]; rfl)
  | takeNonce k =>
    obtain ⟨n, hf, hn⟩ | ⟨hf, hn⟩ | ⟨hf, hn⟩ := s.nonces.find_cases s.prototype k <;>
      simp only [Store.step, Maps.step, Store.takeNonce, hf]
    · exact (s.view_nonces _).trans (by rw [Table.delete, get_deleteAll_eq]; rfl)
    · exact (Maps.delete_of_none (t := .nonce) hn).symm
    · exact (Maps.delete_of_none (t := .nonce) hn).symm
  | gcNonces now => exact (s.view_nonces _).trans (by rw [get_deleteAll_eq]; rfl)
  | putSession k v => exact (s.view_sessions _).trans (by rw [get_set_eq]; rfl)
  | getSession k now => exact getSession_view k now fun he => by subst he; exact hk now rfl
  | dropSession k => exact (s.view_sessions _).trans (by rw [Table.delete, get_deleteAll_eq]; rfl)
  | putSubmission rec =>
    simp only [Store.step, Maps.step, Store.putSubmission]
    cases (normaliseSubmission rec).guard with
    | error e => rfl
    | ok _ => exact h.putObject_view _
  | getSubmission k =>
    obtain ⟨l, hl⟩ := h.getSubmission k
    change (s.getSubmission k).2.view = s.view
    rw [hl]
    funext t
    cases t <;> rfl
  | pruneRejected days now =>
    refine (s.view_submissions _).trans ?_
    rw [get_deleteAll_eq]
    refine congrArg (Function.update s.view .submission) (funext fun k' => ?_)
    simp only [Store.view, Store.record]
    cases s.submissions.get k' with
    | none => rfl
    | some r =>
      cases ho : s.object r with
      | none => simp [ho, Option.filter]
      | some rec =>
        by_cases hp : Store.prunable (now - days * 86400 * 1000) rec <;>
          simp [ho, hp, Option.filter]
  | deleteSubmission k =>
    refine (s.view_submissions _).trans ?_
    rw [Table.delete, get_deleteAll_eq]
    refine congrArg (Function.update s.view .submission) (funext fun k' => ?_)
    simp only [Store.view, Store.record]
    by_cases hk' : k' = k
    · subst hk'
      cases s.submissions.get k' with
      | none => rfl
      | some r => cases ho : s.object r <;> simp [ho, Option.filter]
    · cases s.submissions.get k' with
      | none => rfl
      | some r => cases ho : s.object r <;> simp [ho, hk', Option.filter]
  | putProduct rec =>
    simp only [Store.step, Maps.step, Store.putProduct]
    cases rec.guard with
    | error e => rfl
    | ok _ => exact (s.view_products _).trans (by rw [get_set_eq]; rfl)
  | getProduct k => rfl
  | deleteProduct k => exact (s.view_products _).trans (by rw [Table.delete, get_deleteAll_eq]; rfl)
  | putInvoice rec =>
    simp only [Store.step, Maps.step, Store.putInvoice]
    cases rec.guard maxAge with
    | error e => rfl
    | ok _ => exact (s.view_invoices _).trans (by rw [get_set_eq]; rfl)
  | getInvoice k => rfl
  | deleteInvoice k => exact (s.view_invoices _).trans (by rw [Table.delete, get_deleteAll_eq]; rfl)
  | putDomain claim => exact (s.view_domains _).trans (by rw [get_set_eq]; rfl)
  | getDomain k => rfl
  | deleteDomain k => exact (s.view_domains _).trans (by rw [Table.delete, get_deleteAll_eq]; rfl)

theorem Maps.Clear.put {m : Maps} (h : m.Clear) (hk : k ∉ "" :: objectPrototype) :
    (m.put t k v).Clear := by
  intro t' k' hk'
  have hne : k' ≠ k := fun e => hk (e ▸ hk')
  by_cases ht : t' = t
  · subst ht
    simpa [Maps.put, hne] using h t' k' hk'
  · simpa [Maps.put, ht] using h t' k' hk'

theorem Maps.Clear.prune {m : Maps} (h : m.Clear) : (m.prune t p).Clear := by
  intro t' k' hk'
  by_cases ht : t' = t
  · subst ht
    simp [Maps.prune, h t' k' hk']
  · simpa [Maps.prune, ht] using h t' k' hk'

theorem Maps.Clear.step {m : Maps} (h : m.Clear) (maxAge : Int) (o : Op) (hg : o.Generated) :
    (m.step maxAge o).2.Clear := by
  cases o with
  | putNonce k v => exact h.put (hg k rfl)
  | putSession k v => exact h.put (hg k rfl)
  | putDomain claim => exact h.put (hg _ rfl)
  | putSubmission rec =>
    simp only [Maps.step]
    split
    · exact h.put (hg rec.id rfl)
    · exact h
  | putProduct rec =>
    simp only [Maps.step]
    split
    · exact h.put (hg rec.id rfl)
    · exact h
  | putInvoice rec =>
    simp only [Maps.step]
    split
    · exact h.put (hg rec.id rfl)
    · exact h
  | getSubmission k => exact h
  | getProduct k => exact h
  | getInvoice k => exact h
  | getDomain k => exact h
  | takeNonce k => exact h.prune
  | gcNonces now => exact h.prune
  | getSession k now => exact h.prune
  | dropSession k => exact h.prune
  | pruneRejected days now => exact h.prune
  | deleteSubmission k => exact h.prune
  | deleteProduct k => exact h.prune
  | deleteInvoice k => exact h.prune
  | deleteDomain k => exact h.prune

theorem Store.Sound.deleteAll {s : Store} (h : s.Sound) (p : String → Nat → Bool) :
    Store.Sound { s with submissions := s.submissions.deleteAll p } := by
  intro k r hk
  have hk : (s.submissions.deleteAll p).get k = some r := hk
  rw [Table.get_deleteAll, Option.filter_eq_some_iff] at hk
  exact h k r hk.1

theorem putObject_eq (s : Store) (rec : StoreRecord) :
    Store.putObject s.objects.length { s with objects := s.objects ++ [rec] } =
      { s with
        objects := s.objects ++ [rec]
        submissions := s.submissions.set rec.id s.objects.length } := by
  simp [Store.putObject, Store.object]

theorem Store.Sound.putObject {s : Store} (h : s.Sound) (rec : StoreRecord) (hn : Normal rec) :
    Store.Sound (Store.putObject s.objects.length { s with objects := s.objects ++ [rec] }) := by
  rw [putObject_eq]
  intro k r hk
  have hk : (s.submissions.set rec.id s.objects.length).get k = some r := hk
  rw [Table.get_set] at hk
  split at hk
  · cases hk
    exact ⟨rec, by simp [Store.object], hn⟩
  · obtain ⟨rec', hr, hn'⟩ := h k r hk
    have hlt : r < s.objects.length := (List.getElem?_eq_some_iff.1 hr).1
    exact ⟨rec', by rw [← hr, Store.object, List.getElem?_append_left hlt]; rfl, hn'⟩

theorem Store.getSession_rest (s : Store) (k : String) (now : Int) :
    (s.getSession k now).2.submissions = s.submissions ∧
      (s.getSession k now).2.objects = s.objects ∧
      (s.getSession k now).2.prototype = s.prototype := by
  unfold Store.getSession
  split
  · exact ⟨rfl, rfl, rfl⟩
  · split
    · split <;> exact ⟨rfl, rfl, rfl⟩
    · exact ⟨rfl, rfl, rfl⟩

theorem Store.Sound.step {s : Store} (h : s.Sound) (maxAge : Int) (o : Op) :
    (s.step maxAge o).2.Sound := by
  cases o with
  | putSubmission rec =>
    simp only [Store.step, Store.putSubmission]
    cases (normaliseSubmission rec).guard with
    | error e => exact h
    | ok _ => exact h.putObject _ (normal_normalise rec)
  | getSubmission k =>
    obtain ⟨l, hl⟩ := h.getSubmission k
    change (s.getSubmission k).2.Sound
    rw [hl]
    exact h
  | pruneRejected days now => exact h.deleteAll _
  | deleteSubmission k => exact h.deleteAll _
  | takeNonce k =>
    simp only [Store.step, Store.takeNonce]
    split <;> exact h
  | getSession k now =>
    obtain ⟨hs, ho, -⟩ := s.getSession_rest k now
    intro k' r hr
    obtain ⟨rec, hrec⟩ := h k' r (hs ▸ hr)
    exact ⟨rec, by simpa only [Store.step, Store.object, ho] using hrec⟩
  | putProduct rec =>
    simp only [Store.step, Store.putProduct]
    cases rec.guard <;> exact h
  | putInvoice rec =>
    simp only [Store.step, Store.putInvoice]
    cases rec.guard maxAge <;> exact h
  | _ => exact h

theorem Plain.step_prototype (h : Plain s) (maxAge : Int) (o : Op)
    (hk : ∀ t k, o.lookup = some (t, k) → k ∉ objectPrototype) :
    (s.step maxAge o).2.prototype = s.prototype := by
  cases o with
  | putSubmission rec =>
    simp only [Store.step, Store.putSubmission]
    cases (normaliseSubmission rec).guard with
    | error e => rfl
    | ok _ => simp only [Except.map, Except.toOption, Option.getD_some, putObject_eq]
  | getSubmission k => simp only [Store.step, h.getSubmission (hk _ k rfl)]
  | takeNonce k =>
    simp only [Store.step, Store.takeNonce]
    split <;> rfl
  | getSession k now => exact (s.getSession_rest k now).2.2
  | putProduct rec =>
    simp only [Store.step, Store.putProduct]
    cases rec.guard <;> rfl
  | putInvoice rec =>
    simp only [Store.step, Store.putInvoice]
    cases rec.guard maxAge <;> rfl
  | _ => rfl

theorem Plain.step_view (h : Plain s) (maxAge : Int) (o : Op) :
    (s.step maxAge o).2.view = (s.view.step maxAge o).2 :=
  h.sound.step_view maxAge o fun _ _ => h.clear .session "" (by simp)

theorem Plain.step (h : Plain s) (maxAge : Int) (o : Op) (hg : o.Generated)
    (hk : ∀ t k, o.lookup = some (t, k) → k ∉ objectPrototype) : Plain (s.step maxAge o).2 := by
  refine ⟨(h.step_prototype maxAge o hk).trans h.prototype, h.sound.step maxAge o, ?_⟩
  rw [h.step_view maxAge o]
  exact h.clear.step maxAge o hg

/-- A look-up returns what the maps hold. -/
theorem Plain.step_reply (h : Plain s) (maxAge : Int) (o : Op)
    (hk : ∀ t k, o.lookup = some (t, k) → k ∉ objectPrototype) :
    (s.step maxAge o).1 = (s.view.step maxAge o).1.map fun v => ⟨v.1, .ofOption v.2⟩ := by
  cases o with
  | takeNonce k =>
    simp only [Store.step, Maps.step, Store.takeNonce, h.find _ (hk _ k rfl)]
    cases hn : s.nonces.get k <;> simp [Store.view, hn, Found.ofOption]
  | getSession k now =>
    simp only [Store.step, Maps.step, Store.getSession, Option.map_some]
    by_cases he : k = ""
    · rw [if_pos he, h.clear .session k (by simp [he])]
      rfl
    · rw [if_neg he, h.find _ (hk _ k rfl), show s.view .session k = s.sessions.get k from rfl]
      cases s.sessions.get k with
      | none => rfl
      | some sess => by_cases hx : sess.expires < now <;> simp [Found.ofOption, Option.filter, hx]
  | getSubmission k =>
    simp only [Store.step, Maps.step, h.getSubmission (hk _ k rfl), Option.map_some, Store.view,
      Store.record]
    cases s.submissions.get k <;> rfl
  | getProduct k =>
    simp only [Store.step, Maps.step, Store.getProduct, h.find _ (hk _ k rfl)]
    rfl
  | getInvoice k =>
    simp only [Store.step, Maps.step, Store.getInvoice, h.find _ (hk _ k rfl)]
    rfl
  | getDomain k =>
    simp only [Store.step, Maps.step, Store.getDomain, h.find _ (hk _ k rfl)]
    rfl
  | _ => rfl

/-- Something that every object inherits is found although nothing was stored under its name. -/
theorem Plain.inherited (h : Plain s) (maxAge : Int) (o : Op) (ho : o.lookup = some (t, k))
    (hk : k ∈ objectPrototype) :
    (s.step maxAge o).1 ≠ (s.view.step maxAge o).1.map fun v => ⟨v.1, .ofOption v.2⟩ := by
  have hnone : s.view t k = none := h.clear t k (List.mem_cons_of_mem _ hk)
  cases o with
  | takeNonce k' =>
    cases ho
    simp [Store.step, Maps.step, Store.takeNonce, Table.find_inherited hk hnone, hnone,
      Found.ofOption]
  | getSession k' now =>
    cases ho
    have hne : k ≠ "" := by
      rintro rfl
      revert hk
      decide
    simp [Store.step, Maps.step, Store.getSession, Table.find_inherited hk hnone, hnone, hne,
      Found.ofOption]
  | getSubmission k' =>
    cases ho
    have hget : s.submissions.get k = none := by
      cases hr : s.submissions.get k with
      | none => rfl
      | some r =>
        obtain ⟨rec, hrec, -⟩ := h.sound.record_eq hr
        exact absurd (hrec.symm.trans hnone) nofun
    simp [Store.step, Maps.step, Store.getSubmission, Table.find_inherited hk hget, hnone,
      Found.ofOption]
  | getProduct k' =>
    cases ho
    simp [Store.step, Maps.step, Store.getProduct, Table.find_inherited hk hnone, hnone,
      Found.ofOption]
  | getInvoice k' =>
    cases ho
    simp [Store.step, Maps.step, Store.getInvoice, Table.find_inherited hk hnone, hnone,
      Found.ofOption]
  | getDomain k' =>
    cases ho
    simp [Store.step, Maps.step, Store.getDomain, Table.find_inherited hk hnone, hnone,
      Found.ofOption]
  | _ => cases ho

/-- A look-up of a key under which nothing is stored leaves the store as it is. -/
theorem Plain.step_unchanged (h : Plain s) (maxAge : Int) (o : Op) (ho : o.lookup = some (t, k))
    (hk : k ∉ objectPrototype) (hn : s.view t k = none) : (s.step maxAge o).2 = s := by
  cases o with
  | takeNonce k' =>
    cases ho
    simp only [Store.step, Store.takeNonce, h.find _ hk, show s.nonces.get k = none from hn]
    rfl
  | getSession k' now =>
    cases ho
    simp only [Store.step, Store.getSession]
    split
    · rfl
    · simp only [h.find _ hk, show s.sessions.get k = none from hn]
      rfl
  | getSubmission k' =>
    cases ho
    simp only [Store.step, h.getSubmission hk]
  | getProduct k' => rfl
  | getInvoice k' => rfl
  | getDomain k' => rfl
  | _ => cases ho

theorem Plain.conforms_iff (h : Plain s) (maxAge : Int) (os : List Op) (hg : ∀ o ∈ os, o.Generated) :
    Conforms maxAge s s.view os ↔
      ∀ o ∈ os, ∀ t k, o.lookup = some (t, k) → k ∉ objectPrototype := by
  induction os generalizing s with
  | nil => simp [Conforms]
  | cons o os ih =>
    have hgo := hg o List.mem_cons_self
    have hgs : ∀ o ∈ os, o.Generated := fun o ho => hg o (List.mem_cons_of_mem _ ho)
    constructor
    · rintro ⟨hr, -, hc⟩
      have hk : ∀ t k, o.lookup = some (t, k) → k ∉ objectPrototype :=
        fun t k ho hk => h.inherited maxAge o ho hk hr
      rw [← h.step_view maxAge o] at hc
      exact List.forall_mem_cons.2 ⟨hk, (ih (h.step maxAge o hgo hk) hgs).1 hc⟩
    · intro hall
      obtain ⟨hk, hks⟩ := List.forall_mem_cons.1 hall
      refine ⟨h.step_reply maxAge o hk, fun t k ho => h.step_unchanged maxAge o ho (hk t k ho), ?_⟩
      rw [← h.step_view maxAge o]
      exact (ih (h.step maxAge o hgo hk) hgs).2 hks

theorem plain_empty : Plain {} where
  prototype := rfl
  sound k r hk := by cases hk
  clear t k _ := by cases t <;> rfl

/-- The tables of the store behave as finite maps exactly as long as no look-up asks for a name
that every object inherits. -/
theorem finite_maps_iff (maxAge : Int) (os : List Op) (hg : ∀ o ∈ os, o.Generated) :
    Conforms maxAge {} (fun _ _ => none) os ↔
      ∀ o ∈ os, ∀ t k, o.lookup = some (t, k) → k ∉ objectPrototype := by
  have hview : (fun _ _ => none : Maps) = ({} : Store).view := by
    funext t k
    cases t <;> rfl
  rw [hview]
  exact plain_empty.conforms_iff maxAge os hg

/-- A session is found until it expires, and its key finds nothing in another table. -/
theorem finite_maps_session :
    Conforms 0 {} (fun _ _ => none) [.putSession "5e55" ⟨some "PM8T", 10⟩, .getSession "5e55" 5,
      .takeNonce "5e55", .getSession "5e55" 11, .getSession "5e55" 5] :=
  (finite_maps_iff 0 _ (by decide)).2 (by
    intro o ho t k hk
    simp only [List.mem_cons, List.not_mem_nil, or_false] at ho
    obtain rfl | rfl | rfl | rfl | rfl := ho <;> cases hk <;> decide)

/-- The cookie `constructor` finds a session that was never stored. -/
theorem constructor_is_a_session :
    ¬ ∀ maxAge os, (∀ o ∈ os, Op.Generated o) → Conforms maxAge {} (fun _ _ => none) os := by
  intro h
  obtain ⟨hr, -⟩ := h 0 [.getSession "constructor" 0] (by decide)
  simp [Store.step, Maps.step, Store.getSession, Table.find, objectPrototype, Table.get,
    Found.ofOption] at hr

end Mise.Server
