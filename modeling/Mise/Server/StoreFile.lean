import Mise.Async.CachedRuns
import Mise.Server.FiniteMap

set_option autoImplicit true

namespace Mise.Server

open Js

/-- The contents of `store.json`. -/
structure StoreShape where
  submissions : Table StoreRecord := {}
  sessions : Table Session := {}
  nonces : Table Nonce := {}
  domains : Table DomainClaim := {}
  products : Table ProductRecord := {}
  invoices : Table InvoiceRecord := {}

/-- What `load` makes of the file, or of `EMPTY` where there is none. -/
def StoreShape.load : Option StoreShape → Store
  | none => {}
  | some f => {
      objects := f.submissions.values.map normaliseSubmission
      submissions := f.submissions.places
      sessions := f.sessions
      nonces := f.nonces
      domains := f.domains
      products := f.products
      invoices := f.invoices }

/-- What `persist` writes. -/
def Store.shape (s : Store) : StoreShape where
  submissions := s.submissions.filterMap s.object
  sessions := s.sessions
  nonces := s.nonces
  domains := s.domains
  products := s.products
  invoices := s.invoices

def StoreShape.view (f : StoreShape) : Maps
  | .nonce => f.nonces.get
  | .session => f.sessions.get
  | .submission => f.submissions.get
  | .product => f.products.get
  | .invoice => f.invoices.get
  | .domain => f.domains.get

/-- What an operation does to the six maps: it leaves an entry, or takes entries away. -/
inductive Change where
  | put (t : Kind) (k : String) (v : t.Value)
  | prune (t : Kind) (p : String → t.Value → Bool)
  | keep

/-- The entry `v` under `k` does not survive the change. -/
def Change.Replaces (c : Change) (t : Kind) (k : String) (v : t.Value) : Prop :=
  (∃ v', c = .put t k v') ∨ ∃ p, c = .prune t p ∧ p k v

def Maps.apply (m : Maps) : Change → Maps
  | .put t k v => m.put t k v
  | .prune t p => m.prune t p
  | .keep => m

namespace Op

/-- Whether an operation on the store `s` ends with a `persist`. -/
def persists (s : Store) : Op → Bool
  | putNonce _ _ | putSession _ _ | putSubmission _ | putProduct _ | putInvoice _ | putDomain _ => true
  | takeNonce k => (s.nonces.find s.prototype k).truthy
  | gcNonces now => s.nonces.values.any (·.expires < now)
  | getSession k now => s.sessions.find s.prototype k matches .own _ &&
      (s.sessions.get k).any (·.expires < now)
  | dropSession k => (s.sessions.find s.prototype k).truthy
  | pruneRejected days now => s.submissions.values.any fun r =>
      (s.object r).any (Store.prunable (now - days * 86400 * 1000))
  | deleteSubmission k => (s.submissions.find s.prototype k).truthy
  | deleteProduct k => (s.products.find s.prototype k).truthy
  | deleteInvoice k => (s.invoices.find s.prototype k).truthy
  | deleteDomain k => (s.domains.find s.prototype k).truthy
  | getSubmission _ | getProduct _ | getInvoice _ | getDomain _ => false

/-- What an operation does before it loads the store: a guard throws, and `getSession` without an
id returns. -/
def guard (maxAge : Int) : Op → Except Fault (Option (Option ((t : Kind) × Found t.Value)))
  | putSubmission rec => (normaliseSubmission rec).guard.map fun _ => none
  | putProduct rec => rec.guard.map fun _ => none
  | putInvoice rec => (rec.guard maxAge).map fun _ => none
  | getSession k _ => .ok (if k = "" then some (some ⟨.session, .absent⟩) else none)
  | _ => .ok none

/-- What an operation that passes its guard does to the six maps. -/
def change : Op → Change
  | putNonce k v => .put .nonce k v
  | putSession k v => .put .session k v
  | putSubmission rec => .put .submission rec.id (normaliseSubmission rec)
  | putProduct rec => .put .product rec.id rec
  | putInvoice rec => .put .invoice rec.id rec
  | putDomain claim => .put .domain claim.paymentCode claim
  | takeNonce k => .prune .nonce fun k' _ => k' == k
  | gcNonces now => .prune .nonce fun _ v => v.expires < now
  | getSession k now => .prune .session fun k' v => k' == k && v.expires < now
  | dropSession k => .prune .session fun k' _ => k' == k
  | pruneRejected days now => .prune .submission fun _ v => Store.prunable (now - days * 86400 * 1000) v
  | deleteSubmission k => .prune .submission fun k' _ => k' == k
  | deleteProduct k => .prune .product fun k' _ => k' == k
  | deleteInvoice k => .prune .invoice fun k' _ => k' == k
  | deleteDomain k => .prune .domain fun k' _ => k' == k
  | getSubmission _ | getProduct _ | getInvoice _ | getDomain _ => .keep

end Op

/-- The write of an operation is present in the store, unless one of the `later` operations replaced
or removed it. -/
structure Change.Present (c : Change) (later : List (Nat × Op)) (m : Maps) : Prop where
  stored : ∀ t k v, c = .put t k v → m t k = some v ∨ ∃ x ∈ later, x.2.change.Replaces t k v
  removed : ∀ t p k v, c = .prune t p → p k v → m t k = some v → ∃ x ∈ later, x.2.change = .put t k v

/-- The write of each of these operations, newest first, is present as far as the later ones leave it. -/
def Retained (l : List (Nat × Op)) (f : StoreShape) : Prop :=
  ∀ later i o earlier, l = later ++ (i, o) :: earlier → o.change.Present later f.view

/-- `store.ts`, over `store.json`. The names that the program has added to `Object.prototype` are
common to all states that its loads have made. -/
def storeProgram (maxAge : Int) : Cached.Program Op (List String) Store StoreShape Fault
    (Option ((t : Kind) × Found t.Value)) where
  save := Store.shape
  load := StoreShape.load
  guard := Op.guard maxAge
  body o added s :=
    let s := { s with prototype := added }
    let r := s.step maxAge o
    ⟨r.1, o.persists s, r.2.prototype, r.2⟩
  io := .io

section Laws

variable {s : Store}

theorem shape_view (s : Store) : s.shape.view = s.view := by
  funext t
  cases t with
  | submission => exact funext fun k => s.submissions.get_filterMap s.object k
  | _ => rfl

theorem sound_load (f : Option StoreShape) : (StoreShape.load f).Sound := by
  cases f with
  | none => intro k r hk; cases hk
  | some f =>
    intro k r hk
    have hm := Table.mem_of_lookup hk
    obtain ⟨⟨x, i⟩, hx, he⟩ := List.mem_map.1 hm
    cases he
    have hx := List.mem_zipIdx_iff_getElem?.1 hx
    refine ⟨normaliseSubmission x.2, ?_, normal_normalise x.2⟩
    simp [StoreShape.load, Store.object, Table.values, hx]

theorem Store.Sound.reload (h : s.Sound) : (StoreShape.load (some s.shape)).shape = s.shape := by
  have hnorm : ∀ x ∈ s.shape.submissions.entries, normaliseSubmission x.2 = x.2 := by
    intro x hx
    obtain ⟨⟨k, r⟩, hk, he⟩ := List.mem_filterMap.1 hx
    obtain ⟨rec, hr, hn⟩ := h k r (Table.get_of_mem hk)
    rw [hr] at he
    cases he
    exact hn.normalise
  have he : (StoreShape.load (some s.shape)).shape.submissions.entries = s.shape.submissions.entries := by
    refine (Table.entries_places (g := normaliseSubmission) s.shape.submissions fun i x hx => ?_).trans ?_
    · simp [StoreShape.load, Store.object, Table.values, hx]
    · conv_rhs => rw [← List.map_id s.shape.submissions.entries]
      exact List.map_congr_left fun x hx => by rw [hnorm x hx]; rfl
  exact congrArg (fun t => (⟨t, s.sessions, s.nonces, s.domains, s.products, s.invoices⟩ : StoreShape))
    (Table.ext he)

theorem truthy_absent {t : Table β} (h : (t.find added k).truthy = false) : t.delete k = t := by
  obtain ⟨v, hf, -⟩ | ⟨hf, -⟩ | ⟨-, hn⟩ := t.find_cases added k
  · rw [hf] at h
    cases h
  · rw [hf] at h
    cases h
  · exact Table.delete_of_none hn

theorem any_values {t : Table β} {p : β → Bool} (h : t.values.any p = false) :
    t.deleteAll (fun _ => p) = t := by
  refine Table.deleteAll_of_none fun x hx => ?_
  rw [List.any_eq_false] at h
  exact eq_false_of_ne_true (h x.2 (List.mem_map_of_mem hx))

theorem getSession_quiet {k : String} {now : Int}
    (h : (s.sessions.find s.prototype k matches .own _ &&
      (s.sessions.get k).any (·.expires < now)) = false) : (s.getSession k now).2 = s := by
  unfold Store.getSession
  by_cases he : k = ""
  · rw [if_pos he]
  · rw [if_neg he]
    obtain ⟨sess, hf, hs⟩ | ⟨hf, -⟩ | ⟨hf, -⟩ := s.sessions.find_cases s.prototype k
    · rw [hf, hs] at h
      have hx : ¬ sess.expires < now := by simpa using h
      simp only [hf, if_neg hx]
    · rw [hf]
    · rw [hf]

theorem Store.Sound.quiet (h : s.Sound) (maxAge : Int) (o : Op) (hp : o.persists s = false) :
    (s.step maxAge o).2.shape = s.shape := by
  cases o with
  | putNonce k v => cases hp
  | putSession k v => cases hp
  | putSubmission rec => cases hp
  | putProduct rec => cases hp
  | putInvoice rec => cases hp
  | putDomain claim => cases hp
  | takeNonce k =>
    obtain ⟨n, hf, -⟩ | ⟨hf, -⟩ | ⟨hf, -⟩ := s.nonces.find_cases s.prototype k
    · simp [Op.persists, hf, Found.truthy] at hp
    · simp only [Store.step, Store.takeNonce, hf]
    · simp only [Store.step, Store.takeNonce, hf]
  | gcNonces now =>
    simp only [Store.step, Store.gcNonces, any_values (p := fun v : Nonce => v.expires < now) hp]
  | getSession k now => exact congrArg Store.shape (getSession_quiet hp)
  | dropSession k => simp only [Store.step, Store.dropSession, truthy_absent hp]
  | getSubmission k =>
    obtain ⟨l, hl⟩ := h.getSubmission k
    change (s.getSubmission k).2.shape = s.shape
    rw [hl]
    rfl
  | pruneRejected days now =>
    simp only [Store.step, Store.pruneRejected, any_values (p := fun r =>
      (s.object r).any (Store.prunable (now - days * 86400 * 1000))) hp]
  | deleteSubmission k => simp only [Store.step, Store.deleteSubmission, truthy_absent hp]
  | getProduct k => rfl
  | deleteProduct k => simp only [Store.step, Store.deleteProduct, truthy_absent hp]
  | getInvoice k => rfl
  | deleteInvoice k => simp only [Store.step, Store.deleteInvoice, truthy_absent hp]
  | getDomain k => rfl
  | deleteDomain k => simp only [Store.step, Store.deleteDomain, truthy_absent hp]

theorem maps_step {m : Maps} (maxAge : Int) (o : Op) (hg : o.guard maxAge = .ok none) :
    (m.step maxAge o).2 = m.apply o.change := by
  cases o with
  | putSubmission rec =>
    simp only [Op.guard] at hg
    cases he : (normaliseSubmission rec).guard with
    | error e => rw [he] at hg; cases hg
    | ok u => simp only [Maps.step, he, Except.isOk, Except.toBool, if_true]; rfl
  | putProduct rec =>
    simp only [Op.guard] at hg
    cases he : rec.guard with
    | error e => rw [he] at hg; cases hg
    | ok u => simp only [Maps.step, he, Except.isOk, Except.toBool, if_true]; rfl
  | putInvoice rec =>
    simp only [Op.guard] at hg
    cases he : rec.guard maxAge with
    | error e => rw [he] at hg; cases hg
    | ok u => simp only [Maps.step, he, Except.isOk, Except.toBool, if_true]; rfl
  | _ => rfl

theorem Maps.apply_some {m : Maps} (h : m.apply c t k = some v) :
    c = .put t k v ∨ (m t k = some v ∧ ∀ p, c = .prune t p → p k v = false) := by
  cases c with
  | keep => exact .inr ⟨h, fun q hq => by cases hq⟩
  | put t' k' v' =>
    by_cases ht : t = t'
    · subst ht
      by_cases hk : k = k'
      · subst hk
        simp only [Maps.apply, Maps.put, Function.update_self, Option.some.injEq] at h
        exact .inl (h ▸ rfl)
      · simp only [Maps.apply, Maps.put, Function.update_self, Function.update_of_ne hk] at h
        exact .inr ⟨h, fun q hq => by cases hq⟩
    · simp only [Maps.apply, Maps.put, Function.update_of_ne ht] at h
      exact .inr ⟨h, fun q hq => by cases hq⟩
  | prune t' p =>
    by_cases ht : t = t'
    · subst ht
      simp only [Maps.apply, Maps.prune, Function.update_self, Option.filter_eq_some_iff,
        Bool.not_eq_true'] at h
      exact .inr ⟨h.1, fun q hq => by cases hq; exact h.2⟩
    · simp only [Maps.apply, Maps.prune, Function.update_of_ne ht] at h
      exact .inr ⟨h, fun q hq => by cases hq; exact absurd rfl ht⟩

theorem Maps.apply_keeps {m : Maps} (h : m t k = some v) (c : Change) :
    m.apply c t k = some v ∨ c.Replaces t k v := by
  cases c with
  | keep => exact .inl h
  | put t' k' v' =>
    by_cases ht : t = t'
    · subst ht
      by_cases hk : k = k'
      · subst hk
        exact .inr (.inl ⟨v', rfl⟩)
      · exact .inl (by simpa only [Maps.apply, Maps.put, Function.update_self, Function.update_of_ne hk])
    · exact .inl (by simpa only [Maps.apply, Maps.put, Function.update_of_ne ht])
  | prune t' p =>
    by_cases ht : t = t'
    · subst ht
      cases hp : p k v with
      | true => exact .inr (.inr ⟨p, rfl, hp⟩)
      | false => exact .inl (by simp [Maps.apply, Maps.prune, h, hp])
    · exact .inl (by simpa only [Maps.apply, Maps.prune, Function.update_of_ne ht])

theorem Change.present (c : Change) (m : Maps) : c.Present [] (m.apply c) where
  stored t k v hc := .inl (by simp [hc, Maps.apply, Maps.put])
  removed t p k v hc hp hv := by
    obtain rfl | ⟨-, hno⟩ := m.apply_some hv
    · cases hc
    · rw [hno p hc] at hp
      cases hp

theorem Change.Present.apply {m : Maps} (h : Change.Present c later m) (i : Nat) (o : Op) :
    c.Present ((i, o) :: later) (m.apply o.change) where
  stored t k v hc := by
    obtain hv | ⟨x, hx, hr⟩ := h.stored t k v hc
    · refine (m.apply_keeps hv o.change).imp_right fun hr => ?_
      exact ⟨(i, o), List.mem_cons_self, hr⟩
    · exact .inr ⟨x, List.mem_cons_of_mem _ hx, hr⟩
  removed t p k v hc hp hv := by
    obtain hput | ⟨hv, -⟩ := m.apply_some hv
    · exact ⟨(i, o), List.mem_cons_self, hput⟩
    · obtain ⟨x, hx, hput⟩ := h.removed t p k v hc hp hv
      exact ⟨x, List.mem_cons_of_mem _ hx, hput⟩

theorem Retained.cons {f' : StoreShape} (h : Retained l f) (hv : f'.view = f.view.apply o.change) :
    Retained ((i, o) :: l) f' := by
  intro later j o' earlier hl
  rw [hv]
  cases later with
  | nil =>
    cases hl
    exact o.change.present f.view
  | cons x later =>
    cases hl
    exact (h later j o' earlier rfl).apply i o

theorem storeProgram_laws (maxAge : Int) : (storeProgram maxAge).Laws Store.Sound Retained where
  load := sound_load
  body {s} h o added := Store.Sound.step (s := { s with prototype := added }) h maxAge o
  quiet {s} h o added := Store.Sound.quiet (s := { s with prototype := added }) h maxAge o
  save h := h.reload
  init _ later i o earlier hl := by simp at hl
  step {s l} h hk i o added hg := by
    have h : Store.Sound { s with prototype := added } := h
    refine hk.cons ?_
    change (Store.step maxAge { s with prototype := added } o).2.shape.view = _
    rw [shape_view, h.step_view maxAge o, maps_step maxAge o hg]
    · congr 1
      funext t
      cases t with
      | submission => exact (funext fun k => s.submissions.get_filterMap s.object k).symm
      | _ => rfl
    · rintro now rfl
      cases hg

/-- While the operations work on the state in the cache, every write whose promise has resolved is
present in it unless a later operation has replaced or removed it, and once all operations have
finished, with the renames in order, `store.json` holds exactly the cache. -/
theorem acknowledged_writes_kept (maxAge : Int) (file : Option StoreShape) (moves : List (Move Op Bool)) :
    let p := Cached.run (storeProgram maxAge) (.opened [] file) moves
    p.shared.Steady →
    (∀ i o a, .called i o ∈ p.shared.log → o.guard maxAge = .ok none → p.result i = some (.ok a) →
      ∃ s later earlier, p.shared.held = some s ∧
        Cached.applied p.shared.log = later ++ (i, o) :: earlier ∧ o.change.Present later s.view) ∧
    (p.shared.InOrder → p.shared.Clean → p.Finished → ∀ s, p.shared.held = some s →
      (StoreShape.load p.shared.file.content).shape = s.shape) := by
  intro p hst
  obtain ⟨hack, hcache⟩ := Cached.runs_keep (storeProgram_laws maxAge) [] file moves
  refine ⟨fun i o a hc hg hr => ?_, fun ho hclean hfin s hs => (hcache hst s hs).2.2 ho hclean hfin⟩
  obtain ⟨hm, s, hs⟩ := hack i o a hc hg hr
  obtain ⟨later, earlier, hl⟩ := List.append_of_mem hm
  refine ⟨s, later, earlier, hs, hl, ?_⟩
  rw [← shape_view]
  exact (hcache hst s hs).2.1 later i o earlier hl

end Laws

/-- Call `i` gets the next `n` of its answers, and every file operation works. -/
def answered (i n : Nat) : List (Move Op Bool) := List.replicate n (.resume i true)

/-- The first load is over before two more operations begin, which overlap. -/
def afterLoad : List (Move Op Bool) :=
  .call (.putNonce "a" ⟨5, none⟩) :: answered 0 5 ++
    .call (.takeNonce "a") :: .call (.putNonce "b" ⟨6, none⟩) ::
    (answered 1 1 ++ answered 0 4 ++ answered 2 1 ++ answered 1 4 ++ answered 2 4)

theorem acknowledged_writes_kept_overlapping :
    let p := Cached.run (storeProgram 0) (.opened [] none) afterLoad
    (∃ s later earlier, p.shared.held = some s ∧
      Cached.applied p.shared.log = later ++ (2, .putNonce "b" ⟨6, none⟩) :: earlier ∧
      (Change.put .nonce "b" ⟨6, none⟩).Present later s.view) ∧
    ∀ s, p.shared.held = some s → (StoreShape.load p.shared.file.content).shape = s.shape := by
  intro p
  have hlog : p.shared.log = [.renamed true, .renamed true, .serialised 2 3,
      .applied 2 (.putNonce "b" ⟨6, none⟩) true, .renamed true, .serialised 1 2,
      .applied 1 (.takeNonce "a") true, .called 2 (.putNonce "b" ⟨6, none⟩),
      .called 1 (.takeNonce "a"), .serialised 0 1, .applied 0 (.putNonce "a" ⟨5, none⟩) true,
      .loaded none {}, .called 0 (.putNonce "a" ⟨5, none⟩)] := rfl
  have hst : p.shared.Steady :=
    ⟨fun f g hm => by simp [hlog] at hm, fun i c hm => by simp [hlog] at hm⟩
  have hin : p.shared.InOrder := fun hm => by simp [hlog] at hm
  have hclean : p.shared.Clean := fun hm => by simp [hlog] at hm
  have hcalled : .called 2 (.putNonce "b" ⟨6, none⟩) ∈ p.shared.log := by simp [hlog]
  obtain ⟨hack, hfile⟩ := acknowledged_writes_kept 0 none afterLoad hst
  exact ⟨hack 2 _ none hcalled rfl rfl, hfile hin hclean (by decide +kernel)⟩

/-- Two operations begin while nothing is loaded. -/
def beforeLoad : List (Move Op Bool) :=
  .call (.putNonce "a" ⟨5, none⟩) :: .call (.putNonce "b" ⟨6, none⟩) ::
    (answered 0 4 ++ answered 1 4 ++ answered 0 5 ++ answered 1 5)

def overlappingLoads : Pool (Cached.World Op (List String) Store StoreShape) Bool Fault
    (Option ((t : Kind) × Found t.Value)) :=
  Cached.run (storeProgram 0) (.opened [] none) beforeLoad

/-- The load of the second operation replaces the state that the first goes on to change, and the
nonce of the first is lost although its promise resolves. -/
theorem overlapping_loads_lose_a_write :
    ¬ ∀ (maxAge : Int) (file : Option StoreShape) (moves : List (Move Op Bool)),
      let p := Cached.run (storeProgram maxAge) (.opened [] file) moves
      p.shared.Clean →
      (∀ i o a, .called i o ∈ p.shared.log → o.guard maxAge = .ok none → p.result i = some (.ok a) →
        ∃ s later earlier, p.shared.held = some s ∧
          Cached.applied p.shared.log = later ++ (i, o) :: earlier ∧ o.change.Present later s.view) ∧
      (p.Finished → ∀ s, p.shared.held = some s →
        (StoreShape.load p.shared.file.content).shape = s.shape) := by
  intro h
  have hclean : overlappingLoads.shared.Clean := by
    intro hm
    have hall : overlappingLoads.shared.log.all (fun e => !(e matches .failed)) = true := by
      decide +kernel
    cases List.all_eq_true.1 hall _ hm
  have hcalled : .called 0 (.putNonce "a" ⟨5, none⟩) ∈ overlappingLoads.shared.log :=
    List.mem_of_getElem? (i := 9) rfl
  have happlied : Cached.applied overlappingLoads.shared.log =
      [(1, .putNonce "b" ⟨6, none⟩), (0, .putNonce "a" ⟨5, none⟩)] := rfl
  have hresult : overlappingLoads.result 0 = some (.ok none) := rfl
  have hlost : overlappingLoads.shared.held.bind (fun s => s.nonces.get "a") = none := rfl
  obtain ⟨hack, -⟩ := h 0 none beforeLoad hclean
  obtain ⟨s, later, earlier, hs, hl, hpresent⟩ := hack 0 _ none hcalled rfl hresult
  have hlater : ∀ x ∈ later, x.2.change = .put .nonce "b" ⟨6, none⟩ := by
    have hl := happlied.symm.trans hl
    intro x hx
    cases later with
    | nil => cases hx
    | cons y later =>
      simp only [List.cons_append, List.cons.injEq] at hl
      cases later with
      | nil => rw [List.mem_singleton.1 hx, ← hl.1]; rfl
      | cons z later => simp at hl
  obtain hv | ⟨x, hx, hr⟩ := hpresent.stored .nonce "a" ⟨5, none⟩ rfl
  · rw [show overlappingLoads.shared.held = some s from hs, Option.bind_some] at hlost
    cases hlost.symm.trans hv
  · rw [hlater x hx] at hr
    obtain ⟨v, hv⟩ | ⟨q, hq, -⟩ := hr
    · simp at hv
    · cases hq

end Mise.Server
