import Mise.Async.Alone
import Mise.Server.FiniteMap
import Mise.Server.Names

set_option autoImplicit true

namespace Mise.Server.Names

open Js Async

/-- What is awaited of the seed file is the same list every time. -/
def Fixed (seeds : List Seed) (a : Answer) : Prop := a.seeds = seeds

/-- Run alone, it leaves what `φ` sees of the world, and returns as `K` says. -/
def Stays (seeds : List Seed) (φ : World Event → γ) (c : γ) (K : β → Prop) (p : Action Event β) : Prop :=
  ∀ w, φ w = c → Wp (Fixed seeds) (fun x w' => φ w' = c ∧ K x) (fun _ w' => φ w' = c) p w

section Stays

variable {seeds : List Seed} {φ : World Event → γ} {c : γ} {K : β → Prop} {p : Action Event β}

theorem Stays.mono {K' : β → Prop} (h : Stays seeds φ c K p) (hK : ∀ x, K x → K' x) :
    Stays seeds φ c K' p :=
  fun w hw => (h w hw).mono (fun x _ hx => ⟨hx.1, hK x hx.2⟩) fun _ _ he => he

theorem Stays.pure (h : K x) : Stays seeds φ c K (Pure.pure x : Action Event β) :=
  fun _ hw => ⟨hw, h⟩

theorem Stays.throw (e : Fault) : Stays seeds φ c K (MonadExcept.throw e : Action Event β) :=
  fun _ hw => hw

theorem Stays.seq {K' : β' → Prop} {g : β → Action Event β'} (h : Stays seeds φ c K p)
    (hg : ∀ x, K x → Stays seeds φ c K' (g x)) : Stays seeds φ c K' (p >>= g) := by
  intro w hw
  rw [wp_bind]
  exact (h w hw).mono (fun x w' hx => hg x hx.2 w' hx.1) fun _ _ he => he

theorem Stays.tryCatch {g : Fault → Action Event β} (h : Stays seeds φ c K p)
    (hg : ∀ e, Stays seeds φ c K (g e)) : Stays seeds φ c K (MonadExcept.tryCatch p g) := by
  intro w hw
  rw [wp_tryCatch]
  exact (h w hw).mono (fun _ _ hx => hx) fun e w' he => hg e w' he

theorem stays_wait : Stays seeds φ c (Fixed seeds) (Async.wait : Action Event Answer) :=
  fun _ hw _ hx => ⟨hw, hx⟩

theorem stays_read : Stays seeds φ c (fun w => φ w = c) (Async.read : Action Event (World Event)) :=
  fun _ hw => ⟨hw, hw⟩

theorem stays_update {f : World Event → World Event} (h : ∀ w, φ w = c → φ (f w) = c) :
    Stays seeds φ c (fun _ => True) (Async.update f) :=
  fun w hw => ⟨h w hw, trivial⟩

theorem stays_updateGet {f : World Event → β × World Event}
    (h : ∀ w, φ w = c → φ (f w).2 = c ∧ K (f w).1) : Stays seeds φ c K (Async.updateGet f) :=
  fun w hw => h w hw

theorem stays_awaiting (h : Stays seeds φ c K p) :
    Stays seeds φ c (fun x => K x.1) (awaiting p) :=
  h.seq fun _ hx => stays_wait.seq fun _ _ => .pure hx

theorem stays_ofExcept (x : Except Throw β) : Stays seeds φ c (fun _ => True) (ofExcept x) := by
  cases x with
  | ok v => exact .pure trivial
  | error e => cases e; exact .throw _

theorem stays_persist : Stays seeds φ c (fun _ => True) (persist : Action Event Unit) := by
  refine stays_wait.seq fun a _ => ?_
  cases a.ok with
  | false => exact .throw _
  | true =>
    refine stays_wait.seq fun b _ => ?_
    cases b.ok with
    | false => exact .throw _
    | true => exact .pure trivial

theorem stays_fileOperation : Stays seeds φ c (fun _ => True) (fileOperation : Action Event Answer) := by
  refine stays_wait.seq fun a _ => ?_
  cases a.ok with
  | false => exact .throw _
  | true => exact .pure trivial

theorem stays_givenName (body : Json) : Stays seeds φ c (fun _ => True) (givenName body) :=
  (stays_ofExcept _).seq fun _ _ => (stays_ofExcept _).seq fun _ _ => .pure trivial

end Stays

/-- The store, and the records that submissions have created. -/
def core (w : World Event) : Store × List String := (w.store, created w)

theorem created_change (f : Store → β × Store) (note : β → List Event)
    (h : ∀ x, (note x).filterMap creation = []) (w : World Event) :
    created (w.change f note).2 = created w := by
  unfold created World.change
  rw [List.filterMap_append, h, List.nil_append]

section Core

variable {seeds : List Seed} {s : Store} {l : List String} {i : Nat}

theorem stays_seedNodes : Stays seeds core (s, l) (· = seeds) (seedNodes : Action Event (List Seed)) :=
  stays_wait.seq fun _ ha => .pure ha

theorem stays_listSubmissions (sees : Bool) :
    Stays seeds core (s, l) (· = s.submissions.values) (listSubmissions i sees) := by
  refine stays_wait.seq fun a _ => .seq (K := (· = s.submissions.entries)) ?_ fun _ hx => .pure (congrArg _ hx)
  refine stays_updateGet fun w hw => ?_
  obtain ⟨hs, hl⟩ := Prod.mk.inj hw
  have hnote : ∀ entries : List (String × Nat), (if sees then
      entries.map fun x => Event.saw i x.1 x.2 else []).filterMap creation = [] := by
    intro entries
    cases sees with
    | false => rfl
    | true =>
      rw [if_pos rfl, List.filterMap_map, List.filterMap_eq_nil_iff]
      exact fun _ _ => rfl
  refine ⟨?_, congrArg (fun s => s.submissions.entries) hs⟩
  rw [core, created_change _ _ hnote, hl]
  exact congrArg (·, l) hs

theorem stays_readObject (r : Nat) :
    Stays seeds core (s, l) (fun rec => s.object r = some rec) (readObject r) := by
  refine stays_read.seq fun w hw => ?_
  obtain rfl : w.store = s := (Prod.mk.inj hw).1
  cases ho : w.store.object r with
  | none => exact .throw _
  | some rec => exact .pure rfl

theorem stays_scan (rec : StoreRecord → Bool) (seed : Seed → Bool) (why : StoreRecord → String)
    (reserved : String) : Stays seeds core (s, l)
      (fun x => x = none → (∀ k r, s.record k = some r → rec r = false) ∧ ∀ n ∈ seeds, seed n = false) (do
      let (refs, _) ← awaiting (listSubmissions i false)
      let w ← Async.read
      match (refs.filterMap w.store.object).find? rec with
      | some rec => return some (why rec)
      | none =>
        let (seeds, _) ← awaiting seedNodes
        return if seeds.any seed then some reserved else none) := by
  refine (stays_awaiting (stays_listSubmissions false)).seq fun x hx => stays_read.seq fun w hw => ?_
  obtain ⟨refs, a⟩ := x
  obtain rfl : refs = s.submissions.values := hx
  obtain rfl : w.store = s := (Prod.mk.inj hw).1
  dsimp only
  cases hf : (w.store.submissions.values.filterMap w.store.object).find? rec with
  | some r => exact .pure fun h => absurd h (by simp)
  | none =>
    refine (stays_awaiting stays_seedNodes).seq fun x hx => .pure fun hnone => ?_
    obtain ⟨found, b⟩ := x
    obtain rfl : found = seeds := hx
    constructor
    · intro k r hr
      obtain ⟨q, hq, ho⟩ := Option.bind_eq_some_iff.1 hr
      have hmem := List.mem_filterMap.2 ⟨q, Table.mem_values hq, ho⟩
      simpa using List.find?_eq_none.1 hf r hmem
    · intro n hn
      by_contra hseed
      have hany : found.any seed := List.any_eq_true.2 ⟨n, hn, by simpa using hseed⟩
      rw [if_pos hany] at hnone
      cases hnone

theorem stays_nameConflict (network : Network) (slug : String) (pc : Option String) :
    Stays seeds core (s, l) (fun x => x = none →
      (∀ k r, s.record k = some r → (r.named network slug && !owns r pc) = false) ∧
        ∀ n ∈ seeds, n.named network slug = false) (nameConflict i network slug pc) :=
  stays_scan _ _ _ _

theorem stays_slugTakenByOther (network : Network) (slug excludeId : String) :
    Stays seeds core (s, l) (fun x => x = none →
      (∀ k r, s.record k = some r → (r.id ≠ excludeId && r.named network slug) = false) ∧
        ∀ n ∈ seeds, (n.id ≠ excludeId && n.named network slug) = false)
      (slugTakenByOther i network slug excludeId) :=
  stays_scan _ _ _ _

/-- The record that it finds is stored, has the name and is the caller's; where it finds none, there
is none. -/
theorem stays_ownedRecordFor (network : Network) (slug : String) (pc : Option String) :
    Stays seeds core (s, l) (fun x =>
      (∀ r, x = some r → r ∈ s.submissions.values ∧ ∃ rec, s.object r = some rec ∧ rec.named network slug) ∧
      (x = none → ∀ k r, s.record k = some r → (r.named network slug && owns r pc) = false))
      (ownedRecordFor i network slug pc) := by
  refine (stays_awaiting (stays_listSubmissions true)).seq fun x hx => stays_read.seq fun w hw => .pure ?_
  obtain ⟨refs, a⟩ := x
  obtain rfl : refs = s.submissions.values := hx
  obtain rfl : w.store = s := (Prod.mk.inj hw).1
  constructor
  · intro r hr
    have hany := List.find?_some hr
    cases ho : w.store.object r with
    | none =>
      rw [ho] at hany
      cases hany
    | some rec =>
      rw [ho, Option.any_some, Bool.and_eq_true] at hany
      exact ⟨List.mem_of_find?_eq_some hr, rec, rfl, hany.1⟩
  · intro hnone k r hr
    obtain ⟨q, hq, ho⟩ := Option.bind_eq_some_iff.1 hr
    have hall := List.find?_eq_none.1 hnone q (Table.mem_values hq)
    rw [ho] at hall
    simpa using hall

end Core

theorem view_of_core {w w' : World Event} (h : core w' = core w) : view w' = view w := by
  obtain ⟨hs, hl⟩ := Prod.mk.inj h
  unfold view
  rw [hs, hl]

theorem view_of_store {w w' : World Event} (ht : w'.store.submissions = w.store.submissions)
    (ho : w'.store.objects = w.store.objects) (hl : created w' = created w) : view w' = view w := by
  unfold view Store.object
  rw [ht, ho, hl]

theorem view_modify {w w' : World Event} {r : Nat} {f : StoreRecord → StoreRecord} (g : Label → Label)
    (hf : ∀ rec, label (f rec) = g (label rec)) (hs : w'.store = w.store.modify r f)
    (hl : created w' = created w) :
    view w' = { view w with object := fun q => if q = r then ((view w).object q).map g else (view w).object q } := by
  have hobject : (fun q => (w'.store.object q).map label) =
      fun q => if q = r then ((view w).object q).map g else (view w).object q := by
    funext q
    rw [hs, Store.modify, Store.object, List.getElem?_modify, view]
    dsimp only [Store.object]
    by_cases hq : r = q
    · subst hq
      cases w.store.objects[r]? with
      | none => simp
      | some rec => simp [hf]
    · rw [if_neg (Ne.symm hq)]
      cases w.store.objects[q]? with
      | none => rfl
      | some rec => simp [hq]
  have hstored : w'.store.submissions.get = w.store.submissions.get := by rw [hs]; rfl
  rw [view, hobject, hstored, hl]
  rfl

theorem view_label {w w' : World Event} {r : Nat} {f : StoreRecord → StoreRecord}
    (hf : ∀ rec, label (f rec) = label rec) (hs : w'.store = w.store.modify r f)
    (hl : created w' = created w) : view w' = view w := by
  rw [view_modify id hf hs hl]
  have hobject : (fun q => if q = r then ((view w).object q).map id else (view w).object q) =
      (view w).object := by
    funext q
    rw [Option.map_id_fun, id, ite_self]
  rw [hobject]

theorem created_assign {note : StoreRecord → Event} (hnote : ∀ rec, creation (note rec) = none) (r : Nat)
    (f : StoreRecord → StoreRecord) (w : World Event) : created (w.assign r note f) = created w := by
  unfold created World.assign
  cases w.store.object r with
  | none => rfl
  | some rec => exact List.filterMap_cons_none (hnote _)

theorem view_normalise (i : Nat) (purpose : Purpose) (r : Nat) (w : World Event) :
    view (w.normalise i purpose r) = view w := by
  refine view_label (f := normaliseSubmission) (fun _ => rfl) rfl ?_
  unfold created World.normalise
  cases w.store.object r with
  | none => rfl
  | some rec =>
    cases purpose.submits with
    | false => rfl
    | true => exact List.filterMap_cons_none rfl

theorem view_putObject {r : Nat} {rec : StoreRecord} {w : World Event} (i : Nat) (actor : Actor)
    (purpose : Purpose) (ho : w.store.object r = some rec) :
    view (w.putObject i actor purpose r) = { (view w).put r (label rec) with
      created := if purpose = .create then rec.id :: created w else created w } := by
  have hstored : (w.putObject i actor purpose r).store.submissions.get =
      fun k => if k = rec.id then some r else w.store.submissions.get k := by
    funext k
    rw [World.putObject, Store.putObject, ho]
    exact Table.get_set _ _ _ _
  have hobject : (fun q => ((w.putObject i actor purpose r).store.object q).map label) =
      fun q => if q = r then some (label rec) else (w.store.object q).map label := by
    funext q
    have hstore : (w.putObject i actor purpose r).store.object q = w.store.object q := by
      rw [World.putObject, Store.putObject, ho]
      rfl
    by_cases hq : q = r
    · subst hq
      rw [hstore, ho, if_pos rfl]
      rfl
    · rw [hstore, if_neg hq]
  have hcreated : created (w.putObject i actor purpose r) =
      if purpose = .create then rec.id :: created w else created w := by
    unfold created World.putObject
    rw [ho]
    cases purpose <;> rfl
  rw [view, hstored, hobject, hcreated]
  rfl

theorem view_makeObject (w : World Event) (rec : StoreRecord) :
    view { w with store.objects := w.store.objects ++ [rec] } =
      (view w).make w.store.objects.length (label rec) := by
  have hobject : (fun q => (({ w.store with objects := w.store.objects ++ [rec] } : Store).object q).map label) =
      fun q => if q = w.store.objects.length then some (label rec) else (view w).object q := by
    funext q
    by_cases hq : q = w.store.objects.length
    · rw [hq, if_pos rfl, Store.object, List.getElem?_concat_length]
      rfl
    · rw [if_neg hq, Store.object, List.getElem?_append]
      split
      · rfl
      · next hlt =>
        have hnone : (view w).object q = none :=
          Option.map_eq_none_iff.2 (List.getElem?_eq_none (Nat.le_of_not_lt hlt))
        rw [hnone, List.getElem?_eq_none (by rw [List.length_singleton]; omega)]
        rfl
  unfold view View.make
  dsimp only
  rw [hobject]
  rfl

section Requests

variable {seeds : List Seed} {v : View} {i : Nat}

theorem Stays.ofCore {K : β → Prop} {p : Action Event β}
    (h : ∀ w, view w = v → Stays seeds core (core w) K p) : Stays seeds view v K p :=
  fun w hw => (h w hw w rfl).mono
    (fun _ _ hx => ⟨(view_of_core hx.1).trans hw, hx.2⟩) fun _ _ he => (view_of_core he).trans hw

theorem stays_emit {e : Event} (he : creation e = none) :
    Stays seeds view v (fun _ => True) (Async.update (World.emit e)) := by
  refine stays_update fun w hw => ?_
  have hl : created (w.emit e) = created w := List.filterMap_cons_none he
  have hview : view (w.emit e) = view w := view_of_store rfl rfl hl
  exact hview.trans hw

theorem stays_getSession (id : String) : Stays seeds view v (fun _ => True) (getSession id) := by
  unfold getSession
  split
  · exact .pure trivial
  refine stays_wait.seq fun a _ => stays_read.seq fun w _ => ?_
  refine Stays.seq (K := fun _ => True) (stays_updateGet fun w hw => ⟨?_, trivial⟩) fun sess _ => ?_
  · obtain ⟨ht, ho, -⟩ := w.store.getSession_rest id a.clock
    exact (view_of_store ht ho (created_change _ _ (fun _ => rfl) w)).trans hw
  · split
    · exact (stays_awaiting stays_persist).seq fun _ _ => .pure trivial
    · exact .pure trivial

theorem stays_sessionFrom (sid : String) : Stays seeds view v (fun _ => True) (sessionFrom sid) := by
  unfold sessionFrom
  split
  · exact .pure trivial
  refine (stays_awaiting (stays_getSession sid)).seq fun x _ => ?_
  obtain ⟨found, a⟩ := x
  cases found <;> exact .pure trivial

theorem stays_operatorBody (sid : String) (body : Option Json) :
    Stays seeds view v (fun _ => True) (operatorBody sid body) := by
  refine (stays_awaiting (stays_sessionFrom sid)).seq fun x _ => ?_
  obtain ⟨s, a⟩ := x
  cases s with
  | none => exact .pure trivial
  | some pc =>
    refine stays_wait.seq fun _ _ => ?_
    cases body <;> exact .pure trivial

theorem stays_adminBody (g : Gates) (sid : String) (body : Option Json) :
    Stays seeds view v (fun _ => True) (adminBody g sid body) := by
  have hadmin : Stays seeds view v (fun _ => True) (adminFrom g sid) := by
    refine (stays_awaiting (stays_sessionFrom sid)).seq fun x _ => ?_
    obtain ⟨s, a⟩ := x
    cases s with
    | none => exact .pure trivial
    | some pc =>
      dsimp only
      split <;> exact .pure trivial
  refine (stays_awaiting hadmin).seq fun x _ => ?_
  obtain ⟨refusal, a⟩ := x
  cases refusal with
  | some r => exact .pure trivial
  | none =>
    refine stays_wait.seq fun _ _ => ?_
    cases body <;> exact .pure trivial

theorem stays_getSubmission (hv : Unique seeds v) (id : Option Json) :
    Stays seeds view v (fun x => ∀ r, x = .own r → v.Holds r) (getSubmission i id) := by
  refine stays_wait.seq fun a _ => (stays_ofExcept _).seq fun id _ => stays_updateGet fun w hw => ?_
  have hl (note : Found Nat → List Event) (hn : ∀ x, (note x).filterMap creation = []) :
      created (w.change (Store.getSubmission id) note).2 = created w :=
    created_change (Store.getSubmission id) note hn w
  obtain ⟨r, hf, hget⟩ | ⟨hf, -⟩ | ⟨hf, -⟩ := w.store.submissions.find_cases w.store.prototype id
  · have hsub : w.store.getSubmission id = (.own r, w.store.modify r normaliseSubmission) := by
      rw [Store.getSubmission, hf]
    refine ⟨(view_label (r := r) (f := normaliseSubmission) (fun _ => rfl) ?_ (hl _ fun x => by cases x <;> rfl)).trans hw, ?_⟩
    · exact congrArg Prod.snd hsub
    · intro q hq
      rw [World.change, hsub] at hq
      cases hq
      subst hw
      exact hv.holds hget
  · have hsub : w.store.getSubmission id =
        (.inherited, if id = "__proto__" then { w.store with prototype := ["paymentCodes"] } else w.store) := by
      rw [Store.getSubmission, hf]
    have hstore := congrArg Prod.snd hsub
    refine ⟨(view_of_store ?_ ?_ (hl _ fun x => by cases x <;> rfl)).trans hw, ?_⟩
    · rw [World.change, hsub]
      dsimp only
      split <;> rfl
    · rw [World.change, hsub]
      dsimp only
      split <;> rfl
    · intro q hq
      rw [World.change, hsub] at hq
      cases hq
  · have hsub : w.store.getSubmission id = (.absent, w.store) := by rw [Store.getSubmission, hf]
    refine ⟨(view_of_store ?_ ?_ (hl _ fun x => by cases x <;> rfl)).trans hw, ?_⟩
    · rw [World.change, hsub]
    · rw [World.change, hsub]
    · intro q hq
      rw [World.change, hsub] at hq
      cases hq

theorem stays_readLabel (r : Nat) :
    Stays seeds view v (fun rec => v.object r = some (label rec)) (readObject r) := by
  apply Stays.ofCore
  rintro w rfl
  refine (stays_readObject r).mono fun rec ho => ?_
  change (w.store.object r).map label = _
  rw [ho]
  rfl

theorem stays_found (hv : Unique seeds v) (body : Json) :
    Stays seeds view v (fun x => ∀ r, x = .own r → v.Holds r)
      (do getSubmission i (← ofExcept (body.get "id"))) :=
  (stays_ofExcept _).seq fun id _ => stays_getSubmission hv id

theorem stays_ownedSubmission (hv : Unique seeds v) (pc : Option String) (body : Json) :
    Stays seeds view v (fun x => ∀ r, x.1 = some r → v.Holds r) (ownedSubmission i pc body) := by
  refine (stays_awaiting (stays_found hv body)).seq fun x hx => ?_
  obtain ⟨found, a⟩ := x
  cases found with
  | own r =>
    refine (stays_readLabel r).seq fun rec _ => .pure fun q hq => ?_
    dsimp only at hq
    split at hq
    · cases hq
      exact hx _ rfl
    · cases hq
  | inherited => exact .pure fun _ h => absurd h (by simp)
  | absent => exact .pure fun _ h => absurd h (by simp)

theorem stays_foundSubmission (hv : Unique seeds v) (body : Json) :
    Stays seeds view v (fun x => ∀ r, x.1 = some r → v.Holds r) (foundSubmission i body) := by
  refine (stays_awaiting (stays_found hv body)).seq fun x hx => ?_
  obtain ⟨found, a⟩ := x
  cases found with
  | own r =>
    refine .pure fun q hq => ?_
    cases hq
    exact hx _ rfl
  | inherited => exact .throw _
  | absent => exact .pure fun _ h => absurd h (by simp)

theorem stays_writeAtomic : Stays seeds view v (fun _ => True) (rebuild.writeAtomic : Action Event Unit) :=
  stays_fileOperation.seq fun _ _ => stays_fileOperation.seq fun _ _ =>
    stays_fileOperation.seq fun _ _ => .pure trivial

theorem stays_list (sees : Bool) :
    Stays seeds view v (fun _ => True) (listSubmissions i sees) :=
  Stays.ofCore fun _ _ => (stays_listSubmissions sees).mono fun _ _ => trivial

theorem stays_rebuild : Stays seeds view v (fun _ => True) (rebuild i) :=
  (stays_emit rfl).seq fun _ _ =>
  (stays_awaiting stays_fileOperation).seq fun _ _ =>
  (stays_awaiting stays_fileOperation).seq fun _ _ =>
  stays_wait.seq fun _ _ =>
  (stays_awaiting (stays_list false)).seq fun _ _ =>
  stays_read.seq fun _ _ =>
  (stays_awaiting stays_fileOperation).seq fun _ _ =>
  (stays_awaiting stays_fileOperation).seq fun _ _ =>
  (stays_awaiting stays_wait).seq fun _ _ =>
  (stays_awaiting stays_wait).seq fun _ _ =>
  (stays_awaiting stays_writeAtomic).seq fun _ _ =>
  (stays_emit rfl).seq fun _ _ =>
  (stays_awaiting stays_fileOperation).seq fun _ _ =>
  (stays_awaiting stays_writeAtomic).seq fun _ _ =>
  (stays_awaiting stays_fileOperation).seq fun _ _ =>
  (stays_awaiting stays_writeAtomic).seq fun _ _ => .pure trivial

theorem stays_tryRebuild : Stays seeds view v (fun _ => True) (tryRebuild i) :=
  .tryCatch ((stays_awaiting stays_rebuild).seq fun _ _ => .pure trivial) fun _ => .pure trivial

theorem stays_change {note : StoreRecord → Event} (hnote : ∀ rec, creation (note rec) = none) (r : Nat)
    {f : StoreRecord → StoreRecord} (hf : ∀ rec, label (f rec) = label rec) :
    Stays seeds view v (fun _ => True) (Async.update (World.assign r note f)) := by
  refine stays_update fun w hw => ?_
  have hview : view (w.assign r note f) = view w := view_label hf rfl (created_assign hnote r f w)
  exact hview.trans hw

theorem stays_putSubmission {actor : Actor} {purpose : Purpose} {r : Nat} (hp : purpose ≠ .create)
    (hr : v.Holds r) : Stays seeds view v (fun _ => True) (putSubmission i actor purpose r) := by
  refine (stays_update fun w hw => (view_normalise i purpose r w).trans hw).seq fun _ _ =>
    stays_read.seq fun w _ => ?_
  cases (w.store.object r).map StoreRecord.guard with
  | none => exact .throw _
  | some outcome =>
    cases outcome with
    | error e => exact .throw _
    | ok _ =>
      refine stays_wait.seq fun _ _ => Stays.seq (K := fun _ => True) (stays_update fun w' hw' => ?_) fun _ _ =>
        (stays_awaiting stays_persist).seq fun _ _ => .pure trivial
      obtain ⟨l, ho, hs⟩ := hr
      rw [← hw'] at ho hs ⊢
      obtain ⟨rec, hrec, rfl⟩ := Option.map_eq_some_iff.1 ho
      rw [view_putObject i actor purpose hrec, if_neg hp, View.put]
      have hstored : (fun k => if k = (label rec).id then some r else (view w').stored k) =
          (view w').stored := by
        funext k
        split
        · next hk =>
          rw [hk]
          exact hs.symm
        · rfl
      have hobject : (fun q => if q = r then some (label rec) else (view w').object q) =
          (view w').object := by
        funext q
        split
        · next hq =>
          rw [hq]
          exact ho.symm
        · rfl
      rw [hstored, hobject]
      rfl

theorem stays_republish (r : Nat) :
    Stays seeds view v (fun _ => True) (applyEdit.republish i r) := by
  refine (stays_readLabel r).seq fun rec _ => ?_
  split
  · exact (stays_awaiting stays_tryRebuild).seq fun _ _ => .pure trivial
  · exact .pure trivial

theorem stays_paynym (r : Nat) (given : Option Json) :
    Stays seeds view v (fun _ => True) (approve.paynym i r given) := by
  have hset (nym : String) : Stays seeds view v (fun _ => True) (approve.setPaynym i r nym) :=
    stays_change (fun _ => rfl) r fun _ => rfl
  unfold approve.paynym
  split
  · split
    · exact hset _
    · exact .throw _
  · refine (stays_readLabel r).seq fun rec _ => ?_
    split
    · refine stays_wait.seq fun a _ => ?_
      split
      · exact hset _
      · exact .pure trivial
    · exact .pure trivial

theorem stays_approve (hv : Unique seeds v) (g : Gates) (sid : String) (body : Option Json) :
    Stays seeds view v (fun _ => True) (approve g i sid body) := by
  refine (stays_adminBody g sid body).seq fun x _ => ?_
  cases x with
  | error r => exact .pure trivial
  | ok body =>
    refine (stays_foundSubmission hv body).seq fun x hx => ?_
    obtain ⟨found, a⟩ := x
    cases found with
    | none => exact .pure trivial
    | some r =>
      have hput : Stays seeds view v (fun _ => True) (putSubmission i .maintainer .keep r) :=
        stays_putSubmission (by simp) (hx r rfl)
      refine Stays.seq (stays_change (fun _ => rfl) r fun _ => rfl) fun _ _ => ?_
      exact (stays_ofExcept _).seq fun _ _ => (stays_paynym r _).seq fun _ _ =>
        (stays_awaiting hput).seq fun _ _ => (stays_awaiting stays_tryRebuild).seq fun _ _ => .pure trivial

theorem stays_reject (hv : Unique seeds v) (g : Gates) (sid : String) (body : Option Json) :
    Stays seeds view v (fun _ => True) (reject g i sid body) := by
  refine (stays_adminBody g sid body).seq fun x _ => ?_
  cases x with
  | error r => exact .pure trivial
  | ok body =>
    refine (stays_foundSubmission hv body).seq fun x hx => ?_
    obtain ⟨found, a⟩ := x
    cases found with
    | none => exact .pure trivial
    | some r =>
      have hput : Stays seeds view v (fun _ => True) (putSubmission i .maintainer .keep r) :=
        stays_putSubmission (by simp) (hx r rfl)
      refine Stays.seq (stays_change (fun _ => rfl) r fun _ => rfl) fun _ _ => ?_
      exact (stays_awaiting hput).seq fun _ _ =>
        (stays_awaiting stays_tryRebuild).seq fun _ _ => .pure trivial

theorem stays_pairing (hv : Unique seeds v) (g : Gates) (sid : String) (body : Option Json) :
    Stays seeds view v (fun _ => True) (pairing g i sid body) := by
  refine (stays_operatorBody sid body).seq fun x _ => ?_
  cases x with
  | error r => exact .pure trivial
  | ok x =>
    obtain ⟨pc, body⟩ := x
    refine (stays_ownedSubmission hv pc body).seq fun x hx => ?_
    obtain ⟨target, a⟩ := x
    cases target with
    | none => exact .pure trivial
    | some r =>
      dsimp only
      unfold pairing.verified
      refine (stays_readLabel r).seq fun old _ => (stays_ofExcept _).seq fun payload _ =>
        (stays_ofExcept _).seq fun err _ => ?_
      cases err with
      | some e => exact .pure trivial
      | none =>
        refine (stays_ofExcept _).seq fun given _ => ?_
        cases given with
        | none => exact .pure trivial
        | some block =>
          dsimp only
          split
          · exact .pure trivial
          · unfold pairing.probed
            have hput : Stays seeds view v (fun _ => True) (putSubmission i (.operator pc) .pairing r) :=
              stays_putSubmission (by simp) (hx r rfl)
            refine stays_wait.seq fun a _ => ?_
            dsimp only
            split
            · refine (stays_ofExcept _).seq fun _ _ => (stays_ofExcept _).seq fun _ _ => ?_
              refine Stays.seq (stays_change (fun _ => rfl) r fun _ => rfl) fun _ _ => ?_
              exact (stays_awaiting hput).seq fun _ _ => stays_republish r
            · exact .pure trivial

end Requests

/-- Run alone, it leads from what `φ` sees to a view that satisfies `P`. -/
def Leads (seeds : List Seed) (φ : World Event → γ) (c : γ) (P : View → Prop) (p : Action Event β) : Prop :=
  ∀ w, φ w = c → Wp (Fixed seeds) (fun _ w' => P (view w')) (fun _ w' => P (view w')) p w

section Leads

variable {seeds : List Seed} {φ : World Event → γ} {c : γ} {v v' : View} {P : View → Prop}
  {p : Action Event β}

theorem Leads.pure (hP : ∀ w, φ w = c → P (view w)) (x : β) :
    Leads seeds φ c P (Pure.pure x : Action Event β) := hP

theorem Leads.throw (hP : ∀ w, φ w = c → P (view w)) (e : Fault) :
    Leads seeds φ c P (MonadExcept.throw e : Action Event β) := hP

theorem Leads.seq {K : β → Prop} {g : β → Action Event β'} (hP : ∀ w, φ w = c → P (view w))
    (h : Stays seeds φ c K p) (hg : ∀ x, K x → Leads seeds φ c P (g x)) :
    Leads seeds φ c P (p >>= g) := by
  intro w hw
  rw [wp_bind]
  exact (h w hw).mono (fun x w' hx => hg x hx.2 w' hx.1) fun _ w' he => hP w' he

theorem Leads.bind {g : β → Action Event β'} (h : Leads seeds φ c P p)
    (hg : ∀ x v', P v' → Leads seeds view v' P (g x)) : Leads seeds φ c P (p >>= g) := by
  intro w hw
  rw [wp_bind]
  exact (h w hw).mono (fun x w' hx => hg x _ hx w' rfl) fun _ _ he => he

theorem Leads.awaiting (h : Leads seeds φ c P p) : Leads seeds φ c P (awaiting p) :=
  h.bind fun x _ hv => Leads.seq (fun w hw => by rw [hw]; exact hv) stays_wait fun a _ =>
    .pure (fun w hw => by rw [hw]; exact hv) (x, a)

theorem Leads.core (h : ∀ w, view w = v → Leads seeds core (core w) P p) : Leads seeds view v P p :=
  fun w hw => h w hw w rfl

theorem Stays.leads (h : Stays seeds view v (fun _ => True) p) (hP : P v) : Leads seeds view v P p :=
  fun w hw => (h w hw).mono (fun _ _ hx => by rw [hx.1]; exact hP) fun _ _ he => by rw [he]; exact hP

theorem Leads.change {f : World Event → β × World Event} {x : β} {g : β → Action Event β'}
    (hf : ∀ w, φ w = c → view (f w).2 = v' ∧ (f w).1 = x) (hg : Leads seeds view v' P (g x)) :
    Leads seeds φ c P (Async.updateGet f >>= g) := by
  intro w hw
  obtain ⟨hv, hx⟩ := hf w hw
  rw [wp_bind, wp_updateGet, hx]
  exact hg _ hv

theorem Leads.update {f : World Event → World Event} {g : Unit → Action Event β'}
    (hf : ∀ w, φ w = c → view (f w) = v') (hg : Leads seeds view v' P (g ())) :
    Leads seeds φ c P (Async.update f >>= g) := by
  intro w hw
  rw [wp_bind, wp_update]
  exact hg _ (hf w hw)

end Leads

/-- Names stay unique, and a record is created at most once, under an id that was free. -/
def Good (seeds : List Seed) (v₀ v : View) : Prop :=
  Unique seeds v ∧ (v.created = v₀.created ∨ ∃ id, v.created = id :: v₀.created ∧ v₀.stored id = none)

section Handlers

variable {seeds : List Seed} {v : View} {i : Nat} {w : World Event}

theorem Good.refl (hv : Unique seeds v) : Good seeds v v := ⟨hv, .inl rfl⟩

theorem good_core (hv : Unique seeds (view w)) : ∀ w', core w' = core w → Good seeds (view w) (view w') := by
  intro w' hw'
  rw [view_of_core hw']
  exact .refl hv

theorem good_view (hv : Unique seeds v) : ∀ w, view w = v → Good seeds v (view w) := by
  rintro w rfl
  exact .refl hv

theorem record_label {k : String} {l : Label} (h : (view w).label k = some l) :
    ∃ rec, w.store.record k = some rec ∧ label rec = l := by
  rw [label_view] at h
  exact Option.map_eq_some_iff.1 h

theorem seed_apart {n : Seed} {network : Network} {slug : String} (h : n.named network slug = false)
    (hn : n.network = network) : slugify (n.name.getD "") ≠ slug ∧ n.id ≠ network.text ++ "-" ++ slug := by
  unfold Seed.named at h
  constructor
  · intro he
    simp [hn, he] at h
  · intro he
    simp [hn, he] at h

theorem leads_applyEdit {actor : Actor} {r : Nat} {body : Json} (hv : Unique seeds v) (hr : v.Holds r) :
    Leads seeds view v (Good seeds v) (applyEdit i actor r body) := by
  unfold applyEdit
  refine Leads.seq (good_view hv) (stays_givenName body) fun name _ => ?_
  dsimp only
  split
  · exact .pure (good_view hv) _
  refine Leads.core fun w hw => ?_
  subst hw
  refine Leads.seq (good_core hv) (stays_readObject r) fun old hold => ?_
  refine Leads.seq (good_core hv) (stays_awaiting (stays_slugTakenByOther _ _ _)) fun x hx => ?_
  obtain ⟨taken, a⟩ := x
  cases taken with
  | some why => exact .pure (good_core hv) _
  | none =>
    obtain ⟨hother, hseed⟩ := hx rfl
    obtain ⟨l, ho, hs⟩ := hr
    obtain rfl : label old = l := by
      have hlabel : (view w).object r = some (label old) := by
        change (w.store.object r).map label = _
        rw [hold]
        rfl
      exact Option.some.inj (hlabel.symm.trans ho)
    have hold' : (view w).label old.id = some (label old) := by
      rw [View.label, show (view w).stored old.id = some r from hs]
      exact ho
    -- The record keeps its id, and no other one has the new name.
    have hrename : ∀ w', core w' = core w →
        view (w'.assign r (.changed i actor r) fun rec => { rec with name := some name }) =
          (view w).put r ⟨old.id, old.network, some name⟩ := by
      intro w' hw'
      rw [← view_of_core hw'] at ho hs ⊢
      rw [view_modify (fun l => { l with name := some name }) (fun _ => rfl) rfl
        (created_assign (fun _ => rfl) r _ w'), View.put]
      have hstored : (fun k => if k = old.id then some r else (view w').stored k) = (view w').stored := by
        funext k
        split
        · next hk =>
          rw [hk]
          exact hs.symm
        · rfl
      have hobject : (fun q => if q = r then ((view w').object q).map fun l => { l with name := some name }
          else (view w').object q) = fun q => if q = r then some ⟨old.id, old.network, some name⟩
          else (view w').object q := by
        funext q
        split
        · next hq =>
          rw [hq, ho]
          rfl
        · rfl
      rw [hstored, hobject]
    have hunique : Unique seeds ((view w).put r ⟨old.id, old.network, some name⟩) := by
      apply hv.put
      · intro k hk
        obtain ⟨l', hl', hid⟩ := hv.stored k r hk
        obtain rfl := Option.some.inj (ho.symm.trans hl')
        exact hid.symm
      · exact .inl ⟨label old, hold', rfl⟩
      · intro k l' hl' hk hocc
        obtain ⟨rec, hrec, rfl⟩ := record_label hl'
        have hne : rec.id ≠ old.id := by
          rw [show rec.id = k from hv.id hl']
          exact hk
        have hnamed := (Label.occupies_iff rec old.network (slugify name)).2 hocc
        have hfalse := hother k rec hrec
        rw [hnamed, Bool.and_true, decide_eq_false_iff_not] at hfalse
        exact hfalse hne
      · intro n hn hnet
        have hne : n.id ≠ old.id := (hv.free old.id (label old) hold' n hn hnet).1
        have hfalse := hseed n hn
        rw [decide_eq_true hne, Bool.true_and] at hfalse
        exact seed_apart hfalse hnet
    have hholds : ((view w).put r ⟨old.id, old.network, some name⟩).Holds r :=
      ⟨_, if_pos rfl, if_pos rfl⟩
    refine Leads.update hrename (Stays.leads ?_ ⟨hunique, .inl rfl⟩)
    refine Stays.seq (stays_ofExcept _) fun _ _ => Stays.seq (stays_ofExcept _) fun _ _ => ?_
    refine Stays.seq (stays_change (fun _ => rfl) r fun rec => by unfold label; rfl) fun _ _ => ?_
    have hput : Stays seeds view ((view w).put r ⟨old.id, old.network, some name⟩) (fun _ => True)
        (putSubmission i actor .keep r) := stays_putSubmission (by simp) hholds
    exact (stays_awaiting hput).seq fun _ _ => stays_republish r

theorem leads_edit (hv : Unique seeds v) (sid : String) (body : Option Json) :
    Leads seeds view v (Good seeds v) (edit i sid body) := by
  refine Leads.seq (good_view hv) (stays_operatorBody sid body) fun x _ => ?_
  cases x with
  | error r => exact .pure (good_view hv) _
  | ok x =>
    obtain ⟨pc, body⟩ := x
    refine Leads.seq (good_view hv) (stays_ownedSubmission hv pc body) fun x hx => ?_
    obtain ⟨target, a⟩ := x
    cases target with
    | none => exact .pure (good_view hv) _
    | some r =>
      exact (leads_applyEdit hv (hx r rfl)).awaiting.bind fun x v' hv' =>
        .pure (fun w hw => by rw [hw]; exact hv') x.1

theorem leads_adminEdit (hv : Unique seeds v) (g : Gates) (sid : String) (body : Option Json) :
    Leads seeds view v (Good seeds v) (adminEdit g i sid body) := by
  refine Leads.seq (good_view hv) (stays_adminBody g sid body) fun x _ => ?_
  cases x with
  | error r => exact .pure (good_view hv) _
  | ok body =>
    refine Leads.seq (good_view hv) (stays_awaiting (stays_found hv body)) fun x hx => ?_
    obtain ⟨found, a⟩ := x
    cases found with
    | absent => exact .pure (good_view hv) _
    | inherited =>
      refine Leads.seq (good_view hv) (stays_givenName body) fun name _ => ?_
      split
      · exact .pure (good_view hv) _
      · exact .throw (good_view hv) _
    | own r =>
      exact (leads_applyEdit hv (hx r rfl)).awaiting.bind fun x v' hv' =>
        .pure (fun w hw => by rw [hw]; exact hv') x.1

theorem view_deleteSubmission {w w' : World Event} {note : Found Nat → List Event}
    (hn : ∀ x, (note x).filterMap creation = []) (h : core w' = core w) (id : String) :
    view (w'.change (fun s => (s.submissions.find s.prototype id, s.deleteSubmission id)) note).2 =
        { view w with stored := fun k => if k = id then none else (view w).stored k } ∧
      (w'.change (fun s => (s.submissions.find s.prototype id, s.deleteSubmission id)) note).1 =
        w.store.submissions.find w.store.prototype id := by
  obtain ⟨hs, hl⟩ := Prod.mk.inj h
  refine ⟨?_, by rw [← hs]; rfl⟩
  rw [view, created_change _ _ hn, hl]
  have hstored : (w'.store.submissions.delete id).get =
      fun k => if k = id then none else w.store.submissions.get k := by
    funext k
    rw [Table.get_delete, hs]
  rw [World.change, Store.deleteSubmission]
  dsimp only
  rw [hstored, hs]
  rfl

theorem leads_deleteSubmission (hv : Unique seeds v) (actor : Actor) (id : Option Json) :
    Leads seeds view v (Good seeds v) (deleteSubmission i actor id) := by
  refine Leads.seq (good_view hv) stays_wait fun a _ => Leads.seq (good_view hv) (stays_ofExcept _) fun id _ => ?_
  refine Leads.core fun w hw => ?_
  subst hw
  refine Leads.change (fun w' hw' => view_deleteSubmission (fun x => by cases x <;> rfl) hw' id) (Stays.leads ?_ ⟨hv.delete (fun k => ?_) fun _ _ _ => rfl, .inl rfl⟩)
  · dsimp only
    split
    · rw [if_pos rfl]
      exact Stays.pure trivial
    · rw [if_neg Bool.false_ne_true]
      exact Stays.seq (stays_awaiting stays_persist) fun _ _ => .pure trivial
  · dsimp only
    split
    · exact .inr rfl
    · exact .inl rfl

theorem leads_delete (hv : Unique seeds v) (sid : String) (body : Option Json) :
    Leads seeds view v (Good seeds v) (delete i sid body) := by
  refine Leads.seq (good_view hv) (stays_operatorBody sid body) fun x _ => ?_
  cases x with
  | error r => exact .pure (good_view hv) _
  | ok x =>
    obtain ⟨pc, body⟩ := x
    refine Leads.seq (good_view hv) (stays_ownedSubmission hv pc body) fun x hx => ?_
    obtain ⟨target, a⟩ := x
    cases target with
    | none => exact .pure (good_view hv) _
    | some r =>
      have hdelete : Leads seeds view v (Good seeds v)
          (do deleteSubmission i (.operator pc) (← ofExcept (body.get "id"))) :=
        Leads.seq (good_view hv) (stays_ofExcept _) fun id _ => leads_deleteSubmission hv _ id
      exact hdelete.awaiting.bind fun x v' hv' => .pure (fun w hw => by rw [hw]; exact hv') _

theorem leads_remove (hv : Unique seeds v) (g : Gates) (sid : String) (body : Option Json) :
    Leads seeds view v (Good seeds v) (remove g i sid body) := by
  refine Leads.seq (good_view hv) (stays_adminBody g sid body) fun x _ => ?_
  cases x with
  | error r => exact .pure (good_view hv) _
  | ok body =>
    have hdelete : Leads seeds view v (Good seeds v)
        (do deleteSubmission i .maintainer (← ofExcept (body.get "id"))) :=
      Leads.seq (good_view hv) (stays_ofExcept _) fun id _ => leads_deleteSubmission hv _ id
    refine hdelete.awaiting.bind fun x v' hv' => Stays.leads ?_ hv'
    exact (stays_awaiting stays_tryRebuild).seq fun _ _ => .pure trivial

theorem leads_putNew {P : View → Prop} {actor : Actor} {purpose : Purpose} {r : Nat} {l : Label}
    (ho : v.object r = some l) (hP : P v)
    (hput : P { v.put r l with created := if purpose = .create then l.id :: v.created else v.created }) :
    Leads seeds view v P (putSubmission i actor purpose r) := by
  have hview : ∀ w, view w = v → P (view w) := by
    rintro w rfl
    exact hP
  refine Leads.update (fun w hw => (view_normalise i purpose r w).trans hw) ?_
  refine Leads.seq hview stays_read fun w _ => ?_
  cases (w.store.object r).map StoreRecord.guard with
  | none => exact .throw hview _
  | some outcome =>
    cases outcome with
    | error e => exact .throw hview _
    | ok _ =>
      refine Leads.seq hview stays_wait fun _ _ => ?_
      refine Leads.update (fun w' hw' => ?_) (Stays.leads ?_ hput)
      · rw [← hw'] at ho ⊢
        obtain ⟨rec, hrec, rfl⟩ := Option.map_eq_some_iff.1 ho
        exact view_putObject i actor purpose hrec
      · exact (stays_awaiting stays_persist).seq fun _ _ => .pure trivial

/-- A record is made and stored. Its id has been stored before, or it is free and that of its name. -/
theorem leads_create {actor : Actor} {purpose : Purpose} {rec : StoreRecord} {x : Response}
    (hv : Unique seeds (view w))
    (hid : (∃ l', (view w).label rec.id = some l' ∧ l'.network = rec.network) ∨ rec.id = (label rec).named)
    (hother : ∀ k l', (view w).label k = some l' → k ≠ rec.id → ¬ l'.Occupies rec.network (label rec).slug)
    (hseed : ∀ n ∈ seeds, n.named rec.network (label rec).slug = false)
    (hnew : purpose = .create → (view w).stored rec.id = none) :
    Leads seeds core (core w) (Good seeds (view w)) (do
      let r ← makeObject rec
      let _ ← awaiting (putSubmission i actor purpose r)
      return x) := by
  have hunused : ∀ k, (view w).stored k ≠ some w.store.objects.length := by
    intro k hk
    obtain ⟨l, ho, -⟩ := hv.stored k _ hk
    obtain ⟨rec, hrec, -⟩ := Option.map_eq_some_iff.1 ho
    have hnone : w.store.object w.store.objects.length = none := List.getElem?_eq_none le_rfl
    rw [hnone] at hrec
    cases hrec
  have hmake : Unique seeds ((view w).make w.store.objects.length (label rec)) := by
    refine hv.delete (fun k => .inl rfl) fun k r hr => if_neg ?_
    rintro rfl
    exact hunused k hr
  have hput : Unique seeds ((view w).put w.store.objects.length (label rec)) := by
    apply hv.put
    · exact fun k hk => absurd hk (hunused k)
    · exact hid
    · exact hother
    · exact fun n hn hnet => seed_apart (hseed n hn) hnet
  have hgood : Good seeds (view w) { ((view w).make w.store.objects.length (label rec)).put
      w.store.objects.length (label rec) with
      created := if purpose = .create then rec.id :: created w else created w } := by
    rw [View.put_make]
    refine ⟨⟨hput.stored, hput.origin, hput.apart, hput.free⟩, ?_⟩
    dsimp only
    split
    · next hp => exact .inr ⟨rec.id, rfl, hnew hp⟩
    · exact .inl rfl
  have hmade : ∀ w', core w' = core w → view { w' with store.objects := w'.store.objects ++ [rec] } =
      (view w).make w.store.objects.length (label rec) ∧ w'.store.objects.length = w.store.objects.length := by
    intro w' hw'
    have hlen := congrArg (fun s : Store => s.objects.length) (Prod.mk.inj hw').1
    rw [view_makeObject, view_of_core hw', hlen]
    exact ⟨rfl, rfl⟩
  refine Leads.change hmade ?_
  exact (leads_putNew (if_pos rfl) ⟨hmake, .inl rfl⟩ hgood).awaiting.bind fun _ v' hv' =>
    .pure (fun w hw => by rw [hw]; exact hv') x

theorem leads_store {g : Gates} {pc : Option String} {body payload : Json} {network : Network}
    {name block id : String} {check : Probe} {now : Int} {purpose : Purpose} {existing : Option Nat}
    (hv : Unique seeds (view w))
    (hid : (∃ l', (view w).label id = some l' ∧ l'.network = network) ∨
      id = network.text ++ "-" ++ slugify name)
    (hother : ∀ k l', (view w).label k = some l' → k ≠ id → ¬ l'.Occupies network (slugify name))
    (hseed : ∀ n ∈ seeds, n.named network (slugify name) = false)
    (hnew : purpose = .create → (view w).stored id = none) :
    Leads seeds core (core w) (Good seeds (view w))
      (submit.store g i pc body network name payload block check now id purpose existing) := by
  unfold submit.store
  refine Leads.seq (good_core hv) stays_wait fun a _ => Leads.seq (good_core hv) stays_read fun w' _ => ?_
  refine Leads.seq (good_core hv) (stays_ofExcept _) fun _ _ =>
    Leads.seq (good_core hv) (stays_ofExcept _) fun _ _ =>
    Leads.seq (good_core hv) (stays_ofExcept _) fun _ _ =>
    Leads.seq (good_core hv) (stays_ofExcept _) fun _ _ =>
    Leads.seq (good_core hv) (stays_ofExcept _) fun _ _ =>
    Leads.seq (good_core hv) (stays_ofExcept _) fun _ _ => ?_
  exact leads_create hv hid hother hseed hnew

theorem stored_of_value {s : Store} {r : Nat} (h : r ∈ s.submissions.values) :
    ∃ k, s.submissions.get k = some r := by
  obtain ⟨x, hx, rfl⟩ := List.mem_map.1 h
  exact ⟨x.1, Table.get_of_mem hx⟩

theorem leads_probed {g : Gates} {pc : Option String} {body payload : Json} {network : Network}
    {name block : String} (hv : Unique seeds (view w))
    (hfree : ∀ k r, w.store.record k = some r → (r.named network (slugify name) && !owns r pc) = false)
    (hseed : ∀ n ∈ seeds, n.named network (slugify name) = false) :
    Leads seeds core (core w) (Good seeds (view w))
      (submit.probed g i pc body network name (slugify name) payload block) := by
  unfold submit.probed
  refine Leads.seq (good_core hv) stays_wait fun a _ => ?_
  dsimp only
  split
  · refine Leads.seq (good_core hv) (stays_awaiting (stays_ownedRecordFor network (slugify name) pc))
      fun x hx => ?_
    obtain ⟨existing, b⟩ := x
    obtain ⟨hfound, hnone⟩ := hx
    cases existing with
    | some r =>
      obtain ⟨hr, rec, ho, hnamed⟩ := hfound r rfl
      refine Leads.seq (good_core hv) (stays_readObject r) fun rec' ho' => ?_
      obtain rfl := Option.some.inj (ho.symm.trans ho')
      obtain ⟨k, hk⟩ := stored_of_value hr
      have hrecord : (view w).label k = some (label rec) := by
        rw [label_view, Store.record, hk, Option.bind_some, ho]
        rfl
      have hocc := (Label.occupies_iff rec network (slugify name)).1 hnamed
      obtain rfl : rec.id = k := hv.id hrecord
      apply leads_store hv
      · exact .inl ⟨label rec, hrecord, hocc.1⟩
      · exact fun k' l' hl' hne hocc' => hne (hv.occupies hl' hrecord hocc' hocc)
      · exact hseed
      · exact fun hp => absurd hp (by simp)
    | none =>
      -- What occupies the name would be the caller's, and there is none of the caller's.
      have hnobody : ∀ k l, (view w).label k = some l → ¬ l.Occupies network (slugify name) := by
        intro k l hl hocc
        obtain ⟨rec, hrec, rfl⟩ := record_label hl
        have hnamed := (Label.occupies_iff rec network (slugify name)).2 hocc
        have howned := hfree k rec hrec
        have hnot := hnone rfl k rec hrec
        rw [hnamed] at howned hnot
        cases h : owns rec pc with
        | true => rw [h] at hnot; cases hnot
        | false => rw [h] at howned; cases howned
      refine Leads.seq (good_core hv) (stays_ofExcept _) fun declared _ => ?_
      dsimp only
      split
      · exact .pure (good_core hv) _
      · apply leads_store hv
        · exact .inr rfl
        · exact fun k l' hl' _ => hnobody k l' hl'
        · exact hseed
        · exact fun _ => hv.stored_none hnobody
  · exact .pure (good_core hv) _

theorem leads_submit (hv : Unique seeds v) (g : Gates) (sid : String) (body : Option Json) :
    Leads seeds view v (Good seeds v) (submit g i sid body) := by
  refine Leads.seq (good_view hv) (stays_operatorBody sid body) fun x _ => ?_
  cases x with
  | error r => exact .pure (good_view hv) _
  | ok x =>
    obtain ⟨pc, body⟩ := x
    have hnamed (network : Network) : Leads seeds view v (Good seeds v) (submit.named g i pc body network) := by
      unfold submit.named
      refine Leads.seq (good_view hv) (stays_givenName body) fun name _ => ?_
      dsimp only
      split
      · exact .pure (good_view hv) _
      refine Leads.core fun w hw => ?_
      subst hw
      refine Leads.seq (good_core hv) (stays_awaiting (stays_nameConflict network (slugify name) pc))
        fun x hx => ?_
      obtain ⟨conflict, a⟩ := x
      cases conflict with
      | some why => exact .pure (good_core hv) _
      | none =>
        obtain ⟨hfree, hseed⟩ := hx rfl
        unfold submit.signed
        refine Leads.seq (good_core hv) (stays_ofExcept _) fun payload _ =>
          Leads.seq (good_core hv) (stays_ofExcept _) fun err _ => ?_
        cases err with
        | some e => exact .pure (good_core hv) _
        | none =>
          refine Leads.seq (good_core hv) (stays_ofExcept _) fun given _ => ?_
          cases given with
          | none => exact .pure (good_core hv) _
          | some block =>
            dsimp only
            split
            · exact .pure (good_core hv) _
            · exact leads_probed hv hfree hseed
    refine Leads.seq (good_view hv) (stays_ofExcept _) fun network _ => ?_
    split
    · exact hnamed .testnet
    · exact hnamed .mainnet
    · exact .pure (good_view hv) _

theorem leads_handler (hv : Unique seeds v) (g : Gates) (q : Request) :
    Leads seeds view v (Good seeds v) (q.handler g i) := by
  unfold Request.handler
  cases q.route with
  | submit => exact leads_submit hv g _ _
  | edit => exact leads_edit hv _ _
  | pairing => exact (stays_pairing hv g _ _).leads (.refl hv)
  | delete => exact leads_delete hv _ _
  | adminEdit => exact leads_adminEdit hv g _ _
  | approve => exact (stays_approve hv g _ _).leads (.refl hv)
  | reject => exact (stays_reject hv g _ _).leads (.refl hv)
  | remove => exact leads_remove hv g _ _

theorem leads_serve (hv : Unique seeds v) (g : Gates) (q : Request) :
    Leads seeds view v (Good seeds v) (serve g i q) := by
  refine Leads.seq (good_view hv) (stays_emit rfl) fun _ _ => ?_
  refine Leads.seq (good_view hv) (stays_emit rfl) fun _ _ => ?_
  have hhandled : Leads seeds view v (Good seeds v) (handled (q.handler g i)) := by
    intro w hw
    rw [handled, wp_tryCatch]
    exact (leads_handler hv g q w hw).mono (fun _ _ h => h) fun _ _ he => he
  exact hhandled.bind fun r v' hv' => Stays.leads
    (Stays.seq (stays_emit rfl) fun _ _ => .pure trivial) hv'

end Handlers

end Mise.Server.Names
