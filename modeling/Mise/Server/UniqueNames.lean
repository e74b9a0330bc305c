import Mise.Server.NameRuns
import Mise.Server.Serve

set_option autoImplicit true

namespace Mise.Server.Names

open Js Async

/-- One operation after another. A request is served alone, up to its answer, whatever becomes of the
operations that it awaits. -/
inductive Step (g : Gates) (seeds : List Seed) : World Event → World Event → Prop where
  | serve {w w' : World Event} (i : Nat) (q : Request) (xs : List Answer) (hx : ∀ a ∈ xs, Fixed seeds a)
      (h : (serve g i q).alone xs w = some (r, w')) : Step g seeds w w'
  | prune {w : World Event} (days now : Int) :
      Step g seeds w { w with store := w.store.pruneRejected days now }
  /-- An operation of another part of the server: logins, domains, products, invoices. -/
  | aside {w w' : World Event} (ht : w'.store.submissions = w.store.submissions)
      (ho : w'.store.objects = w.store.objects) (hl : w'.log = w.log) : Step g seeds w w'

inductive Reachable (g : Gates) (seeds : List Seed) : World Event → Prop where
  | start {w : World Event} (h : w.store.submissions = {}) : Reachable g seeds w
  | step {w w' : World Event} (h : Reachable g seeds w) (hs : Step g seeds w w') : Reachable g seeds w'

variable {g : Gates} {seeds : List Seed} {w w' : World Event}

theorem Step.good (h : Step g seeds w w') (hu : Unique seeds (view w)) :
    Good seeds (view w) (view w') := by
  cases h with
  | @serve r _ _ i q xs hx h =>
    have hgood := (wp_iff_alone _ w).1 (leads_serve (i := i) hu g q w rfl) xs hx r w' h
    cases r with
    | ok _ => exact hgood
    | error _ => exact hgood
  | prune days now =>
    refine ⟨hu.delete (fun k => ?_) fun k r _ => rfl, .inl rfl⟩
    have hget := w.store.submissions.get_deleteAll
      (fun _ r => (w.store.object r).any (Store.prunable (now - days * 86400 * 1000))) k
    cases hk : (w.store.pruneRejected days now).submissions.get k with
    | none => exact .inr hk
    | some r =>
      obtain ⟨hr, -⟩ := Option.filter_eq_some_iff.1 (hget.symm.trans hk)
      exact .inl (hk.trans hr.symm)
  | aside ht ho hl =>
    rw [view_of_store ht ho (congrArg (List.filterMap creation) hl)]
    exact .refl hu

theorem unique_empty (h : w.store.submissions = {}) : Unique seeds (view w) := by
  have hstored : ∀ k, (view w).stored k = none := by
    intro k
    unfold view
    rw [h]
    rfl
  have hlabel : ∀ k l, (view w).label k ≠ some l := by
    intro k l hl
    rw [View.label, hstored] at hl
    cases hl
  constructor
  · intro k r hr
    rw [hstored] at hr
    cases hr
  · exact fun k l hl => absurd hl (hlabel k l)
  · exact fun k _ l _ hl => absurd hl (hlabel k l)
  · exact fun k l hl => absurd hl (hlabel k l)

theorem Reachable.unique (h : Reachable g seeds w) : Unique seeds (view w) := by
  induction h with
  | start h => exact unique_empty h
  | step h hs ih => exact (hs.good ih).1

theorem label_of_record {k : String} {rec : StoreRecord} (h : w.store.record k = some rec) :
    (view w).label k = some (label rec) := by
  rw [label_view, h]
  rfl

theorem names_unique (h : Reachable g seeds w) :
    (∀ k k' rec rec', w.store.record k = some rec → w.store.record k' = some rec' → k ≠ k' →
      rec.network = rec'.network → slugify (rec.name.getD "") ≠ slugify (rec'.name.getD "") ∧
        rec.id ≠ rec'.network.text ++ "-" ++ slugify (rec'.name.getD "")) ∧
    (∀ k rec, w.store.record k = some rec → ∀ n ∈ seeds, n.network = rec.network →
      n.id ≠ rec.id ∧ slugify (n.name.getD "") ≠ slugify (rec.name.getD "")) ∧
    (∀ network slug k k' rec rec', w.store.record k = some rec → w.store.record k' = some rec' →
      rec.named network slug → rec'.named network slug → k = k') ∧
    (∀ w', Step g seeds w w' → created w' = created w ∨
      ∃ id, created w' = id :: created w ∧ w.store.submissions.get id = none) := by
  have hu := h.unique
  refine ⟨?_, ?_, ?_, ?_⟩
  · intro k k' rec rec' hr hr' hne hn
    have hl := label_of_record hr
    have hl' := label_of_record hr'
    have hapart := hu.apart k k' (label rec) (label rec') hl hl' hne hn
    exact hapart
  · intro k rec hr
    have hfree := hu.free k (label rec) (label_of_record hr)
    exact hfree
  · intro network slug k k' rec rec' hr hr' hs hs'
    have hocc := (Label.occupies_iff rec network slug).1 hs
    have hocc' := (Label.occupies_iff rec' network slug).1 hs'
    exact hu.occupies (label_of_record hr) (label_of_record hr') hocc hocc'
  · intro w' hs
    exact (hs.good hu).2

section Instance

def oneSeed : List Seed := [{ id := "mainnet-paynym", name := some "PayNym", network := .mainnet }]

def newListing (name url : String) : Json :=
  .obj [("network", .str "mainnet"), ("name", .str name),
    ("payload", .obj [("pairing", .obj [("type", .str "dojo.api"), ("url", .str url)])]),
    ("signed", .str (blockOver url))]

def upNode : List Answer := List.replicate 40 { clock := 1, probe := { up := true }, seeds := oneSeed }

def firstListing : Option (Except Fault Response × World Event) :=
  (serve .lenient 0 ⟨.submit, "alice", some (newListing "dojo" "http://a.onion")⟩).alone upNode
    ⟨{ sessions := someSessions }, []⟩

/-- Two operators list nodes on one network, in the empty store. -/
def secondListing : Option (Except Fault Response × World Event) :=
  firstListing.bind fun x =>
    (serve .lenient 1 ⟨.submit, "bob", some (newListing "Dojo 2" "http://b.onion")⟩).alone upNode x.2

theorem reachable_second (h : secondListing = some (r, w)) : Reachable .lenient oneSeed w := by
  have hfixed : ∀ a ∈ upNode, Fixed oneSeed a := by
    intro a ha
    rw [List.eq_of_mem_replicate ha]
    rfl
  obtain ⟨x, hx, hsecond⟩ := Option.bind_eq_some_iff.1 h
  have hfirst : Reachable .lenient oneSeed x.2 := .step (.start rfl) (.serve _ _ _ hfixed hx)
  exact .step hfirst (.serve _ _ _ hfixed hsecond)

theorem names_unique_listed : ∃ w rec rec', Reachable .lenient oneSeed w ∧
    w.store.record "mainnet-dojo" = some rec ∧ w.store.record "mainnet-dojo-2" = some rec' ∧
      created w = ["mainnet-dojo-2", "mainnet-dojo"] ∧
      slugify (rec.name.getD "") ≠ slugify (rec'.name.getD "") ∧
      ∀ n ∈ oneSeed, n.network = rec.network →
        n.id ≠ rec.id ∧ slugify (n.name.getD "") ≠ slugify (rec.name.getD "") := by
  have hlisted : secondListing.any fun x => created x.2 = ["mainnet-dojo-2", "mainnet-dojo"] &&
      (x.2.store.record "mainnet-dojo").any fun rec =>
        (x.2.store.record "mainnet-dojo-2").any fun rec' => rec.network = rec'.network := by
    unfold secondListing firstListing created
    decide +kernel
  obtain ⟨⟨r, w⟩, hrun, hlisted⟩ := (Option.any_eq_true _ _).1 hlisted
  obtain ⟨hcreated, hlisted⟩ := (Bool.and_eq_true _ _).mp hlisted
  obtain ⟨rec, hrec, hlisted⟩ := (Option.any_eq_true _ _).1 hlisted
  obtain ⟨rec', hrec', hnetwork⟩ := (Option.any_eq_true _ _).1 hlisted
  have hreach := reachable_second hrun
  have hapart := (names_unique hreach).1 _ _ rec rec' hrec hrec' (by decide) (of_decide_eq_true hnetwork)
  exact ⟨w, rec, rec', hreach, hrec, hrec', of_decide_eq_true hcreated, hapart.1,
    (names_unique hreach).2.1 _ rec hrec⟩

end Instance

end Mise.Server.Names
