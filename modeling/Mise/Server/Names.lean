import Mise.Server.Routes

set_option autoImplicit true

namespace Mise.Server.Names

open Js

/-! What the uniqueness of names is about: the ids, networks and names of the stored records. -/

structure Label where
  id : String
  network : Network
  name : Option String

def label (rec : StoreRecord) : Label := ⟨rec.id, rec.network, rec.name⟩

namespace Label

def slug (l : Label) : String := slugify (l.name.getD "")

/-- The id that a record with this name is created under. -/
def named (l : Label) : String := l.network.text ++ "-" ++ l.slug

/-- Whether it occupies the name on the network. -/
def Occupies (l : Label) (network : Network) (slug : String) : Prop :=
  l.network = network ∧ (l.slug = slug ∨ l.id = network.text ++ "-" ++ slug)

theorem occupies_iff (rec : StoreRecord) (network : Network) (slug : String) :
    rec.named network slug ↔ (label rec).Occupies network slug := by
  unfold StoreRecord.named
  rw [Bool.and_eq_true, Bool.or_eq_true, decide_eq_true_eq, decide_eq_true_eq, decide_eq_true_eq]
  rfl

end Label

/-- What a request can see and change of the names. `created` are the ids under which submissions have
created a record, newest first. -/
structure View where
  stored : String → Option Nat
  object : Nat → Option Label
  created : List String

/-- The id of a record that a submission creates. -/
def creation : Event → Option String
  | .put _ _ .create id _ => some id
  | _ => none

def created (w : World Event) : List String := w.log.filterMap creation

def view (w : World Event) : View where
  stored := w.store.submissions.get
  object r := (w.store.object r).map label
  created := created w

namespace View

def label (v : View) (k : String) : Option Label := (v.stored k).bind v.object

/-- The object `r` is the one that is stored under its id. -/
def Holds (v : View) (r : Nat) : Prop := ∃ l, v.object r = some l ∧ v.stored l.id = some r

/-- The record is stored under its id, at `r`. -/
def put (v : View) (r : Nat) (l : Label) : View where
  stored k := if k = l.id then some r else v.stored k
  object q := if q = r then some l else v.object q
  created := v.created

/-- The object `r` is made, and not stored yet. -/
def make (v : View) (r : Nat) (l : Label) : View where
  stored := v.stored
  object q := if q = r then some l else v.object q
  created := v.created

theorem put_make (v : View) (r : Nat) (l : Label) : (v.make r l).put r l = v.put r l := by
  unfold put make
  dsimp only
  congr 1
  funext q
  split <;> rfl

end View

theorem label_view (w : World Event) (k : String) : (view w).label k = (w.store.record k).map label := by
  unfold View.label Store.record view
  dsimp only
  cases w.store.submissions.get k <;> rfl

/-- Names and ids are unique on each network, and none of the seeds'. -/
structure Unique (seeds : List Seed) (v : View) : Prop where
  stored : ∀ k r, v.stored k = some r → ∃ l, v.object r = some l ∧ l.id = k
  origin : ∀ k l, v.label k = some l → ∃ t, l.id = l.network.text ++ "-" ++ t
  apart : ∀ k k' l l', v.label k = some l → v.label k' = some l' → k ≠ k' → l.network = l'.network →
    l.slug ≠ l'.slug ∧ l.id ≠ l'.named
  free : ∀ k l, v.label k = some l → ∀ n ∈ seeds, n.network = l.network →
    n.id ≠ l.id ∧ slugify (n.name.getD "") ≠ l.slug

section Unique

variable {seeds : List Seed} {v v' : View} {l l' : Label}

theorem Unique.id (h : Unique seeds v) (hl : v.label k = some l) : l.id = k := by
  obtain ⟨r, hr, ho⟩ := Option.bind_eq_some_iff.1 hl
  obtain ⟨l', hl', hid⟩ := h.stored k r hr
  obtain rfl := Option.some.inj (ho.symm.trans hl')
  exact hid

theorem Unique.holds (h : Unique seeds v) (hr : v.stored k = some r) : v.Holds r := by
  obtain ⟨l, hl, rfl⟩ := h.stored k r hr
  exact ⟨l, hl, hr⟩

theorem Unique.occupies (h : Unique seeds v) (hl : v.label k = some l) (hl' : v.label k' = some l')
    (ho : l.Occupies network slug) (ho' : l'.Occupies network slug) : k = k' := by
  by_contra hne
  obtain ⟨rfl, hs⟩ := ho
  obtain ⟨hn, hs'⟩ := ho'
  obtain ⟨hslug, hid⟩ := h.apart k k' l l' hl hl' hne hn.symm
  obtain ⟨-, hid'⟩ := h.apart k' k l' l hl' hl (Ne.symm hne) hn
  obtain hs | hs := hs
  · obtain hs' | hs' := hs'
    · exact hslug (hs.trans hs'.symm)
    · exact hid' (by rw [hs', Label.named, hs])
  · obtain hs' | hs' := hs'
    · exact hid (by rw [hs, Label.named, hs', hn])
    · rw [← h.id hl, ← h.id hl', hs, hs'] at hne
      exact hne rfl

/-- What is deleted is not in the way, and neither is an object that is not stored. -/
theorem Unique.delete (h : Unique seeds v)
    (hs : ∀ k, v'.stored k = v.stored k ∨ v'.stored k = none)
    (ho : ∀ k r, v.stored k = some r → v'.object r = v.object r) : Unique seeds v' := by
  have hlabel : ∀ {k l}, v'.label k = some l → v.label k = some l := by
    intro k l hl
    unfold View.label at hl ⊢
    obtain hk | hk := hs k
    · rw [hk] at hl
      cases hr : v.stored k with
      | none =>
        rw [hr] at hl
        cases hl
      | some r => rwa [hr, Option.bind_some, ho k r hr] at hl
    · rw [hk] at hl
      cases hl
  constructor
  · intro k r hr
    obtain hk | hk := hs k
    · rw [hk] at hr
      rw [ho k r hr]
      exact h.stored k r hr
    · rw [hk] at hr
      cases hr
  · exact fun k l hl => h.origin k l (hlabel hl)
  · exact fun k k' l l' hl hl' => h.apart k k' l l' (hlabel hl) (hlabel hl')
  · exact fun k l hl => h.free k l (hlabel hl)

theorem label_put (hr : ∀ k, v.stored k = some r → k = l.id) (k : String) :
    (v.put r l).label k = if k = l.id then some l else v.label k := by
  unfold View.label View.put
  dsimp only
  by_cases hk : k = l.id
  · rw [if_pos hk, if_pos hk, Option.bind_some, if_pos rfl]
  · rw [if_neg hk, if_neg hk]
    cases hs : v.stored k with
    | none => rfl
    | some q =>
      have hq : q ≠ r := by
        rintro rfl
        exact hk (hr k hs)
      rw [Option.bind_some, Option.bind_some, if_neg hq]

/-- A record is stored under a name that no other record occupies, and no seed. Its id has been stored
before, for the same network, or it is the one of its name. -/
theorem Unique.put (h : Unique seeds v) (hr : ∀ k, v.stored k = some r → k = l.id)
    (hid : (∃ l', v.label l.id = some l' ∧ l'.network = l.network) ∨ l.id = l.named)
    (hother : ∀ k l', v.label k = some l' → k ≠ l.id → ¬ l'.Occupies l.network l.slug)
    (hseed : ∀ n ∈ seeds, n.network = l.network →
      slugify (n.name.getD "") ≠ l.slug ∧ n.id ≠ l.named) : Unique seeds (v.put r l) := by
  have hlabel := label_put hr
  -- The id is none of another record's name.
  have hname : ∀ k l', v.label k = some l' → k ≠ l.id → l'.network = l.network → l.id ≠ l'.named := by
    intro k l' hl' hk hn he
    obtain ⟨old, hold, hnet⟩ | hown := hid
    · obtain ⟨-, hne⟩ := h.apart l.id k old l' hold hl' (Ne.symm hk) (hnet.trans hn.symm)
      exact hne (by rw [h.id hold, he])
    · refine hother k l' hl' hk ⟨hn, .inl ?_⟩
      rw [hown, Label.named, Label.named, hn] at he
      have hlist := congrArg String.toList he
      simp only [String.toList_append] at hlist
      exact (String.toList_inj.1 (List.append_cancel_left hlist)).symm
  constructor
  · intro k q hq
    dsimp only [View.put] at hq ⊢
    by_cases hk : k = l.id
    · rw [if_pos hk] at hq
      cases hq
      exact ⟨l, if_pos rfl, hk.symm⟩
    · rw [if_neg hk] at hq
      obtain ⟨l', hl', hid'⟩ := h.stored k q hq
      have hne : q ≠ r := by
        rintro rfl
        exact hk (hr k hq)
      exact ⟨l', by rw [if_neg hne, hl'], hid'⟩
  · intro k l' hl'
    rw [hlabel] at hl'
    split at hl'
    · cases hl'
      obtain ⟨old, hold, hnet⟩ | hown := hid
      · obtain ⟨t, ht⟩ := h.origin l.id old hold
        rw [h.id hold, hnet] at ht
        exact ⟨t, ht⟩
      · exact ⟨l.slug, hown⟩
    · exact h.origin k l' hl'
  · intro k k' l₁ l₂ h₁ h₂ hne hnet
    rw [hlabel] at h₁ h₂
    split at h₁
    · next hk =>
      cases h₁
      have hk' : k' ≠ l.id := fun e => hne (hk.trans e.symm)
      rw [if_neg hk'] at h₂
      have hfree := hother k' l₂ h₂ hk'
      exact ⟨fun e => hfree ⟨hnet.symm, .inl e.symm⟩, hname k' l₂ h₂ hk' hnet.symm⟩
    · next hk =>
      split at h₂
      · cases h₂
        have hfree := hother k l₁ h₁ hk
        exact ⟨fun e => hfree ⟨hnet, .inl e⟩, fun e => hfree ⟨hnet, .inr e⟩⟩
      · exact h.apart k k' l₁ l₂ h₁ h₂ hne hnet
  · intro k l' hl' n hn hnet
    rw [hlabel] at hl'
    split at hl'
    · cases hl'
      obtain ⟨hslug, hseedid⟩ := hseed n hn hnet
      refine ⟨?_, hslug⟩
      obtain ⟨old, hold, hnet'⟩ | hown := hid
      · have hold' := (h.free l.id old hold n hn (hnet.trans hnet'.symm)).1
        rwa [h.id hold] at hold'
      · rwa [hown]
    · exact h.free k l' hl' n hn hnet

theorem Unique.stored_none (h : Unique seeds v)
    (hfree : ∀ k l, v.label k = some l → ¬ l.Occupies network slug) :
    v.stored (network.text ++ "-" ++ slug) = none := by
  cases hs : v.stored (network.text ++ "-" ++ slug) with
  | none => rfl
  | some r =>
    obtain ⟨l, ho, hid⟩ := h.stored _ r hs
    have hl : v.label (network.text ++ "-" ++ slug) = some l := by
      rw [View.label, hs]
      exact ho
    obtain ⟨t, ht⟩ := h.origin _ l hl
    have hnet : l.network = network := by
      rw [hid] at ht
      have hlist := congrArg String.toList ht
      simp only [String.toList_append] at hlist
      have hhead := congrArg List.head? hlist
      cases hn : network with
      | mainnet =>
        cases hl : l.network with
        | mainnet => rfl
        | testnet =>
          rw [hn, hl] at hhead
          exact absurd hhead (by simp [Network.text])
      | testnet =>
        cases hl : l.network with
        | mainnet =>
          rw [hn, hl] at hhead
          exact absurd hhead (by simp [Network.text])
        | testnet => rfl
    exact absurd ⟨hnet, .inr hid⟩ (hfree _ l hl)

end Unique

end Mise.Server.Names
