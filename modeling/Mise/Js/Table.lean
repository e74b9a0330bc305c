import Mathlib.Data.List.Nodup

set_option autoImplicit true

namespace Mise.Js

/-- The own properties of a plain object that is used as a map, in the order they were added. -/
structure Table (β : Type) where
  entries : List (String × β) := []
  nodup : (entries.map Prod.fst).Nodup := by first | exact List.nodup_nil | decide

namespace Table

@[ext] theorem ext {t t' : Table β} (h : t.entries = t'.entries) : t = t' := by
  cases t
  cases t'
  cases h
  rfl

def get (t : Table β) (k : String) : Option β := t.entries.lookup k

def keys (t : Table β) : List String := t.entries.map Prod.fst

/-- `Object.values` -/
def values (t : Table β) : List β := t.entries.map Prod.snd

/-- Assigning to a property keeps the place of one that is there, and adds a new one at the end. -/
def put (k : String) (v : β) : List (String × β) → List (String × β)
  | [] => [(k, v)]
  | x :: l => if x.1 = k then (k, v) :: l else x :: put k v l

theorem keys_put (k : String) (v : β) (l : List (String × β)) :
    (put k v l).map Prod.fst =
      if k ∈ l.map Prod.fst then l.map Prod.fst else l.map Prod.fst ++ [k] := by
  induction l with
  | nil => rfl
  | cons x l ih =>
    by_cases h : x.1 = k
    · simp [put, h]
    · have h' : k ≠ x.1 := fun e => h e.symm
      simp only [put, h, if_false, List.map_cons, ih, List.mem_cons, h', false_or]
      split <;> rfl

theorem nodup_put (h : (l.map Prod.fst).Nodup) : ((put k v l).map Prod.fst).Nodup := by
  rw [keys_put]
  split
  · exact h
  · next hk => exact h.append (List.nodup_singleton k) (by simpa using hk)

theorem lookup_cons (k : String) (x : String × β) (l : List (String × β)) :
    (x :: l).lookup k = if k = x.1 then some x.2 else l.lookup k := by
  obtain ⟨k', v⟩ := x
  by_cases h : k = k'
  · rw [h, if_pos rfl, List.lookup_cons_self]
  · rw [if_neg h, List.lookup_cons, beq_eq_false_iff_ne.2 h]

theorem lookup_put (k k' : String) (v : β) (l : List (String × β)) :
    (put k v l).lookup k' = if k' = k then some v else l.lookup k' := by
  induction l with
  | nil => rw [put, lookup_cons]
  | cons x l ih =>
    by_cases hx : x.1 = k
    · by_cases h : k' = k <;> simp [put, lookup_cons, hx, h]
    · by_cases h : k' = x.1
      · have hk : k' ≠ k := fun e => hx (h ▸ e)
        simp [put, lookup_cons, hx, h]
      · simp [put, lookup_cons, hx, h, ih]

theorem lookup_map (f : β → γ) (k : String) (l : List (String × β)) :
    (l.map fun x => (x.1, f x.2)).lookup k = (l.lookup k).map f := by
  induction l with
  | nil => rfl
  | cons x l ih =>
    rw [List.map_cons, lookup_cons, lookup_cons, ih]
    split <;> rfl

theorem lookup_none {l : List (String × β)} (h : k ∉ l.map Prod.fst) : l.lookup k = none := by
  rw [List.lookup_eq_none_iff]
  intro y hy
  have hne : k ≠ y.1 := fun e => h (e ▸ List.mem_map_of_mem hy)
  simpa using hne

theorem lookup_filter (p : String → β → Bool) {l : List (String × β)}
    (h : (l.map Prod.fst).Nodup) (k : String) :
    (l.filter fun x => !p x.1 x.2).lookup k = (l.lookup k).filter fun v => !p k v := by
  induction l with
  | nil => rfl
  | cons x l ih =>
    rw [List.map_cons, List.nodup_cons] at h
    by_cases hk : k = x.1
    · have hnone : l.lookup x.1 = none := lookup_none h.1
      subst hk
      by_cases hp : p x.1 x.2 <;> simp [lookup_cons, hp, ih h.2, hnone, Option.filter]
    · by_cases hp : p x.1 x.2 <;> simp [lookup_cons, hk, hp, ih h.2]

theorem lookup_filterMapKeys (f : String → β → Option γ) {l : List (String × β)}
    (h : (l.map Prod.fst).Nodup) (k : String) :
    (l.filterMap fun x => (f x.1 x.2).map (x.1, ·)).lookup k = (l.lookup k).bind (f k) := by
  induction l with
  | nil => rfl
  | cons x l ih =>
    rw [List.map_cons, List.nodup_cons] at h
    rw [List.filterMap_cons, lookup_cons]
    cases hf : f x.1 x.2 with
    | none =>
      by_cases hk : k = x.1
      · subst hk
        simp [ih h.2, hf, lookup_none h.1]
      · simp [ih h.2, hk]
    | some v =>
      by_cases hk : k = x.1
      · subst hk
        simp [hf]
      · simp [lookup_cons, ih h.2, hk]

theorem lookup_filterMap (f : β → Option γ) {l : List (String × β)} (h : (l.map Prod.fst).Nodup)
    (k : String) : (l.filterMap fun x => (f x.2).map (x.1, ·)).lookup k = (l.lookup k).bind f :=
  lookup_filterMapKeys (fun _ => f) h k

theorem keys_filterMap (f : String → β → Option γ) (l : List (String × β)) :
    ((l.filterMap fun x => (f x.1 x.2).map (x.1, ·)).map Prod.fst).Sublist (l.map Prod.fst) := by
  induction l with
  | nil => exact .slnil
  | cons x l ih =>
    rw [List.filterMap_cons]
    cases f x.1 x.2 with
    | none => exact ih.cons x.1
    | some v => exact ih.cons_cons x.1

/-- The entries whose value `f` translates. -/
def filterMap (f : β → Option γ) (t : Table β) : Table γ where
  entries := t.entries.filterMap fun x => (f x.2).map (x.1, ·)
  nodup := t.nodup.sublist (keys_filterMap (fun _ => f) t.entries)

/-- The entries that `f` translates. -/
def filterMapKeys (f : String → β → Option γ) (t : Table β) : Table γ where
  entries := t.entries.filterMap fun x => (f x.1 x.2).map (x.1, ·)
  nodup := t.nodup.sublist (keys_filterMap f t.entries)

theorem keys_zipIdx (l : List (String × β)) :
    (l.zipIdx.map fun x => (x.1.1, x.2)).map Prod.fst = l.map Prod.fst := by
  rw [List.map_map, ← List.zipIdx_map_fst 0 l, List.map_map, List.zipIdx_map_fst]
  rfl

/-- The same keys, each with the place of its entry. -/
def places (t : Table β) : Table Nat where
  entries := t.entries.zipIdx.map fun x => (x.1.1, x.2)
  nodup := keys_zipIdx t.entries ▸ t.nodup

theorem filterMap_zipIdx {f : Nat → Option γ} {g : β → γ} (n : Nat) (l : List (String × β))
    (h : ∀ i x, l[i]? = some x → f (n + i) = some (g x.2)) :
    ((l.zipIdx n).map fun x => (x.1.1, x.2)).filterMap (fun x => (f x.2).map (x.1, ·)) =
      l.map fun x => (x.1, g x.2) := by
  induction l generalizing n with
  | nil => rfl
  | cons x l ih =>
    have hx : f n = some (g x.2) := h 0 x rfl
    have hl : ∀ i y, l[i]? = some y → f (n + 1 + i) = some (g y.2) := by
      intro i y hy
      rw [Nat.add_assoc, Nat.add_comm 1 i]
      exact h (i + 1) y hy
    rw [List.zipIdx_cons, List.map_cons, List.filterMap_cons, hx, List.map_cons, ih (n + 1) hl]
    rfl

theorem entries_places {f : Nat → Option γ} {g : β → γ} (t : Table β)
    (h : ∀ i x, t.entries[i]? = some x → f i = some (g x.2)) :
    (t.places.filterMap f).entries = t.entries.map fun x => (x.1, g x.2) :=
  filterMap_zipIdx 0 t.entries fun i x hx => by rw [Nat.zero_add]; exact h i x hx

theorem get_filterMap (f : β → Option γ) (t : Table β) (k : String) :
    (t.filterMap f).get k = (t.get k).bind f := lookup_filterMap f t.nodup k

theorem get_filterMapKeys (f : String → β → Option γ) (t : Table β) (k : String) :
    (t.filterMapKeys f).get k = (t.get k).bind (f k) := lookup_filterMapKeys f t.nodup k

/-- `t[k] = v` -/
def set (t : Table β) (k : String) (v : β) : Table β := ⟨put k v t.entries, nodup_put t.nodup⟩

/-- `delete t[k]` for every entry that satisfies `p`. -/
def deleteAll (t : Table β) (p : String → β → Bool) : Table β where
  entries := t.entries.filter fun x => !p x.1 x.2
  nodup := t.nodup.sublist (List.filter_sublist.map Prod.fst)

def delete (t : Table β) (k : String) : Table β := t.deleteAll fun k' _ => k' == k

@[simp] theorem get_empty (k : String) : (Table.mk (β := β) [] h).get k = none := rfl

theorem get_set (t : Table β) (k k' : String) (v : β) :
    (t.set k v).get k' = if k' = k then some v else t.get k' := lookup_put k k' v t.entries

theorem get_deleteAll (t : Table β) (p : String → β → Bool) (k : String) :
    (t.deleteAll p).get k = (t.get k).filter fun v => !p k v := lookup_filter p t.nodup k

theorem get_delete (t : Table β) (k k' : String) :
    (t.delete k).get k' = if k' = k then none else t.get k' := by
  rw [delete, get_deleteAll]
  by_cases h : k' = k
  · cases t.get k' <;> simp [h]
  · cases t.get k' <;> simp [h]

theorem deleteAll_of_none {t : Table β} {p : String → β → Bool}
    (h : ∀ x ∈ t.entries, p x.1 x.2 = false) : t.deleteAll p = t := by
  have he : (t.entries.filter fun x => !p x.1 x.2) = t.entries := by
    rw [List.filter_eq_self]
    exact fun x hx => by rw [h x hx]; rfl
  unfold deleteAll
  cases t
  congr 1

theorem delete_of_none {t : Table β} (h : t.get k = none) : t.delete k = t := by
  refine deleteAll_of_none fun x hx => ?_
  have hne : (k == x.1) = false := by simpa using List.lookup_eq_none_iff.1 h x hx
  exact beq_eq_false_iff_ne.2 fun e => beq_eq_false_iff_ne.1 hne e.symm

theorem mem_of_lookup {l : List (String × β)} (h : l.lookup k = some v) : (k, v) ∈ l := by
  obtain ⟨l₁, l₂, rfl, -⟩ := List.lookup_eq_some_iff.1 h
  simp

theorem get_of_mem {t : Table β} (h : (k, v) ∈ t.entries) : t.get k = some v := by
  obtain ⟨l₁, l₂, hl⟩ := List.append_of_mem h
  refine List.lookup_eq_some_iff.2 ⟨l₁, l₂, hl, fun x hx => ?_⟩
  have hn := t.nodup
  rw [hl, List.map_append, List.map_cons] at hn
  have hne := (List.nodup_append.1 hn).2.2 x.1 (List.mem_map_of_mem hx) k List.mem_cons_self
  simpa using fun e : k = x.1 => hne e.symm

theorem mem_values {t : Table β} (h : t.get k = some v) : v ∈ t.values :=
  List.mem_map_of_mem (mem_of_lookup h)

end Table

/-- What `t[k]` finds: a property of its own, something that every object inherits, or nothing. -/
inductive Found (β : Type) where
  | own (v : β)
  | inherited
  | absent
  deriving DecidableEq

namespace Found

/-- Whether `if (t[k])` holds, in a table of objects. -/
def truthy : Found β → Bool
  | .absent => false
  | .own _ | .inherited => true

def ofOption : Option β → Found β
  | some v => .own v
  | none => .absent

end Found

/-- The names that every plain object inherits from `Object.prototype`. -/
def objectPrototype : List String :=
  ["constructor", "__defineGetter__", "__defineSetter__", "hasOwnProperty", "__lookupGetter__",
    "__lookupSetter__", "isPrototypeOf", "propertyIsEnumerable", "toString", "valueOf",
    "__proto__", "toLocaleString"]

/-- `t[k]`, where `added` are the names that the program has put on `Object.prototype`. -/
def Table.find (added : List String) (t : Table β) (k : String) : Found β :=
  match t.get k with
  | some v => .own v
  | none => if k ∈ objectPrototype ++ added then .inherited else .absent

theorem Table.find_ofOption {t : Table β} (h : k ∉ objectPrototype ++ added) :
    t.find added k = .ofOption (t.get k) := by
  unfold find
  cases t.get k with
  | some v => rfl
  | none => rw [if_neg h]; rfl

theorem Table.find_cases (added : List String) (t : Table β) (k : String) :
    (∃ v, t.find added k = .own v ∧ t.get k = some v) ∨
    (t.find added k = .inherited ∧ t.get k = none) ∨ (t.find added k = .absent ∧ t.get k = none) := by
  unfold find
  cases t.get k with
  | some v => exact .inl ⟨v, rfl, rfl⟩
  | none =>
    by_cases hk : k ∈ objectPrototype ++ added
    · exact .inr (.inl ⟨if_pos hk, rfl⟩)
    · exact .inr (.inr ⟨if_neg hk, rfl⟩)

theorem Table.inherited_key {t : Table β} (h : t.find added k = .inherited) :
    k ∈ objectPrototype ++ added := by
  rw [find] at h
  split at h
  · cases h
  · split at h
    · assumption
    · cases h

theorem Table.find_inherited {t : Table β} (h : k ∈ objectPrototype) (hk : t.get k = none) :
    t.find added k = .inherited := by
  rw [find, hk]
  exact if_pos (List.mem_append_left added h)

end Mise.Js
