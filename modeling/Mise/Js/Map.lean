import Mathlib.Data.List.Nodup

set_option autoImplicit true

namespace Mise.Js

/-- A `Map`, whose keys are compared by value, with its entries in the order they were added. -/
structure Map (κ β : Type) where
  entries : List (κ × β) := []
  nodup : (entries.map Prod.fst).Nodup := by simp

namespace Map

variable {κ β γ : Type} [DecidableEq κ]

/-- Setting a key keeps the place of an entry that is there, and adds a new one at the end. -/
def put (k : κ) (v : β) : List (κ × β) → List (κ × β)
  | [] => [(k, v)]
  | x :: l => if x.1 = k then (k, v) :: l else x :: put k v l

theorem keys_put (k : κ) (v : β) (l : List (κ × β)) :
    (put k v l).map Prod.fst =
      if k ∈ l.map Prod.fst then l.map Prod.fst else l.map Prod.fst ++ [k] := by
  induction l with
  | nil => rfl
  | cons x l ih =>
    by_cases h : x.1 = k
    · simp [put, h]
    · have h' : k ≠ x.1 := fun e => h e.symm
      simp only [put, h, if_false, List.map_cons, ih, List.mem_cons, h', false_or]
      split <;> rfl

theorem nodup_put {k : κ} {v : β} {l : List (κ × β)} (h : (l.map Prod.fst).Nodup) :
    ((put k v l).map Prod.fst).Nodup := by
  rw [keys_put]
  split
  · exact h
  · next hk => exact h.append (List.nodup_singleton k) (by simpa using hk)

theorem mem_put {k : κ} {v : β} {x : κ × β} {l : List (κ × β)} (h : (l.map Prod.fst).Nodup) :
    x ∈ put k v l ↔ x = (k, v) ∨ (x ∈ l ∧ x.1 ≠ k) := by
  induction l with
  | nil => simp [put]
  | cons y l ih =>
    rw [List.map_cons, List.nodup_cons] at h
    by_cases hy : y.1 = k
    · rw [put, if_pos hy, List.mem_cons, List.mem_cons]
      constructor
      · rintro (hx | hx)
        · exact .inl hx
        · exact .inr ⟨.inr hx, fun e => h.1 (hy.trans e.symm ▸ List.mem_map_of_mem hx)⟩
      · rintro (hx | ⟨rfl | hx, hne⟩)
        · exact .inl hx
        · exact absurd hy hne
        · exact .inr hx
    · rw [put, if_neg hy, List.mem_cons, List.mem_cons, ih h.2]
      constructor
      · rintro (rfl | hx | ⟨hx, hne⟩)
        · exact .inr ⟨.inl rfl, hy⟩
        · exact .inl hx
        · exact .inr ⟨.inr hx, hne⟩
      · rintro (hx | ⟨rfl | hx, hne⟩)
        · exact .inr (.inl hx)
        · exact .inl rfl
        · exact .inr (.inr ⟨hx, hne⟩)

def get (m : Map κ β) (k : κ) : Option β := (m.entries.find? fun x => x.1 = k).map Prod.snd

def set (m : Map κ β) (k : κ) (v : β) : Map κ β := ⟨put k v m.entries, nodup_put m.nodup⟩

def keys (m : Map κ β) : List κ := m.entries.map Prod.fst

def values (m : Map κ β) : List β := m.entries.map Prod.snd

/-- `for (const x of l) m.set(key(x), value(x))` -/
def setAll (key : γ → κ) (value : γ → β) (l : List γ) (m : Map κ β) : Map κ β :=
  l.foldl (fun m x => m.set (key x) (value x)) m

theorem get_eq_some {m : Map κ β} {k : κ} {v : β} : m.get k = some v ↔ (k, v) ∈ m.entries := by
  unfold get
  rw [Option.map_eq_some_iff]
  constructor
  · rintro ⟨x, hx, rfl⟩
    have hk : x.1 = k := by simpa using List.find?_some hx
    exact hk ▸ List.mem_of_find?_eq_some hx
  · intro h
    cases hf : m.entries.find? fun x => x.1 = k with
    | none => exact absurd (List.find?_eq_none.1 hf _ h) (by simp)
    | some x =>
      have hx : x ∈ m.entries := List.mem_of_find?_eq_some hf
      have hk : x.1 = k := by simpa using List.find?_some hf
      exact ⟨x, rfl, congrArg Prod.snd (List.inj_on_of_nodup_map m.nodup hx h hk)⟩

theorem mem_set {m : Map κ β} {k : κ} {v : β} {x : κ × β} :
    x ∈ (m.set k v).entries ↔ x = (k, v) ∨ (x ∈ m.entries ∧ x.1 ≠ k) := mem_put m.nodup

@[simp] theorem get_empty (k : κ) : (Map.mk (β := β) [] h).get k = none := rfl

theorem get_set (m : Map κ β) (k k' : κ) (v : β) :
    (m.set k v).get k' = if k' = k then some v else m.get k' := by
  apply Option.ext
  intro u
  by_cases hk : k' = k
  · subst hk
    rw [if_pos rfl, get_eq_some, mem_set]
    simp [eq_comm]
  · rw [if_neg hk, get_eq_some, get_eq_some, mem_set]
    simp [hk]

theorem setAll_append {key : γ → κ} {value : γ → β} (l l' : List γ) (m : Map κ β) :
    setAll key value (l ++ l') m = setAll key value l' (setAll key value l m) := List.foldl_append

theorem get_setAll (key : γ → κ) (value : γ → β) (l : List γ) (m : Map κ β) (k : κ) :
    (setAll key value l m).get k =
      ((l.reverse.find? fun x => key x = k).map value).or (m.get k) := by
  induction l generalizing m with
  | nil => rfl
  | cons x l ih =>
    have hs : setAll key value (x :: l) m = setAll key value l (m.set (key x) (value x)) := rfl
    rw [hs, ih, get_set, List.reverse_cons, List.find?_append]
    cases List.find? (fun x => key x = k) l.reverse with
    | some y => rfl
    | none =>
      by_cases hk : key x = k
      · simp [hk]
      · have hk' : k ≠ key x := fun e => hk e.symm
        simp [hk, hk']

theorem keys_setAll (key : γ → κ) (value : γ → β) (l : List γ) (m : Map κ β) (k : κ) :
    k ∈ (setAll key value l m).keys ↔ k ∈ m.keys ∨ k ∈ l.map key := by
  induction l generalizing m with
  | nil => simp [setAll]
  | cons x l ih =>
    have hs : setAll key value (x :: l) m = setAll key value l (m.set (key x) (value x)) := rfl
    have hk : k ∈ (m.set (key x) (value x)).keys ↔ k ∈ m.keys ∨ k = key x := by
      have hput : (m.set (key x) (value x)).keys =
          if key x ∈ m.keys then m.keys else m.keys ++ [key x] := keys_put _ _ _
      rw [hput]
      split
      · next hm => exact ⟨.inl, fun h => h.elim id fun e => e ▸ hm⟩
      · simp
    rw [hs, ih, hk, List.map_cons, List.mem_cons, or_assoc]

end Map

end Mise.Js
