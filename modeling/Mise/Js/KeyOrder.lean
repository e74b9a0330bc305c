import Mathlib.Data.List.Perm.Basic
import Mise.Js.Canonical

set_option autoImplicit true

namespace Mise.Js

namespace Json

mutual

/-- The same value, up to the order of the properties of its objects. -/
inductive Same : Json → Json → Prop
  | null : Same .null .null
  | bool (b : Bool) : Same (.bool b) (.bool b)
  | num (t : String) : Same (.num t) (.num t)
  | str (s : String) : Same (.str s) (.str s)
  | arr (h : SameAll vs ws) : Same (.arr vs) (.arr ws)
  | obj (h : SameFields fs gs) (hp : gs.Perm hs) : Same (.obj fs) (.obj hs)

inductive SameAll : List Json → List Json → Prop
  | nil : SameAll [] []
  | cons (h : Same v w) (hs : SameAll vs ws) : SameAll (v :: vs) (w :: ws)

inductive SameFields : List (String × Json) → List (String × Json) → Prop
  | nil : SameFields [] []
  | cons (k : String) (h : Same v w) (hs : SameFields fs gs) :
      SameFields ((k, v) :: fs) ((k, w) :: gs)

end

mutual

/-- No object has two properties of one name. -/
def Keyed : Json → Prop
  | .arr vs => KeyedAll vs
  | .obj fields => (fields.map Prod.fst).Nodup ∧ KeyedFields fields
  | .null | .bool _ | .num _ | .str _ => True

def KeyedAll : List Json → Prop
  | [] => True
  | v :: vs => Keyed v ∧ KeyedAll vs

def KeyedFields : List (String × Json) → Prop
  | [] => True
  | (_, v) :: fields => Keyed v ∧ KeyedFields fields

end

theorem nodup_properties (members : List (String × β)) : ((properties members).map Prod.fst).Nodup :=
  ((perm_inKeyOrder _).map Prod.fst).nodup_iff.2 (nodup_foldl_put List.nodup_nil)

variable {numberText : String → String}

mutual

theorem Parsed.keyed : (v : Json) → v.Parsed numberText → v.Keyed
  | .null, _ | .bool _, _ | .num _, _ | .str _, _ => trivial
  | .arr vs, h => parsedAll_keyed vs h
  | .obj fields, h => ⟨h.1 ▸ nodup_properties fields, parsedFields_keyed fields h.2⟩

theorem parsedAll_keyed : (vs : List Json) → ParsedAll numberText vs → KeyedAll vs
  | [], _ => trivial
  | v :: vs, h => ⟨Parsed.keyed v h.1, parsedAll_keyed vs h.2⟩

theorem parsedFields_keyed : (fields : List (String × Json)) → ParsedFields numberText fields →
    KeyedFields fields
  | [], _ => trivial
  | (_, v) :: fields, h => ⟨Parsed.keyed v h.1, parsedFields_keyed fields h.2⟩

end

section Sorted

variable (le : String → String → Bool)

mutual

/-- The value with the properties of its objects in the order of their names. -/
def sorted : Json → Json
  | .null => .null
  | .bool b => .bool b
  | .num t => .num t
  | .str s => .str s
  | .arr vs => .arr (sortedAll vs)
  | .obj fields => .obj ((sortedFields fields).mergeSort fun x y => le x.1 y.1)

def sortedAll : List Json → List Json
  | [] => []
  | v :: vs => sorted v :: sortedAll vs

def sortedFields : List (String × Json) → List (String × Json)
  | [] => []
  | (k, v) :: fields => (k, sorted v) :: sortedFields fields

end

/-- An order of all names. -/
structure NameOrder : Prop where
  trans : ∀ j k l, le j k → le k l → le j l
  total : ∀ k l, (le k l || le l k) = true
  antisymm : ∀ k l, le k l → le l k → k = l

variable {le}

theorem sortedFields_eq (fields : List (String × Json)) :
    sortedFields le fields = fields.map (Prod.map id (sorted le)) := by
  induction fields with
  | nil => rfl
  | cons x fields ih => simp only [sortedFields, ih, List.map_cons, Prod.map, id_eq]

theorem keys_sortedFields (fields : List (String × Json)) :
    (sortedFields le fields).map Prod.fst = fields.map Prod.fst := by
  rw [sortedFields_eq, List.map_map]
  rfl

theorem mergeSort_eq_iff (hle : NameOrder le) {l l' : List (String × β)}
    (hl : (l.map Prod.fst).Nodup) :
    (l.mergeSort fun x y => le x.1 y.1) = (l'.mergeSort fun x y => le x.1 y.1) ↔ l.Perm l' := by
  constructor
  · intro h
    exact (List.mergeSort_perm l _).symm.trans (h ▸ List.mergeSort_perm l' _)
  · intro h
    have hsorted : ∀ l : List (String × β),
        (l.mergeSort fun x y => le x.1 y.1).Pairwise fun x y => le x.1 y.1 := by
      intro l
      apply List.pairwise_mergeSort
      · intro x y z
        exact hle.trans x.1 y.1 z.1
      · intro x y
        exact hle.total x.1 y.1
    refine List.Perm.eq_of_pairwise ?_ (hsorted l) (hsorted l') ?_
    · intro x y hx hy hxy hyx
      have hx : x ∈ l := List.mem_mergeSort.1 hx
      have hy : y ∈ l := h.mem_iff.2 (List.mem_mergeSort.1 hy)
      exact List.inj_on_of_nodup_map hl hx hy (hle.antisymm _ _ hxy hyx)
    · exact (List.mergeSort_perm l _).trans (h.trans (List.mergeSort_perm l' _).symm)

theorem mergeSort_values (le : String → String → Bool) (f : β → γ) (l : List (String × β)) :
    (l.map (Prod.map id f)).mergeSort (fun x y => le x.1 y.1) =
      (l.mergeSort fun x y => le x.1 y.1).map (Prod.map id f) := by
  rw [List.map_mergeSort]
  intro x _ y _
  rfl

theorem lookup_eq_some {β : Type} {l : List (String × β)} (h : (l.map Prod.fst).Nodup) {k : String} {v : β} :
    l.lookup k = some v ↔ (k, v) ∈ l :=
  ⟨Table.mem_of_lookup, fun hm => Table.get_of_mem (t := ⟨l, h⟩) hm⟩

/-- Two maps have the same entries exactly if they give the same values. -/
theorem perm_iff_lookup {β : Type} {l l' : List (String × β)} (hl : (l.map Prod.fst).Nodup)
    (hl' : (l'.map Prod.fst).Nodup) : l.Perm l' ↔ ∀ k, l.lookup k = l'.lookup k := by
  constructor
  · intro h k
    apply Option.ext
    intro v
    rw [lookup_eq_some hl, lookup_eq_some hl', h.mem_iff]
  · intro h
    rw [List.perm_ext_iff_of_nodup (List.Nodup.of_map _ hl) (List.Nodup.of_map _ hl')]
    intro x
    rw [← lookup_eq_some hl, ← lookup_eq_some hl', h]

theorem lookup_sortedFields (fields : List (String × Json)) (k : String) :
    (sortedFields le fields).lookup k = (fields.lookup k).map (sorted le) := by
  rw [sortedFields_eq]
  exact Table.lookup_map (sorted le) k fields

theorem sorted_obj_iff (hle : NameOrder le) {fs gs : List (String × Json)}
    (hf : (fs.map Prod.fst).Nodup) (hg : (gs.map Prod.fst).Nodup) :
    (obj fs).sorted le = (obj gs).sorted le ↔
      ∀ k, (fs.lookup k).map (sorted le) = (gs.lookup k).map (sorted le) := by
  have hkeys (l : List (String × Json)) (h : (l.map Prod.fst).Nodup) :
      ((sortedFields le l).map Prod.fst).Nodup := by
    rw [keys_sortedFields]
    exact h
  rw [sorted, sorted, obj.injEq, mergeSort_eq_iff hle (hkeys fs hf),
    perm_iff_lookup (hkeys fs hf) (hkeys gs hg)]
  apply forall_congr'
  intro k
  rw [lookup_sortedFields, lookup_sortedFields]

mutual

theorem Same.sorted_eq (hle : NameOrder le) : (u v : Json) → u.Keyed → Same u v →
    u.sorted le = v.sorted le
  | .null, _, _, .null | .bool _, _, _, .bool _ | .num _, _, _, .num _ | .str _, _, _, .str _ => rfl
  | .arr us, .arr vs, hk, .arr h => by
    rw [sorted, sorted, SameAll.sorted_eq hle us vs hk h]
  | .obj fs, .obj hs, hk, @Same.obj _ gs _ h hp => by
    rw [sorted, sorted, SameFields.sorted_eq hle fs gs hk.2 h]
    have hkeys : ((sortedFields le gs).map Prod.fst).Nodup := by
      rw [← SameFields.sorted_eq hle fs gs hk.2 h, keys_sortedFields]
      exact hk.1
    rw [(mergeSort_eq_iff hle hkeys).2]
    rw [sortedFields_eq, sortedFields_eq]
    exact hp.map _

theorem SameAll.sorted_eq (hle : NameOrder le) : (us vs : List Json) → KeyedAll us →
    SameAll us vs → sortedAll le us = sortedAll le vs
  | [], [], _, .nil => rfl
  | u :: us, v :: vs, hk, .cons h hs => by
    rw [sortedAll, sortedAll, Same.sorted_eq hle u v hk.1 h, SameAll.sorted_eq hle us vs hk.2 hs]

theorem SameFields.sorted_eq (hle : NameOrder le) : (fs gs : List (String × Json)) →
    KeyedFields fs → SameFields fs gs → sortedFields le fs = sortedFields le gs
  | [], [], _, .nil => rfl
  | (k, v) :: fs, (_, w) :: gs, hk, .cons _ h hs => by
    rw [sortedFields, sortedFields, Same.sorted_eq hle v w hk.1 h,
      SameFields.sorted_eq hle fs gs hk.2 hs]

end

theorem map_perm {f : α → β} {l m : List α} (h : (l.map f).Perm (m.map f)) :
    ∃ l' : List α, l'.Perm m ∧ l.map f = l'.map f := by
  have hm : List.Forall₂ (fun y x => y = f x) (m.map f) m := by
    rw [List.forall₂_map_left_iff, List.forall₂_same]
    intro x hx
    rfl
  obtain ⟨l', hl', hp⟩ := List.perm_comp_forall₂ h hm
  refine ⟨l', hp, ?_⟩
  rw [← List.forall₂_eq_eq_eq, List.forall₂_map_right_iff]
  exact hl'

mutual

theorem same_of_sorted (hle : NameOrder le) : (u v : Json) → u.Keyed →
    u.sorted le = v.sorted le → Same u v
  | .null, v, _, h => by
    cases v with
    | null => exact .null
    | _ => cases h
  | .bool b, v, _, h => by
    cases v with
    | bool b' =>
      cases h
      exact .bool b
    | _ => cases h
  | .num t, v, _, h => by
    cases v with
    | num t' =>
      cases h
      exact .num t
    | _ => cases h
  | .str s, v, _, h => by
    cases v with
    | str s' =>
      cases h
      exact .str s
    | _ => cases h
  | .arr us, v, hk, h => by
    cases v with
    | arr vs => exact .arr (sameAll_of_sorted hle us vs hk (Json.arr.inj h))
    | _ => cases h
  | .obj fs, v, hk, h => by
    cases v with
    | obj hs =>
      have hkeys : ((sortedFields le fs).map Prod.fst).Nodup := by
        rw [keys_sortedFields]
        exact hk.1
      have hperm := (mergeSort_eq_iff hle hkeys).1 (Json.obj.inj h)
      rw [sortedFields_eq, sortedFields_eq] at hperm
      obtain ⟨gs, hp, he⟩ := map_perm hperm
      rw [← sortedFields_eq, ← sortedFields_eq] at he
      exact .obj (sameFields_of_sorted hle fs gs hk.2 he) hp
    | _ => cases h

theorem sameAll_of_sorted (hle : NameOrder le) : (us vs : List Json) → KeyedAll us →
    sortedAll le us = sortedAll le vs → SameAll us vs
  | [], [], _, _ => .nil
  | [], _ :: _, _, h => by cases h
  | _ :: _, [], _, h => by cases h
  | u :: us, v :: vs, hk, h => by
    obtain ⟨hv, hvs⟩ := List.cons.inj h
    exact .cons (same_of_sorted hle u v hk.1 hv) (sameAll_of_sorted hle us vs hk.2 hvs)

theorem sameFields_of_sorted (hle : NameOrder le) : (fs gs : List (String × Json)) →
    KeyedFields fs → sortedFields le fs = sortedFields le gs → SameFields fs gs
  | [], [], _, _ => .nil
  | [], _ :: _, _, h => by cases h
  | _ :: _, [], _, h => by cases h
  | (k, v) :: fs, (l, w) :: gs, hk, h => by
    obtain ⟨hx, hfs⟩ := List.cons.inj h
    obtain ⟨rfl, hv⟩ := Prod.mk.inj hx
    exact .cons k (same_of_sorted hle v w hk.1 hv) (sameFields_of_sorted hle fs gs hk.2 hfs)

end

/-- Sorting the names is a normal form. -/
theorem same_iff_sorted (hle : NameOrder le) {u v : Json} (hu : u.Keyed) :
    Same u v ↔ u.sorted le = v.sorted le :=
  ⟨Same.sorted_eq hle u v hu, same_of_sorted hle u v hu⟩

mutual

theorem reparsed_sorted : (v : Json) → (v.sorted le).reparsed = v.reparsed.sorted le
  | .null | .bool _ | .str _ => rfl
  | .num t => by
    rw [sorted, reparsed]
    split <;> rfl
  | .arr vs => by rw [sorted, reparsed, reparsed, sorted, reparsed_sortedAll vs]
  | .obj fields => by
    rw [sorted, reparsed, reparsed, sorted, ← reparsed_sortedFields fields, reparsedFields_eq,
      reparsedFields_eq, mergeSort_values]

theorem reparsed_sortedAll : (vs : List Json) →
    reparsedAll (sortedAll le vs) = sortedAll le (reparsedAll vs)
  | [] => rfl
  | v :: vs => by
    rw [sortedAll, reparsedAll, reparsedAll, sortedAll, reparsed_sorted v, reparsed_sortedAll vs]

theorem reparsed_sortedFields : (fields : List (String × Json)) →
    reparsedFields (sortedFields le fields) = sortedFields le (reparsedFields fields)
  | [] => rfl
  | (k, v) :: fields => by
    rw [sortedFields, reparsedFields, reparsedFields, sortedFields, reparsed_sorted v,
      reparsed_sortedFields fields]

end

mutual

theorem Plain.sorted : (v : Json) → v.Plain → (v.sorted le).Plain
  | .null, h | .bool _, h | .num _, h | .str _, h => h
  | .arr vs, h => PlainAll.sorted vs h
  | .obj fields, h => by
    rw [Json.sorted, Plain, plainFields_iff]
    intro x hx
    exact plainFields_iff.1 (PlainFields.sorted fields h) x (List.mem_mergeSort.1 hx)

theorem PlainAll.sorted : (vs : List Json) → PlainAll vs → PlainAll (sortedAll le vs)
  | [], h => h
  | v :: vs, h => ⟨Plain.sorted v h.1, PlainAll.sorted vs h.2⟩

theorem PlainFields.sorted : (fields : List (String × Json)) → PlainFields fields →
    PlainFields (sortedFields le fields)
  | [], h => h
  | (_, v) :: fields, h => ⟨Plain.sorted v h.1, PlainFields.sorted fields h.2⟩

end

mutual

theorem Keyed.reparsed : (v : Json) → v.Keyed → v.reparsed.Keyed
  | .null, h | .bool _, h | .str _, h => h
  | .num t, h => by
    rw [Json.reparsed]
    split <;> trivial
  | .arr vs, h => KeyedAll.reparsed vs h
  | .obj fields, h => by
    refine ⟨?_, KeyedFields.reparsed fields h.2⟩
    rw [reparsedFields_eq, List.map_map]
    exact h.1

theorem KeyedAll.reparsed : (vs : List Json) → KeyedAll vs → KeyedAll (reparsedAll vs)
  | [], h => h
  | v :: vs, h => ⟨Keyed.reparsed v h.1, KeyedAll.reparsed vs h.2⟩

theorem KeyedFields.reparsed : (fields : List (String × Json)) → KeyedFields fields →
    KeyedFields (reparsedFields fields)
  | [], h => h
  | (_, v) :: fields, h => ⟨Keyed.reparsed v h.1, KeyedFields.reparsed fields h.2⟩

end

/-- Two values that are read are written alike, with their names in order, exactly if they are the
same once their infinite numbers are gone. -/
theorem sorted_chars_iff (T : TextForm) (hle : NameOrder le) {u v : Json} (hu : u.Parsed numberText)
    (hv : v.Parsed numberText) :
    (u.sorted le).chars T = (v.sorted le).chars T ↔ Same u.reparsed v.reparsed := by
  rw [same_iff_sorted hle (Keyed.reparsed u (Parsed.keyed u hu)), ← reparsed_sorted, ← reparsed_sorted]
  constructor
  · intro h
    apply chars_injective_reparsed _ _ h
    · rw [reparsed_sorted]
      exact Plain.sorted _ (plain_reparsed u hu)
    · rw [reparsed_sorted]
      exact Plain.sorted _ (plain_reparsed v hv)
  · intro h
    rw [← chars_reparsed, h, chars_reparsed]

end Sorted

end Json

end Mise.Js
