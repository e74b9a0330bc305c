import Mise.Js.KeyOrder
import Mise.Server.Crypto

set_option autoImplicit true

namespace Mise.Server

open Js

section Names

def byUnits (T : TextForm) (s t : String) : Bool := decide (T.units s ≤ T.units t)

theorem byUnits_order (T : TextForm) : Json.NameOrder (byUnits T) where
  trans j k l hjk hkl := by
    rw [byUnits, decide_eq_true_iff] at *
    exact le_trans hjk hkl
  total k l := by
    rw [byUnits, byUnits, Bool.or_eq_true, decide_eq_true_iff, decide_eq_true_iff]
    exact le_total (T.units k) (T.units l)
  antisymm k l hkl hlk := by
    rw [byUnits, decide_eq_true_iff] at hkl hlk
    exact T.distinct k l (le_antisymm hkl hlk)

end Names

section Stringify

variable {T : TextForm}

theorem chars_arr (vs : List Json) :
    (Json.arr vs).chars T = '[' :: [','].intercalate (vs.map (Json.chars T)) ++ [']'] := by
  have hmore : ∀ v vs, Json.chars T v ++ Json.moreElements T vs =
      [','].intercalate ((v :: vs).map (Json.chars T)) ++ [']'] := by
    intro v vs
    induction vs generalizing v with
    | nil => simp [Json.moreElements, List.intercalate]
    | cons w vs ih =>
      rw [Json.moreElements, ih w]
      simp [List.intercalate_cons_cons]
  cases vs with
  | nil => rfl
  | cons v vs => rw [Json.chars, hmore, List.cons_append]

theorem chars_obj (fields : List (String × Json)) : (Json.obj fields).chars T =
    '\x7b' :: [','].intercalate (fields.map fun x => quote T x.1 ++ ':' :: x.2.chars T) ++ ['\x7d'] := by
  have hmore : ∀ k v fields, quote T k ++ ':' :: (Json.chars T v ++ Json.moreMembers T fields) =
      [','].intercalate (((k, v) :: fields).map fun x => quote T x.1 ++ ':' :: x.2.chars T) ++
        ['\x7d'] := by
    intro k v fields
    induction fields generalizing k v with
    | nil => simp [Json.moreMembers, List.intercalate]
    | cons x fields ih =>
      rw [Json.moreMembers, ih x.1 x.2]
      simp [List.intercalate_cons_cons]
  cases fields with
  | nil => rfl
  | cons x fields => rw [Json.chars, hmore, List.cons_append]

mutual

theorem stableStringify_eq : (v : Json) → stableStringify T v = (v.sorted (byUnits T)).chars T
  | .null | .bool _ | .num _ | .str _ => rfl
  | .arr vs => by
    rw [stableStringify, stableElements_eq vs, Json.sorted, chars_arr]
  | .obj fields => by
    rw [stableStringify, stableMembers_eq fields, Json.sorted, chars_obj]
    have hsort := Json.mergeSort_values (byUnits T) (Json.chars T) (Json.sortedFields (byUnits T) fields)
    unfold byUnits at hsort ⊢
    rw [hsort, List.map_map]
    rfl

theorem stableElements_eq : (vs : List Json) →
    stableElements T vs = (Json.sortedAll (byUnits T) vs).map (Json.chars T)
  | [] => rfl
  | v :: vs => by
    rw [stableElements, Json.sortedAll, List.map_cons, stableStringify_eq v, stableElements_eq vs]

theorem stableMembers_eq : (fields : List (String × Json)) →
    stableMembers T fields = (Json.sortedFields (byUnits T) fields).map (Prod.map id (Json.chars T))
  | [] => rfl
  | (k, v) :: fields => by
    rw [stableMembers, Json.sortedFields, List.map_cons, stableStringify_eq v,
      stableMembers_eq fields]
    rfl

end

/-- The value as it is read back, with the properties of its objects in order. -/
def normal (v : Json) : Json := v.reparsed.sorted (byUnits .scalars)

theorem stableStringify_iff {u v : Json} (hu : u.reparsed.Plain) (hv : v.reparsed.Plain) :
    stableStringify .scalars u = stableStringify .scalars v ↔ normal u = normal v := by
  rw [stableStringify_eq, stableStringify_eq, normal, normal, ← Json.reparsed_sorted,
    ← Json.reparsed_sorted]
  constructor
  · apply chars_injective_reparsed
    · rw [Json.reparsed_sorted]
      exact Json.Plain.sorted _ hu
    · rw [Json.reparsed_sorted]
      exact Json.Plain.sorted _ hv
  · intro h
    rw [← chars_reparsed, h, chars_reparsed]

theorem normal_obj_iff {fs gs : List (String × Json)} (hf : (fs.map Prod.fst).Nodup)
    (hg : (gs.map Prod.fst).Nodup) : normal (.obj fs) = normal (.obj gs) ↔
      ∀ k, (fs.lookup k).map normal = (gs.lookup k).map normal := by
  have hkeys (l : List (String × Json)) : (Json.reparsedFields l).map Prod.fst = l.map Prod.fst := by
    rw [reparsedFields_eq, List.map_map]
    rfl
  have hlookup (l : List (String × Json)) (k : String) :
      ((Json.reparsedFields l).lookup k).map (Json.sorted (byUnits .scalars)) = (l.lookup k).map normal := by
    rw [reparsedFields_eq]
    change ((l.map fun x => (x.1, x.2.reparsed)).lookup k).map (Json.sorted (byUnits .scalars)) = _
    rw [Table.lookup_map, Option.map_map]
    rfl
  rw [← hkeys] at hf hg
  have hiff := Json.sorted_obj_iff (byUnits_order .scalars) hf hg
  simp only [hlookup] at hiff
  exact hiff

end Stringify

namespace Crypto

variable (c : Crypto)

/-- What the text denotes, without the white space around it. -/
def read (text : List UInt16) : Option Json := parseIn .utf16 c.numbers.text (trim (spell text))

/-- The texts are equal without the white space around them, or denote the same value. -/
def SamePayload (signedText expected : List UInt16) : Prop :=
  trim (spell signedText) = trim (spell expected) ∨
    ∃ u v, c.read signedText = some u ∧ c.read expected = some v ∧ Json.Same u v

/-- If the texts denote values that differ, these differ also with `null` for the numbers that are too
large. -/
def Bounded (signedText expected : List UInt16) : Prop :=
  ∀ u v, c.read signedText = some u → c.read expected = some v →
    Json.Same u.reparsed v.reparsed → Json.Same u v

variable {c} {T : TextForm}

theorem sameSignedPayload_iff {a b : String} : c.sameSignedPayload T a b = true ↔
    trim a = trim b ∨ ∃ u v, parseIn T c.numbers.text (trim a) = some u ∧
      parseIn T c.numbers.text (trim b) = some v ∧ Json.Same u.reparsed v.reparsed := by
  unfold sameSignedPayload
  dsimp only
  by_cases he : trim a = trim b
  · rw [if_pos he]
    exact ⟨fun _ => .inl he, fun _ => rfl⟩
  · rw [if_neg he]
    cases ha : parseIn T c.numbers.text (trim a) with
    | none =>
      constructor
      · intro h
        cases h
      · rintro (h | ⟨u, v, hu, -⟩)
        · exact absurd h he
        · cases hu
    | some u =>
      cases hb : parseIn T c.numbers.text (trim b) with
      | none =>
        constructor
        · intro h
          cases h
        · rintro (h | ⟨u, v, -, hv, -⟩)
          · exact absurd h he
          · cases hv
      | some v =>
        have hsame := Json.sorted_chars_iff T (byUnits_order T) (parseIn_parsed ha) (parseIn_parsed hb)
        rw [← stableStringify_eq, ← stableStringify_eq] at hsame
        rw [decide_eq_true_iff, hsame]
        constructor
        · intro h
          exact .inr ⟨u, v, rfl, rfl, h⟩
        · rintro (h | ⟨u', v', hu, hv, h⟩)
          · exact absurd h he
          · cases hu
            cases hv
            exact h

theorem same_reparsed {u v : Json} (h : Json.Same u v) (hu : u.Keyed) :
    Json.Same u.reparsed v.reparsed := by
  have horder := byUnits_order .utf16
  rw [Json.same_iff_sorted horder (Json.Keyed.reparsed u hu), ← Json.reparsed_sorted,
    ← Json.reparsed_sorted, (Json.same_iff_sorted horder hu).1 h]

/-- Two texts, of any code units, are taken for the same payload exactly if they are it, unless numbers
that are too large are all that makes them differ. -/
theorem sameSignedPayload_same_iff (c : Crypto) (a b : List UInt16) :
    (c.sameSignedPayload .utf16 (spell a) (spell b) = true ↔ c.SamePayload a b) ↔
      trim (spell a) = trim (spell b) ∨ c.Bounded a b := by
  rw [sameSignedPayload_iff]
  unfold SamePayload Bounded
  by_cases he : trim (spell a) = trim (spell b)
  · exact ⟨fun _ => .inl he, fun _ => ⟨fun _ => .inl he, fun _ => .inl he⟩⟩
  · constructor
    · intro h
      right
      intro u v hu hv hsame
      obtain h | ⟨u', v', hu', hv', h⟩ := h.1 (.inr ⟨u, v, hu, hv, hsame⟩)
      · exact absurd h he
      · rw [hu] at hu'
        rw [hv] at hv'
        cases hu'
        cases hv'
        exact h
    · rintro (h | h)
      · exact absurd h he
      · constructor
        · rintro (h' | ⟨u, v, hu, hv, hsame⟩)
          · exact .inl h'
          · exact .inr ⟨u, v, hu, hv, h u v hu hv hsame⟩
        · rintro (h' | ⟨u, v, hu, hv, hsame⟩)
          · exact .inl h'
          · exact .inr ⟨u, v, hu, hv, same_reparsed hsame (Json.Parsed.keyed u (parseIn_parsed hu))⟩

end Crypto

section Sample

/-- Libraries that accept nothing, with the one number that is too large. -/
def largeCrypto : Crypto where
  numbers := numbersBelow (· = "1e999")
  messagePrefix _ := ""
  samePrefix := rfl
  verify _ _ _ _ := .ok false
  notificationAddress _ _ := none

/-- What kind of value the first of an array is. -/
def firstKind : Json → Option Nat
  | .arr (v :: _) => some v.kind
  | _ => none

theorem firstKind_same {u v : Json} (h : Json.Same u v) : firstKind u = firstKind v := by
  have hkind : ∀ {u v : Json}, Json.Same u v → u.kind = v.kind := by
    intro u v h
    cases h <;> rfl
  cases h with
  | arr h =>
    cases h with
    | nil => rfl
    | cons h hs => exact congrArg some (hkind h)
  | _ => rfl

/-- The code units of a text of characters. -/
def textUnits (s : String) : List UInt16 := (codeUnits s).map UInt16.ofNat

/-- A number that is too large is taken for `null`. -/
theorem large_number_same :
    largeCrypto.sameSignedPayload .utf16 (spell (textUnits "[1e999]")) (spell (textUnits "[null]")) = true ∧
      ¬ largeCrypto.SamePayload (textUnits "[1e999]") (textUnits "[null]") := by
  have hvalues : largeCrypto.sameSignedPayload .utf16 (spell (textUnits "[1e999]"))
        (spell (textUnits "[null]")) = true ∧
      trim (spell (textUnits "[1e999]")) ≠ trim (spell (textUnits "[null]")) ∧
      (largeCrypto.read (textUnits "[1e999]")).map firstKind = some (some 3) ∧
      (largeCrypto.read (textUnits "[null]")).map firstKind = some (some 0) := by
    decide +kernel
  obtain ⟨hsame, hne, hnum, hnull⟩ := hvalues
  apply And.intro hsame
  rintro (h | ⟨u, v, hu, hv, h⟩)
  · exact hne h
  · rw [hu] at hnum
    rw [hv] at hnull
    have hkinds := firstKind_same h
    rw [Option.some.inj hnum, Option.some.inj hnull] at hkinds
    cases hkinds

-- half of a surrogate pair stands for itself, and two halves stand for their character
example : largeCrypto.sameSignedPayload .utf16 (spell (textUnits "\"\\ud800\""))
    (spell (textUnits "\"\\ud801\"")) = false := by decide +kernel

example : largeCrypto.sameSignedPayload .utf16 (spell (textUnits "\"\\ud83d\\ude00\""))
    (spell (textUnits "\"😀\"")) = true := by decide +kernel

end Sample

end Mise.Server
