import Mathlib.Data.List.Lex
import Mathlib.Data.Option.Basic
import Mise.Js.Value

set_option autoImplicit true

namespace Mise.Js

/-- A digit of a `\u` escape. -/
def nibble (n : Nat) : Char := Char.ofNat (if n < 10 then 48 + n else 87 + n)

def nibbleValue (c : Char) : Option Nat :=
  if c.isDigit then some (c.toNat - 48)
  else if 'a' ≤ c ∧ c ≤ 'f' then some (c.toNat - 87)
  else if 'A' ≤ c ∧ c ≤ 'F' then some (c.toNat - 55)
  else none

/-- The characters that have a letter of their own after a backslash. -/
def escapes : List (Char × Char) :=
  [('\x22', '\x22'), ('\x5c', '\x5c'), ('\x08', 'b'), ('\x0c', 'f'), ('\n', 'n'), ('\r', 'r'),
    ('\t', 't')]

/-- A character between the quotes that `JSON.stringify` puts around a text. -/
def escape (c : Char) : List Char :=
  match escapes.lookup c with
  | some e => ['\x5c', e]
  | none =>
    if c.toNat < 32 then ['\x5c', 'u', '0', '0', nibble (c.toNat / 16), nibble (c.toNat % 16)]
    else [c]

/-- What follows the opening quote of a text. -/
def quoted (cs : List Char) : List Char := cs.flatMap escape ++ ['\x22']

/-- What a backslash and a letter stand for. -/
def unescape (e : Char) : Option Nat :=
  if e = '/' then some 47
  else (escapes.find? fun x => x.2 = e).map fun x => x.1.toNat

/-- The characters and escaped code units of a text, up to the closing quote. -/
def units16 : List Char → Option (List Nat × List Char)
  | [] => none
  | '\x22' :: cs => some ([], cs)
  | '\x5c' :: 'u' :: a :: b :: c :: d :: cs => do
    let u := (((← nibbleValue a) * 16 + (← nibbleValue b)) * 16 + (← nibbleValue c)) * 16 +
      (← nibbleValue d)
    let (us, cs) ← units16 cs
    return (u :: us, cs)
  | '\x5c' :: e :: cs => do
    let u ← unescape e
    let (us, cs) ← units16 cs
    return (u :: us, cs)
  | c :: cs => do
    guard (32 ≤ c.toNat)
    let (us, cs) ← units16 cs
    return (c.toNat :: us, cs)

/-- Half of a surrogate pair has no character of its own. -/
def unitChar (u : Nat) : Char := if 0xd800 ≤ u ∧ u < 0xe000 then '\ufffd' else Char.ofNat u

/-- The text of these characters and code units. -/
def decodeUnits : List Nat → List Char
  | [] => []
  | [u] => [unitChar u]
  | u :: v :: us =>
    if (0xd800 ≤ u ∧ u < 0xdc00) ∧ 0xdc00 ≤ v ∧ v < 0xe000 then
      Char.ofNat (0x10000 + (u - 0xd800) * 0x400 + (v - 0xdc00)) :: decodeUnits us
    else unitChar u :: decodeUnits (v :: us)

def textLiteral (cs : List Char) : Option (String × List Char) :=
  (units16 cs).map fun x => (String.ofList (decodeUnits x.1), x.2)

/-- The UTF-16 code units of a text. -/
def codeUnits (s : String) : List Nat :=
  s.toList.flatMap fun c =>
    if c.toNat < 0x10000 then [c.toNat]
    else [0xd800 + (c.toNat - 0x10000) / 0x400, 0xdc00 + (c.toNat - 0x10000) % 0x400]

section Letters

/-- The character that stands for a code unit. Half of a surrogate pair has none of its own. -/
def letterOf (u : Nat) : Char :=
  if 0xd800 ≤ u ∧ u < 0xe000 then Char.ofNat (0x10000 + u) else Char.ofNat u

def unitOf (c : Char) : Nat :=
  if 0x1d800 ≤ c.toNat ∧ c.toNat < 0x1e000 then c.toNat - 0x10000 else c.toNat

/-- A text of any code units, with one character for each. -/
def spell (us : List UInt16) : String := String.ofList (us.map fun u => letterOf u.toNat)

/-- Half of a surrogate pair that stands alone is written as an escape. -/
def escapeLetter (c : Char) : List Char :=
  let u := unitOf c
  if 0xd800 ≤ u ∧ u < 0xe000 then
    ['\x5c', 'u', nibble (u / 4096), nibble (u / 256 % 16), nibble (u / 16 % 16), nibble (u % 16)]
  else escape c

/-- What follows the opening quote of a text that is spelled. -/
def quotedLetters : List Char → List Char
  | [] => ['\x22']
  | [c] => escapeLetter c ++ ['\x22']
  | c :: d :: cs =>
    if (0xd800 ≤ unitOf c ∧ unitOf c < 0xdc00) ∧ 0xdc00 ≤ unitOf d ∧ unitOf d < 0xe000 then
      c :: d :: quotedLetters cs
    else escapeLetter c ++ quotedLetters (d :: cs)

def letterLiteral (cs : List Char) : Option (String × List Char) :=
  (units16 cs).map fun x => (String.ofList (x.1.map letterOf), x.2)

end Letters

/-- How the texts of JSON values are kept: what a literal stands for, how `JSON.stringify` quotes a
text, and the code units by which `sort` orders it. -/
structure TextForm where
  literal : List Char → Option (String × List Char)
  quoted : List Char → List Char
  units : String → List Nat
  reads : ∀ (s : String) (rest : List Char), literal (quoted s.toList ++ rest) = some (s, rest)
  distinct : ∀ s t : String, units s = units t → s = t

section Texts

theorem nibbleValue_nibble (h : n < 16) : nibbleValue (nibble n) = some n := by
  have hall : ∀ n < 16, nibbleValue (nibble n) = some n := by decide
  exact hall n h

theorem units16_plain {c : Char} (h : 32 ≤ c.toNat) (hq : c ≠ '\x22') (hb : c ≠ '\x5c')
    (cs : List Char) : units16 (c :: cs) = (units16 cs).map fun x => (c.toNat :: x.1, x.2) := by
  rw [units16]
  · have hguard : (guard (32 ≤ c.toNat) : Option Unit) = some () := if_pos h
    rw [hguard]
    cases units16 cs <;> rfl
  · exact fun he => hq he
  · intro a b c' d l he
    exact absurd he hb
  · intro e l he
    exact absurd he hb

theorem units16_next (u : Nat) (cs : List Char) :
    (do
      let (us, cs) ← units16 cs
      return (u :: us, cs)) = (units16 cs).map fun x => (u :: x.1, x.2) := by
  cases units16 cs <;> rfl

theorem units16_escape (c : Char) (cs : List Char) :
    units16 (escape c ++ cs) = (units16 cs).map fun x => (c.toNat :: x.1, x.2) := by
  rw [escape]
  split
  · next e he =>
    have hm : (c, e) ∈ escapes := by
      obtain ⟨l₁, l₂, hl, -⟩ := List.lookup_eq_some_iff.1 he
      rw [hl]
      exact List.mem_append_right _ List.mem_cons_self
    simp only [escapes, List.mem_cons, Prod.mk.injEq, List.not_mem_nil, or_false] at hm
    obtain ⟨rfl, rfl⟩ | ⟨rfl, rfl⟩ | ⟨rfl, rfl⟩ | ⟨rfl, rfl⟩ | ⟨rfl, rfl⟩ | ⟨rfl, rfl⟩ | ⟨rfl, rfl⟩ := hm
    all_goals exact units16_next _ cs
  · next he =>
    split
    · next h =>
      have h₁ := nibbleValue_nibble (n := c.toNat / 16) (by omega)
      have h₂ := nibbleValue_nibble (n := c.toNat % 16) (by omega)
      have h₀ : nibbleValue '0' = some 0 := rfl
      have hc : ((0 * 16 + 0) * 16 + c.toNat / 16) * 16 + c.toNat % 16 = c.toNat := by omega
      simp only [List.cons_append, List.nil_append, units16, h₀, h₁, h₂, Option.bind_eq_bind,
        Option.bind_some, hc]
      exact units16_next c.toNat cs
    · next h =>
      have hno : c ∉ escapes.map Prod.fst := fun hm => by
        obtain ⟨x, hx, hc⟩ := List.mem_map.1 hm
        rw [List.lookup_eq_none_iff] at he
        exact absurd hc.symm (by simpa using he x hx)
      simp only [escapes, List.map_cons, List.map_nil, List.mem_cons, List.not_mem_nil, or_false,
        not_or] at hno
      exact units16_plain (by omega) hno.1 hno.2.1 cs

theorem units16_quoted (cs rest : List Char) :
    units16 (quoted cs ++ rest) = some (cs.map Char.toNat, rest) := by
  induction cs with
  | nil => rfl
  | cons c cs ih =>
    have hq : quoted (c :: cs) ++ rest = escape c ++ (quoted cs ++ rest) := by
      simp only [quoted, List.flatMap_cons, List.append_assoc]
    rw [hq, units16_escape, ih]
    rfl

theorem not_surrogate (c : Char) : ¬ (0xd800 ≤ c.toNat ∧ c.toNat < 0xe000) := by
  have h := c.valid
  simp only [UInt32.isValidChar, Nat.isValidChar] at h
  change c.toNat < 0xd800 ∨ 0xdfff < c.toNat ∧ c.toNat < 0x110000 at h
  omega

theorem unitChar_toNat (c : Char) : unitChar c.toNat = c := by
  rw [unitChar, if_neg (not_surrogate c), Char.ofNat_toNat]

theorem decodeUnits_chars (cs : List Char) : decodeUnits (cs.map Char.toNat) = cs := by
  induction cs with
  | nil => rfl
  | cons c cs ih =>
    cases cs with
    | nil => exact congrArg (· :: []) (unitChar_toNat c)
    | cons d cs =>
      have h : ¬ ((0xd800 ≤ c.toNat ∧ c.toNat < 0xdc00) ∧ 0xdc00 ≤ d.toNat ∧ d.toNat < 0xe000) :=
        fun h => not_surrogate c ⟨h.1.1, by omega⟩
      rw [List.map_cons, List.map_cons, decodeUnits, if_neg h, unitChar_toNat]
      exact congrArg (c :: ·) ih

theorem textLiteral_quoted (s : String) (rest : List Char) :
    textLiteral (quoted s.toList ++ rest) = some (s, rest) := by
  rw [textLiteral, units16_quoted, Option.map_some, decodeUnits_chars, String.ofList_toList]

theorem decodeUnits_next (c : Char) (us : List Nat) (h : c.toNat < 0x10000) :
    decodeUnits (c.toNat :: us) = c :: decodeUnits us := by
  cases us with
  | nil => exact congrArg (· :: []) (unitChar_toNat c)
  | cons v us =>
    have hc : ¬ ((0xd800 ≤ c.toNat ∧ c.toNat < 0xdc00) ∧ 0xdc00 ≤ v ∧ v < 0xe000) := by
      intro hc
      exact not_surrogate c ⟨hc.1.1, by omega⟩
    rw [decodeUnits, if_neg hc, unitChar_toNat]

theorem decodeUnits_pair (c : Char) (us : List Nat) (h : ¬ c.toNat < 0x10000) :
    decodeUnits ((0xd800 + (c.toNat - 0x10000) / 0x400) ::
      (0xdc00 + (c.toNat - 0x10000) % 0x400) :: us) = c :: decodeUnits us := by
  have hmax : c.toNat < 0x110000 := by
    have hv := c.valid
    simp only [UInt32.isValidChar, Nat.isValidChar] at hv
    change c.toNat < 0xd800 ∨ 0xdfff < c.toNat ∧ c.toNat < 0x110000 at hv
    omega
  have hc : 0x10000 + (0xd800 + (c.toNat - 0x10000) / 0x400 - 0xd800) * 0x400 +
      (0xdc00 + (c.toNat - 0x10000) % 0x400 - 0xdc00) = c.toNat := by
    omega
  rw [decodeUnits, if_pos (by omega), hc, Char.ofNat_toNat]

theorem decodeUnits_codeUnits (s : String) : decodeUnits (codeUnits s) = s.toList := by
  unfold codeUnits
  induction s.toList with
  | nil => rfl
  | cons c cs ih =>
    rw [List.flatMap_cons]
    split
    · next h =>
      rw [List.singleton_append, decodeUnits_next c _ h, ih]
    · next h =>
      rw [List.cons_append, List.singleton_append, decodeUnits_pair c _ h, ih]

theorem codeUnits_injective {s t : String} (h : codeUnits s = codeUnits t) : s = t := by
  have hs := decodeUnits_codeUnits s
  rw [h, decodeUnits_codeUnits] at hs
  exact String.toList_inj.1 hs.symm

theorem letterOf_toNat (c : Char) : letterOf c.toNat = c := by
  rw [letterOf, if_neg (not_surrogate c), Char.ofNat_toNat]

theorem letterOf_unitOf (c : Char) : letterOf (unitOf c) = c := by
  rw [unitOf]
  split
  · next h =>
    have hu : 0xd800 ≤ c.toNat - 0x10000 ∧ c.toNat - 0x10000 < 0xe000 := by omega
    have hc : 0x10000 + (c.toNat - 0x10000) = c.toNat := by omega
    rw [letterOf, if_pos hu, hc, Char.ofNat_toNat]
  · exact letterOf_toNat c

theorem toNat_ofNat {n : Nat} (h : n.isValidChar) : (Char.ofNat n).toNat = n := by
  rw [Char.ofNat, dif_pos h]
  rfl

theorem unitOf_letterOf {u : Nat} (h : u < 0x10000) : unitOf (letterOf u) = u := by
  rw [letterOf]
  split
  · next hu =>
    rw [unitOf, toNat_ofNat (.inr (by omega)), if_pos (by omega)]
    omega
  · next hu =>
    have hvalid : u.isValidChar := by
      obtain hlow | hhigh := Nat.lt_or_ge u 0xd800
      · exact .inl hlow
      · exact .inr (by omega)
    rw [unitOf, toNat_ofNat hvalid, if_neg (by omega)]

theorem spell_injective {us vs : List UInt16} (h : spell us = spell vs) : us = vs := by
  have h := String.ofList_inj.1 h
  have hunits : ∀ us : List UInt16, (us.map fun u => letterOf u.toNat).map unitOf = us.map UInt16.toNat := by
    intro us
    rw [List.map_map]
    refine List.map_congr_left fun u _ => unitOf_letterOf u.toNat_lt
  have h := congrArg (List.map unitOf) h
  rw [hunits, hunits] at h
  exact List.map_injective_iff.2 (fun _ _ => UInt16.toNat.inj) h

theorem units16_escapeLetter (c : Char) (cs : List Char) :
    ∃ u, letterOf u = c ∧ units16 (escapeLetter c ++ cs) = (units16 cs).map fun x => (u :: x.1, x.2) := by
  unfold escapeLetter
  dsimp only
  split
  · next h =>
    refine ⟨unitOf c, letterOf_unitOf c, ?_⟩
    have h₁ := nibbleValue_nibble (n := unitOf c / 4096) (by omega)
    have h₂ := nibbleValue_nibble (n := unitOf c / 256 % 16) (by omega)
    have h₃ := nibbleValue_nibble (n := unitOf c / 16 % 16) (by omega)
    have h₄ := nibbleValue_nibble (n := unitOf c % 16) (by omega)
    have hu : ((unitOf c / 4096 * 16 + unitOf c / 256 % 16) * 16 + unitOf c / 16 % 16) * 16 +
        unitOf c % 16 = unitOf c := by omega
    simp only [List.cons_append, List.nil_append, units16, h₁, h₂, h₃, h₄, Option.bind_eq_bind,
      Option.bind_some, hu]
    exact units16_next (unitOf c) cs
  · exact ⟨c.toNat, letterOf_toNat c, units16_escape c cs⟩

/-- Half of a surrogate pair is written as it is where the other half is beside it. -/
theorem units16_half {c : Char} (h : 0xd800 ≤ unitOf c ∧ unitOf c < 0xe000) (cs : List Char) :
    units16 (c :: cs) = (units16 cs).map fun x => (c.toNat :: x.1, x.2) := by
  have hc : 0x1d800 ≤ c.toNat := by
    by_cases hc : 0x1d800 ≤ c.toNat ∧ c.toNat < 0x1e000
    · exact hc.1
    · rw [unitOf, if_neg hc] at h
      exact absurd h (not_surrogate c)
  apply units16_plain (by omega)
  · rintro rfl
    exact absurd hc (by decide)
  · rintro rfl
    exact absurd hc (by decide)

theorem units16_quotedLetters (cs rest : List Char) :
    ∃ us, us.map letterOf = cs ∧ units16 (quotedLetters cs ++ rest) = some (us, rest) := by
  induction cs using quotedLetters.induct with
  | case1 => exact ⟨[], rfl, rfl⟩
  | case2 c =>
    obtain ⟨u, hu, hc⟩ := units16_escapeLetter c ('\x22' :: rest)
    refine ⟨[u], congrArg (· :: []) hu, ?_⟩
    rw [quotedLetters, List.append_assoc, List.singleton_append, hc]
    rfl
  | case3 c d cs h ih =>
    obtain ⟨us, hus, hcs⟩ := ih
    refine ⟨c.toNat :: d.toNat :: us, ?_, ?_⟩
    · rw [List.map_cons, List.map_cons, letterOf_toNat, letterOf_toNat, hus]
    · rw [quotedLetters, if_pos h, List.cons_append, List.cons_append, units16_half (by omega),
        units16_half (by omega), hcs]
      rfl
  | case4 c d cs h ih =>
    obtain ⟨us, hus, hcs⟩ := ih
    obtain ⟨u, hu, hc⟩ := units16_escapeLetter c (quotedLetters (d :: cs) ++ rest)
    refine ⟨u :: us, by rw [List.map_cons, hu, hus], ?_⟩
    rw [quotedLetters, if_neg h, List.append_assoc, hc, hcs]
    rfl

theorem letterLiteral_quoted (s : String) (rest : List Char) :
    letterLiteral (quotedLetters s.toList ++ rest) = some (s, rest) := by
  obtain ⟨us, hus, hs⟩ := units16_quotedLetters s.toList rest
  rw [letterLiteral, hs, Option.map_some, hus, String.ofList_toList]

theorem letters_distinct {s t : String} (h : s.toList.map unitOf = t.toList.map unitOf) : s = t := by
  have hback : ∀ s : String, (s.toList.map unitOf).map letterOf = s.toList := by
    intro s
    rw [List.map_map]
    exact (List.map_congr_left fun c _ => letterOf_unitOf c).trans (List.map_id _)
  rw [← String.toList_inj, ← hback s, h, hback t]

end Texts

namespace TextForm

/-- Texts of characters. Half of a surrogate pair that stands alone is lost. -/
def scalars : TextForm where
  literal := textLiteral
  quoted := Js.quoted
  units := codeUnits
  reads := textLiteral_quoted
  distinct _ _ := codeUnits_injective

/-- Texts of code units, with one character for each. Nothing is lost. -/
def utf16 : TextForm where
  literal := letterLiteral
  quoted := quotedLetters
  units s := s.toList.map unitOf
  reads := letterLiteral_quoted
  distinct _ _ := letters_distinct

end TextForm

end Mise.Js
