import Mathlib.Algebra.GroupWithZero.Nat
import Mise.Js.Table
import Mise.Js.TextForm

set_option autoImplicit true

namespace Mise.Js

/-- `JSON.stringify` has no numbers but finite ones. -/
def finite (number : String) : Bool := number ∉ ["NaN", "Infinity", "-Infinity"]

section Stringify

variable (T : TextForm)

def quote (s : String) : List Char := '\x22' :: T.quoted s.toList

namespace Json

mutual

/-- `JSON.stringify(v)` -/
def chars : Json → List Char
  | .null => "null".toList
  | .bool b => (if b then "true" else "false").toList
  | .num t => if finite t then t.toList else "null".toList
  | .str s => quote T s
  | .arr [] => ['[', ']']
  | .arr (v :: vs) => '[' :: (chars v ++ moreElements vs)
  | .obj [] => ['\x7b', '\x7d']
  | .obj ((k, v) :: fields) => '\x7b' :: (quote T k ++ ':' :: (chars v ++ moreMembers fields))

/-- What follows an element of an array. -/
def moreElements : List Json → List Char
  | [] => [']']
  | v :: vs => ',' :: (chars v ++ moreElements vs)

/-- What follows a member of an object. -/
def moreMembers : List (String × Json) → List Char
  | [] => ['\x7d']
  | (k, v) :: fields => ',' :: (quote T k ++ ':' :: (chars v ++ moreMembers fields))

end

end Json

end Stringify

namespace Json

def stringify (v : Json) : String := String.ofList (v.chars .scalars)

mutual

/-- What is left of a value that is written as JSON and read again: no infinite numbers. -/
def reparsed : Json → Json
  | .null => .null
  | .bool b => .bool b
  | .num t => if finite t then .num t else .null
  | .str s => .str s
  | .arr vs => .arr (reparsedAll vs)
  | .obj fields => .obj (reparsedFields fields)

def reparsedAll : List Json → List Json
  | [] => []
  | v :: vs => reparsed v :: reparsedAll vs

def reparsedFields : List (String × Json) → List (String × Json)
  | [] => []
  | (k, v) :: fields => (k, reparsed v) :: reparsedFields fields

end

mutual

@[simp] theorem reparsed_reparsed : (v : Json) → v.reparsed.reparsed = v.reparsed
  | .null | .bool _ | .str _ => rfl
  | .num t => by
    rw [reparsed]
    split
    · next hf => rw [reparsed, if_pos hf]
    · rfl
  | .arr vs => by rw [reparsed, reparsed, reparsedAll_reparsedAll vs]
  | .obj fields => by rw [reparsed, reparsed, reparsedFields_reparsedFields fields]

theorem reparsedAll_reparsedAll : (vs : List Json) → reparsedAll (reparsedAll vs) = reparsedAll vs
  | [] => rfl
  | v :: vs => by
    rw [reparsedAll, reparsedAll, reparsed_reparsed v, reparsedAll_reparsedAll vs]

theorem reparsedFields_reparsedFields : (fields : List (String × Json)) →
    reparsedFields (reparsedFields fields) = reparsedFields fields
  | [] => rfl
  | (k, v) :: fields => by
    rw [reparsedFields, reparsedFields, reparsed_reparsed v, reparsedFields_reparsedFields fields]

end

end Json

section Lexer

def isBlank (c : Char) : Bool := c = ' ' || c = '\t' || c = '\n' || c = '\r'

def skipBlanks (cs : List Char) : List Char := cs.dropWhile isBlank

def someDigits (cs : List Char) : Option (List Char × List Char) :=
  if cs.takeWhile Char.isDigit = [] then none
  else some (cs.takeWhile Char.isDigit, cs.dropWhile Char.isDigit)

def intPart : List Char → Option (List Char × List Char)
  | [] => none
  | c :: cs => if c = '0' then some (['0'], cs) else someDigits (c :: cs)

def fracPart : List Char → Option (List Char × List Char)
  | [] => some ([], [])
  | c :: cs => if c = '.' then (someDigits cs).map fun d => (c :: d.1, d.2) else some ([], c :: cs)

def expDigits : List Char → Option (List Char × List Char)
  | [] => none
  | c :: cs => if c = '+' ∨ c = '-' then (someDigits cs).map fun d => (c :: d.1, d.2)
      else someDigits (c :: cs)

def expPart : List Char → Option (List Char × List Char)
  | [] => some ([], [])
  | c :: cs => if c = 'e' ∨ c = 'E' then (expDigits cs).map fun d => (c :: d.1, d.2)
      else some ([], c :: cs)

def unsigned (cs : List Char) : Option (List Char × List Char) := do
  let (i, cs) ← intPart cs
  let (f, cs) ← fracPart cs
  let (e, cs) ← expPart cs
  return (i ++ f ++ e, cs)

/-- A number literal and what follows it. -/
def numberLiteral : List Char → Option (List Char × List Char)
  | [] => none
  | c :: cs => if c = '-' then (unsigned cs).map fun d => (c :: d.1, d.2) else unsigned (c :: cs)

def keyword : List Char → Option (Json × List Char)
  | 'n' :: 'u' :: 'l' :: 'l' :: cs => some (.null, cs)
  | 't' :: 'r' :: 'u' :: 'e' :: cs => some (.bool true, cs)
  | 'f' :: 'a' :: 'l' :: 's' :: 'e' :: cs => some (.bool false, cs)
  | _ => none

end Lexer

/-- A key that is an array index. -/
def arrayIndex (k : String) : Option Nat :=
  let cs := k.toList
  if cs ≠ [] ∧ cs.all Char.isDigit ∧ (cs.head? = some '0' → cs = ['0']) then
    let n := cs.foldl (fun n c => n * 10 + (c.toNat - 48)) 0
    if n < 2 ^ 32 - 1 then some n else none
  else none

/-- The order of the own properties of an object: array indices come first, by their size. -/
def inKeyOrder (fields : List (String × β)) : List (String × β) :=
  (fields.filter fun x => (arrayIndex x.1).isSome).mergeSort
    (fun x y => (arrayIndex x.1).getD 0 ≤ (arrayIndex y.1).getD 0) ++
  fields.filter fun x => (arrayIndex x.1).isNone

/-- The own properties of an object literal; the last of equal keys counts. -/
def properties (members : List (String × β)) : List (String × β) :=
  inKeyOrder (members.foldl (fun l x => Table.put x.1 x.2 l) [])

section Parser

variable (T : TextForm)
variable (numberText : String → String)  -- of the number that a literal denotes

mutual

/-- A value and what follows it. -/
def parseValue : Nat → List Char → Option (Json × List Char)
  | 0, _ => none
  | n + 1, cs =>
    match skipBlanks cs with
    | [] => none
    | c :: cs =>
      if c = '\x22' then (T.literal cs).map fun x => (.str x.1, x.2)
      else if c = '[' then
        if (skipBlanks cs).head? = some ']' then some (.arr [], (skipBlanks cs).tail)
        else (parseElements n cs).map fun x => (.arr x.1, x.2)
      else if c = '\x7b' then
        if (skipBlanks cs).head? = some '\x7d' then some (.obj [], (skipBlanks cs).tail)
        else (parseMembers n cs).map fun x => (.obj (properties x.1), x.2)
      else (keyword (c :: cs)).or
        ((numberLiteral (c :: cs)).map fun x => (.num (numberText (String.ofList x.1)), x.2))

/-- The elements of an array, up to its closing bracket. -/
def parseElements : Nat → List Char → Option (List Json × List Char)
  | 0, _ => none
  | n + 1, cs => do
    let (v, cs) ← parseValue n cs
    match skipBlanks cs with
    | ']' :: cs => return ([v], cs)
    | ',' :: cs =>
      let (vs, cs) ← parseElements n cs
      return (v :: vs, cs)
    | _ => none

/-- The members of an object, up to its closing brace. -/
def parseMembers : Nat → List Char → Option (List (String × Json) × List Char)
  | 0, _ => none
  | n + 1, cs =>
    match skipBlanks cs with
    | '\x22' :: cs => do
      let (k, cs) ← T.literal cs
      match skipBlanks cs with
      | ':' :: cs =>
        let (v, cs) ← parseValue n cs
        match skipBlanks cs with
        | '\x7d' :: cs => return ([(k, v)], cs)
        | ',' :: cs =>
          let (fields, cs) ← parseMembers n cs
          return ((k, v) :: fields, cs)
        | _ => none
      | _ => none
    | _ => none

end

/-- `JSON.parse`. Every bracket, brace, comma or colon makes room for one more call. -/
def parseIn (s : String) : Option Json := do
  let (v, cs) ← parseValue T numberText (s.toList.length + 1) s.toList
  if skipBlanks cs = [] then return v else none

def parse (s : String) : Option Json := parseIn .scalars numberText s

end Parser

end Mise.Js
