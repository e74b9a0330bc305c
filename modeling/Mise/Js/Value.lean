import Mathlib.Data.List.Dedup
import Mathlib.Data.List.Infix

set_option autoImplicit true

namespace Mise.Js

/-- What `JSON.parse` can give. A number is kept as the text that `String` gives for it. -/
inductive Json where
  | null
  | bool (b : Bool)
  | num (text : String)
  | str (s : String)
  | arr (xs : List Json)
  | obj (fields : List (String × Json))

/-- What an expression can throw by itself. -/
inductive Throw where
  | typeError
  deriving DecidableEq

namespace Json

/-- `v.k` where `k` is not a name that objects inherit; `none` is `undefined`. -/
def get (k : String) : Json → Except Throw (Option Json)
  | .null => .error .typeError
  | .obj fields => .ok (fields.lookup k)
  | _ => .ok none

def truthy : Json → Bool
  | .null => false
  | .bool b => b
  | .num t => t != "0"
  | .str s => s != ""
  | .arr _ | .obj _ => true

mutual

/-- `String(v)` and `v.toString()`. No JSON value is callable, so an object with a `toString` of
its own has no text. -/
def text : Json → Except Throw String
  | .null => .ok "null"
  | .bool b => .ok (if b then "true" else "false")
  | .num t => .ok t
  | .str s => .ok s
  | .arr xs => (texts xs).map (",".intercalate)
  | .obj fields => if (fields.lookup "toString").isSome then .error .typeError
      else .ok "[object Object]"

def texts : List Json → Except Throw (List String)
  | [] => .ok []
  | .null :: xs => (texts xs).map ("" :: ·)
  | x :: xs => do
    let t ← text x
    let ts ← texts xs
    return t :: ts

end

example : (Json.arr [.num "1", .null, .arr [.str "a", .str "b"]]).text = .ok "1,,a,b" := by decide

end Json

/-- `v || ""` -/
def orEmpty : Option Json → Json
  | some v => if v.truthy then v else .str ""
  | none => .str ""

def truthy (v : Option Json) : Bool := v.any Json.truthy

/-- The property that `o[v]` looks up. -/
def propertyKey : Option Json → Except Throw String
  | some v => v.text
  | none => .ok "undefined"

/-- White space and line terminators, as `trim` takes them away. -/
def isSpace (c : Char) : Bool :=
  c.val ∈ [9, 10, 11, 12, 13, 32, 0xa0, 0x1680, 0x2028, 0x2029, 0x202f, 0x205f, 0x3000, 0xfeff] ||
    (0x2000 ≤ c.val && c.val ≤ 0x200a)

def trimStart (s : List Char) : List Char := s.dropWhile isSpace

def trim (s : String) : String := String.ofList (trimStart (trimStart s.toList).reverse).reverse

/-- The number of UTF-16 code units of a character. -/
def units (c : Char) : Nat := if c.val < 0x10000 then 1 else 2

/-- The characters that lie within the first `n` code units. -/
def takeUnits (n : Nat) : List Char → List Char
  | [] => []
  | c :: cs => if units c ≤ n then c :: takeUnits (n - units c) cs else []

/-- `s.slice(0, n)`; a pair that it would cut in half is left out. -/
def slice (n : Nat) (s : String) : String := String.ofList (takeUnits n s.toList)

def includes (s sub : String) : Bool := decide (sub.toList <:+: s.toList)

def startsWith (s pre : String) : Bool := decide (pre.toList <+: s.toList)

/-- `s || null` -/
def orNull (s : String) : Option String := if s = "" then none else some s

/-- `[...new Set(l)]`, which keeps the first of equal elements. -/
def unique [DecidableEq α] (l : List α) : List α := l.reverse.dedup.reverse

theorem nodup_unique [DecidableEq α] (l : List α) : (unique l).Nodup :=
  List.nodup_reverse.2 (List.nodup_dedup _)

@[simp] theorem mem_unique [DecidableEq α] {l : List α} : a ∈ unique l ↔ a ∈ l := by
  simp [unique]

theorem unique_of_nodup [DecidableEq α] {l : List α} (h : l.Nodup) : unique l = l := by
  rw [unique, (List.nodup_reverse.2 h).dedup, List.reverse_reverse]

example : trim " \n+a b\t" = "+a b" := by decide

end Mise.Js
