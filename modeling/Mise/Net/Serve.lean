import Mathlib.Data.List.Range
import Mathlib.Data.List.TakeWhile
import Mise.Js.JsonText
import Mise.Js.Replace
import Mise.Net.Utf8

set_option autoImplicit true

namespace Mise.Net
open Js

/-- A connection to the gateway. `read` are the requests so far, `waiting` the numbers of those whose
handler has not answered yet, and `written` the replies, each with the number of its request. -/
structure Conn where
  buf : Text := []
  destroyed : Bool := false
  read : List Text := []
  waiting : List Nat := []
  written : List (Nat × Text) := []
  deriving DecidableEq

/-- `out` is the reply that the handler's answer gives. -/
inductive Event where
  | data (chunk : List UInt8)
  | answer (request : Nat) (out : Text)

def bufferCap : Nat := 64 * 1024

/-- The line before the first line feed, and what follows it. -/
def takeLine (buf : Text) : Option (Text × Text) :=
  match buf.span (· ≠ '\n') with
  | (line, _ :: rest) => some (line, rest)
  | (_, []) => none

namespace Conn

/-- `conn.write`, which does nothing on a connection that is destroyed. -/
def reply (k : Nat) (out : Text) (c : Conn) : Conn :=
  if c.destroyed then c else { c with written := c.written ++ [(k, out)] }

section Steps

variable (numberText : String → String) (syntaxError : Text → Text)

/-- Whether `JSON.parse` takes the line. -/
def parses (line : Text) : Bool := (parse numberText (String.ofList line)).isSome

/-- The loop of one activation, up to its end or to where it awaits the handler. -/
def lines : Nat → Conn → Conn
  | 0, c => c
  | n + 1, c =>
    match takeLine c.buf with
    | none => c
    | some (line, rest) =>
      if trimmed line = [] then lines n { c with buf := rest }
      else if parses numberText line then
        { c with buf := rest, read := c.read ++ [line], waiting := c.waiting ++ [c.read.length] }
      else
        lines n ({ c with buf := rest, read := c.read ++ [line] }.reply c.read.length (syntaxError line))

def activation (c : Conn) : Conn := lines numberText syntaxError (c.buf.length + 1) c

/-- A chunk begins an activation, and an answer goes on with the one that waits for it. -/
def step (c : Conn) : Event → Conn
  | .data chunk =>
    if c.destroyed then c
    else
      let c := { c with buf := c.buf ++ Utf8.decode chunk }
      if bufferCap < (c.buf.map units).sum then { c with destroyed := true }
      else activation numberText syntaxError c
  | .answer k out =>
    if k ∈ c.waiting then
      activation numberText syntaxError ({ c with waiting := c.waiting.erase k }.reply k out)
    else c

def run (events : List Event) : Conn := events.foldl (step numberText syntaxError) {}

end Steps

end Conn

section Requests

/-- The lines that end in the text and are not blank. -/
def requests (t : Text) : List Text := (t.splitOn '\n').dropLast.filter fun line => trimmed line ≠ []

theorem requests_append (u v : Text) :
    requests (u ++ '\n' :: v) = requests (u ++ ['\n']) ++ requests v := by
  have hv : v.splitOn '\n' ≠ [] := List.splitOn_ne_nil _ _
  have hnil : ([] : Text).splitOn '\n' = [[]] := rfl
  rw [requests, requests, requests, splitOn_append, splitOn_append, hnil, List.dropLast_concat,
    List.dropLast_append_of_ne_nil hv, List.filter_append]

theorem requests_line {line : Text} (h : '\n' ∉ line) :
    requests (line ++ ['\n']) = if trimmed line = [] then [] else [line] := by
  have hnil : ([] : Text).splitOn '\n' = [[]] := rfl
  rw [requests, splitOn_append, splitOn_line h, hnil, List.dropLast_concat, List.filter_singleton]
  by_cases hb : trimmed line = []
  · simp [hb]
  · simp [hb]

theorem requests_of_not_mem {t : Text} (h : '\n' ∉ t) : requests t = [] := by
  rw [requests, splitOn_line h]
  rfl

theorem takeLine_some (h : takeLine buf = some (line, rest)) :
    buf = line ++ '\n' :: rest ∧ '\n' ∉ line := by
  rw [takeLine, List.span_eq_takeWhile_dropWhile] at h
  cases hd : buf.dropWhile (· ≠ '\n') with
  | nil => rw [hd] at h; exact absurd h (by simp)
  | cons c s =>
    rw [hd] at h
    cases h
    have hc : c = '\n' := by
      have hhead := List.head?_dropWhile_not (fun c => decide (c ≠ '\n')) buf
      rw [hd] at hhead
      simpa using hhead
    constructor
    · conv_lhs => rw [← List.takeWhile_append_dropWhile (p := fun c => decide (c ≠ '\n')) (l := buf), hd, hc]
    · intro hmem
      simpa using List.mem_takeWhile_imp hmem

theorem takeLine_none (h : takeLine buf = none) : '\n' ∉ buf := by
  intro hmem
  rw [takeLine, List.span_eq_takeWhile_dropWhile] at h
  cases hd : buf.dropWhile (· ≠ '\n') with
  | nil =>
    have hall := List.dropWhile_eq_nil_iff.1 hd '\n' hmem
    exact absurd hall (by decide)
  | cons c s => rw [hd] at h; exact absurd h (by simp)

end Requests

end Mise.Net
