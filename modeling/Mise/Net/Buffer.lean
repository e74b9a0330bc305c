import Mise.Js.Replace

set_option autoImplicit true

namespace Mise.Net
open Js

abbrev Bytes := List UInt8

/-- The place that an offset means in a buffer of the given length: one below zero counts from the
end. -/
def place (length : Nat) (p : Int) : Nat := if p < 0 then (length + p).toNat else p.toNat

/-- `buf.subarray(a, b)` -/
def subarray (buf : Bytes) (a b : Int) : Bytes :=
  (buf.take (place buf.length b)).drop (place buf.length a)

/-- Where the text begins in a buffer for the first time. -/
def find (text : Bytes) : Bytes → Option Nat
  | [] => if text = [] then some 0 else none
  | b :: buf => if text <+: b :: buf then some 0 else (find text buf).map (· + 1)

/-- `buf.indexOf(text, p)` -/
def indexOf (text : Bytes) (buf : Bytes) (p : Int) : Option Nat :=
  if buf.length < place buf.length p then none
  else (find text (buf.drop (place buf.length p))).map (place buf.length p + ·)

/-- `buf.toString("latin1")` -/
def latin1 (buf : Bytes) : Text := buf.map fun b => Char.ofNat b.toNat

def crlf : Bytes := [13, 10]

def hexDigit (c : Char) : Option Nat :=
  if c.isDigit then some (c.toNat - 48)
  else if 'a' ≤ c ∧ c ≤ 'f' then some (c.toNat - 87)
  else if 'A' ≤ c ∧ c ≤ 'F' then some (c.toNat - 55)
  else none

/-- The digits at the front, the first one worth most. -/
def hexValue (s : Text) : Nat :=
  ((s.takeWhile fun c => (hexDigit c).isSome).filterMap hexDigit).foldl (fun n d => 16 * n + d) 0

/-- A sign and what follows it. -/
def signed : Text → Bool × Text
  | '-' :: s => (true, s)
  | '+' :: s => (false, s)
  | s => (false, s)

/-- `0x` and `0X` are read over. -/
def unprefixed : Text → Text
  | '0' :: 'x' :: s => s
  | '0' :: 'X' :: s => s
  | s => s

/-- `parseInt(s, 16)`, with `none` for `NaN`. A number that a double does not hold exactly is as far
beyond every buffer as the exact one. -/
def parseHex (s : Text) : Option Int :=
  let (negative, s) := signed (trimStart s)
  let s := unprefixed s
  if (s.head?.bind hexDigit).isNone then none
  else some (if negative then -hexValue s else hexValue s)

section Find

variable {text buf pre post : Bytes}

theorem find_le (h : find text buf = some n) : n ≤ buf.length := by
  induction buf generalizing n with
  | nil =>
    rw [find] at h
    split at h
    · cases h; exact le_rfl
    · exact absurd h (by simp)
  | cons b buf ih =>
    rw [find] at h
    split at h
    · cases h; exact Nat.zero_le _
    · obtain ⟨m, hm, rfl⟩ := Option.map_eq_some_iff.1 h
      exact Nat.succ_le_succ (ih hm)

theorem find_crlf (h : (13 : UInt8) ∉ pre) : find crlf (pre ++ crlf ++ post) = some pre.length := by
  induction pre with
  | nil =>
    rw [List.nil_append, crlf, List.cons_append, find, if_pos]
    · rfl
    · exact ⟨post, rfl⟩
  | cons b pre ih =>
    have hb : (13 : UInt8) ≠ b := fun e => h (e ▸ List.mem_cons_self)
    have hpre : ¬ crlf <+: b :: (pre ++ crlf ++ post) := by
      rintro ⟨rest, he⟩
      exact hb (List.cons.inj he).1
    rw [List.cons_append, List.cons_append, find, if_neg hpre,
      ih fun hmem => h (List.mem_cons_of_mem _ hmem)]
    rfl

theorem place_nat (length n : Nat) : place length n = n := by
  rw [place, if_neg (by omega), Int.toNat_natCast]

theorem indexOf_crlf (h : (13 : UInt8) ∉ pre) (hbuf : buf.drop n = pre ++ crlf ++ post) :
    indexOf crlf buf n = some (n + pre.length) := by
  have hlen := congrArg List.length hbuf
  simp only [List.length_drop, List.length_append, crlf, List.length_cons] at hlen
  rw [indexOf, place_nat, if_neg (by omega), hbuf, find_crlf h]
  rfl

theorem indexOf_bounds {p : Int} (h : indexOf text buf p = some n) :
    place buf.length p ≤ n ∧ n ≤ buf.length := by
  rw [indexOf] at h
  split at h
  · exact absurd h (by simp)
  · obtain ⟨m, hm, rfl⟩ := Option.map_eq_some_iff.1 h
    have hle := find_le hm
    rw [List.length_drop] at hle
    omega

theorem subarray_nat (h : buf.drop n = pre ++ post) : subarray buf n (n + pre.length : Nat) = pre := by
  rw [subarray, place_nat, place_nat, List.drop_take, h, Nat.add_sub_cancel_left, List.take_left]

end Find

end Mise.Net
