import Mathlib.Data.List.Basic

set_option autoImplicit true

namespace Mise.Utf8

/-- What a decoder is in the middle of: the bits of a character so far, how many bytes are missing,
and the least and the greatest that the next one may be. -/
inductive Pending where
  | start
  | rest (code missing lo hi : Nat)
  deriving DecidableEq

def replacement : Char := '\ufffd'

/-- A byte where a character begins. -/
def first (b : Nat) : List Char × Pending :=
  if b < 0x80 then ([Char.ofNat b], .start)
  else if 0xc2 ≤ b ∧ b ≤ 0xdf then ([], .rest (b - 0xc0) 1 0x80 0xbf)
  else if 0xe0 ≤ b ∧ b ≤ 0xef then
    ([], .rest (b - 0xe0) 2 (if b = 0xe0 then 0xa0 else 0x80) (if b = 0xed then 0x9f else 0xbf))
  else if 0xf0 ≤ b ∧ b ≤ 0xf4 then
    ([], .rest (b - 0xf0) 3 (if b = 0xf0 then 0x90 else 0x80) (if b = 0xf4 then 0x8f else 0xbf))
  else ([replacement], .start)

/-- A byte that does not go on with the character begins anew, and what was there is replaced. -/
def next : Pending → Nat → List Char × Pending
  | .start, b => first b
  | .rest code missing lo hi, b =>
    if lo ≤ b ∧ b ≤ hi then
      if missing = 1 then ([Char.ofNat (64 * code + (b - 0x80))], .start)
      else ([], .rest (64 * code + (b - 0x80)) (missing - 1) 0x80 0xbf)
    else (replacement :: (first b).1, (first b).2)

/-- The characters that the bytes complete, and what is left pending. -/
def run : Pending → List UInt8 → List Char × Pending
  | p, [] => ([], p)
  | p, b :: bs => ((next p b.toNat).1 ++ (run (next p b.toNat).2 bs).1, (run (next p b.toNat).2 bs).2)

/-- What stands for a character that is cut off. -/
def cutOff : Pending → List Char
  | .start => []
  | .rest .. => [replacement]

/-- `bytes.toString("utf8")` -/
def decode (bs : List UInt8) : List Char := (run .start bs).1 ++ cutOff (run .start bs).2

def encode (s : List Char) : List UInt8 := s.flatMap String.utf8EncodeChar

/-- No character is cut in two after the bytes. -/
def Whole (bs : List UInt8) : Prop := (run .start bs).2 = .start

theorem run_append (p : Pending) (a b : List UInt8) :
    run p (a ++ b) = ((run p a).1 ++ (run (run p a).2 b).1, (run (run p a).2 b).2) := by
  induction a generalizing p with
  | nil => rfl
  | cons x a ih => rw [List.cons_append, run, ih, run, List.append_assoc]

theorem decode_append {a b : List UInt8} (h : Whole a) : decode (a ++ b) = decode a ++ decode b := by
  rw [Whole] at h
  rw [decode, decode, decode, run_append, h, cutOff, List.append_nil, List.append_assoc]

/-- The first bytes end in the middle of a character, or of what could become one, and the others go on
with it. -/
def Cut (a b : List UInt8) : Prop :=
  ∃ code missing lo hi x rest, (run .start a).2 = .rest code missing lo hi ∧ b = x :: rest ∧
    lo ≤ x.toNat ∧ x.toNat ≤ hi

section Cuts

variable {a b bs : List UInt8} {code missing lo hi : Nat}

/-- What the bytes decode to after a character that is pending. -/
def finish (p : Pending) (bs : List UInt8) : List Char := (run p bs).1 ++ cutOff (run p bs).2

theorem finish_cons (p : Pending) (x : UInt8) (bs : List UInt8) :
    finish p (x :: bs) = (next p x.toNat).1 ++ finish (next p x.toNat).2 bs := by
  rw [finish, run, finish, List.append_assoc]

theorem decode_append_eq (a b : List UInt8) :
    decode (a ++ b) = (run .start a).1 ++ finish (run .start a).2 b := by
  rw [decode, run_append, finish, List.append_assoc]

theorem decode_append_of_not_cut (h : ¬ Cut a b) : decode (a ++ b) = decode a ++ decode b := by
  cases hp : (run .start a).2 with
  | start => exact decode_append hp
  | rest code missing lo hi =>
    rw [decode_append_eq, decode, hp, List.append_assoc]
    congr 1
    cases b with
    | nil => rfl
    | cons x rest =>
      have hout : ¬ (lo ≤ x.toNat ∧ x.toNat ≤ hi) :=
        fun hx => h ⟨code, missing, lo, hi, x, rest, hp, rfl, hx.1, hx.2⟩
      rw [finish_cons, next, if_neg hout]
      exact congrArg (replacement :: ·) (finish_cons .start x rest).symm

/-- Only a byte that no character begins with goes on with one. -/
def Pending.Ok : Pending → Prop
  | .start => True
  | .rest _ _ lo hi => 0x80 ≤ lo ∧ hi ≤ 0xbf

theorem first_ok (b : Nat) : (first b).2.Ok := by
  unfold first
  split
  · trivial
  · split
    · exact ⟨by decide, by decide⟩
    · split
      · exact ⟨by split <;> decide, by split <;> decide⟩
      · split
        · exact ⟨by split <;> decide, by split <;> decide⟩
        · trivial

theorem next_ok (p : Pending) (b : Nat) : (next p b).2.Ok := by
  cases p with
  | start => exact first_ok b
  | rest code missing lo hi =>
    rw [next]
    split
    · split
      · trivial
      · exact ⟨by decide, by decide⟩
    · exact first_ok b

theorem run_ok (h : p.Ok) (bs : List UInt8) : (run p bs).2.Ok := by
  induction bs generalizing p with
  | nil => exact h
  | cons x bs ih => exact ih (next_ok p x.toNat)

theorem decode_tail {x : UInt8} (hlo : 0x80 ≤ x.toNat) (hhi : x.toNat ≤ 0xbf) (bs : List UInt8) :
    decode (x :: bs) = replacement :: decode bs := by
  have hfirst : next .start x.toNat = ([replacement], .start) := by
    rw [next, first, if_neg (by omega), if_neg (by omega), if_neg (by omega), if_neg (by omega)]
  have hcons := finish_cons .start x bs
  rw [hfirst] at hcons
  exact hcons

/-- Where what cannot be decoded weighs two, and no character more, a pending one adds no more than
two. -/
theorem finish_weight {weight : List Char → Nat} (hcons : ∀ c cs, weight (c :: cs) ≤ 2 + weight cs)
    (hreplaced : ∀ cs, weight (replacement :: cs) = 2 + weight cs)
    (hp : (Pending.rest code missing lo hi).Ok) (bs : List UInt8) :
    weight (finish (.rest code missing lo hi) bs) ≤ 2 + weight (decode bs) := by
  induction bs generalizing code missing lo hi with
  | nil => exact Nat.le_of_eq (hreplaced [])
  | cons x bs ih =>
    have hok := next_ok (.rest code missing lo hi) x.toNat
    rw [finish_cons]
    rw [next] at hok ⊢
    split
    · next hx =>
      rw [if_pos hx] at hok
      rw [decode_tail (Nat.le_trans hp.1 hx.1) (Nat.le_trans hx.2 hp.2), hreplaced]
      split
      · exact Nat.le_trans (hcons _ _) (Nat.add_le_add_left (Nat.le_add_left _ _) 2)
      · next hm =>
        rw [if_neg hm] at hok
        exact Nat.le_trans (ih hok) (Nat.add_le_add_left (Nat.le_add_left _ _) 2)
    · have hanew : (replacement :: (first x.toNat).1) ++ finish (first x.toNat).2 bs =
          replacement :: decode (x :: bs) :=
        congrArg (replacement :: ·) (finish_cons .start x bs).symm
      rw [hanew]
      exact Nat.le_of_eq (hreplaced _)

theorem decode_cut {weight : List Char → Nat} (hcons : ∀ c cs, weight (c :: cs) ≤ 2 + weight cs)
    (hreplaced : ∀ cs, weight (replacement :: cs) = 2 + weight cs) (h : Cut a b) :
    ∃ front back rest, decode a = front ++ [replacement] ∧ decode b = replacement :: rest ∧
      decode (a ++ b) = front ++ back ∧ weight back ≤ 2 + weight rest := by
  obtain ⟨code, missing, lo, hi, x, bs, hp, rfl, hlo, hhi⟩ := h
  have hok : (Pending.rest code missing lo hi).Ok := hp ▸ run_ok (p := .start) trivial a
  refine ⟨(run .start a).1, finish (.rest code missing lo hi) (x :: bs), decode bs, ?_, ?_, ?_, ?_⟩
  · rw [decode, hp, cutOff]
  · exact decode_tail (Nat.le_trans hok.1 hlo) (Nat.le_trans hhi hok.2) bs
  · rw [decode_append_eq, hp]
  · have hnext := next_ok (.rest code missing lo hi) x.toNat
    rw [finish_cons]
    rw [next, if_pos ⟨hlo, hhi⟩] at hnext ⊢
    split
    · exact hcons _ _
    · next hm =>
      rw [if_neg hm] at hnext
      exact finish_weight hcons hreplaced hnext bs

end Cuts

section Characters

theorem toNat_byte (h : n < 256) : (UInt8.ofNat n).toNat = n := by
  rw [UInt8.toNat_ofNat', Nat.mod_eq_of_lt h]

theorem first_ascii (h : b < 0x80) : first b = ([Char.ofNat b], .start) := by rw [first, if_pos h]

theorem first_two (hlo : 2 ≤ k) (hhi : k < 32) : first (k + 0xc0) = ([], .rest k 1 0x80 0xbf) := by
  rw [first, if_neg (by omega), if_pos (by omega), Nat.add_sub_cancel]

theorem first_three (h : k < 16) : first (k + 0xe0) =
    ([], .rest k 2 (if k = 0 then 0xa0 else 0x80) (if k = 13 then 0x9f else 0xbf)) := by
  rw [first, if_neg (by omega), if_neg (by omega), if_pos (by omega), Nat.add_sub_cancel]
  simp only [Nat.reduceEqDiff, Nat.add_eq_right]

theorem first_four (h : k < 5) : first (k + 0xf0) =
    ([], .rest k 3 (if k = 0 then 0x90 else 0x80) (if k = 4 then 0x8f else 0xbf)) := by
  rw [first, if_neg (by omega), if_neg (by omega), if_neg (by omega), if_pos (by omega),
    Nat.add_sub_cancel]
  simp only [Nat.reduceEqDiff, Nat.add_eq_right]

theorem next_more (hlo : lo ≤ d + 0x80) (hhi : d + 0x80 ≤ hi) :
    next (.rest code (m + 2) lo hi) (d + 0x80) =
      ([], .rest (64 * code + d) (m + 1) 0x80 0xbf) := by
  rw [next, if_pos ⟨hlo, hhi⟩, if_neg (by omega), Nat.add_sub_cancel]
  rfl

theorem next_last (hlo : lo ≤ d + 0x80) (hhi : d + 0x80 ≤ hi) :
    next (.rest code 1 lo hi) (d + 0x80) = ([Char.ofNat (64 * code + d)], .start) := by
  rw [next, if_pos ⟨hlo, hhi⟩, if_pos rfl, Nat.add_sub_cancel]

theorem run_char (c : Char) : run .start (String.utf8EncodeChar c) = ([c], .start) := by
  have hvalid : c.val.toNat < 0xd800 ∨ (0xdfff < c.val.toNat ∧ c.val.toNat < 0x110000) := c.valid
  have hchar : Char.ofNat c.val.toNat = c := Char.ofNat_toNat c
  rw [String.utf8EncodeChar]
  generalize c.val.toNat = v at hvalid hchar
  have hd : v % 0x40 < 64 := Nat.mod_lt _ (by decide)
  have hd' : v / 64 % 0x40 < 64 := Nat.mod_lt _ (by decide)
  have hd'' : v / 4096 % 0x40 < 64 := Nat.mod_lt _ (by decide)
  by_cases h₁ : v ≤ 0x7f
  · rw [if_pos h₁, run, run, next, toNat_byte (by omega), first_ascii (by omega), hchar]
    rfl
  by_cases h₂ : v ≤ 0x7ff
  · have hk : v / 64 % 0x20 = v / 64 := Nat.mod_eq_of_lt (by omega)
    have hv : 64 * (v / 64) + v % 0x40 = v := Nat.div_add_mod v 64
    rw [if_neg h₁, if_pos h₂, hk, run, run, run, toNat_byte (by omega), toNat_byte (by omega), next,
      first_two (by omega) (by omega), next_last (by omega) (by omega), hv, hchar]
    rfl
  by_cases h₃ : v ≤ 0xffff
  · have hk : v / 4096 % 0x10 = v / 4096 := Nat.mod_eq_of_lt (by omega)
    have hv : 64 * (64 * (v / 4096) + v / 64 % 0x40) + v % 0x40 = v := by omega
    have hlo : (if v / 4096 = 0 then 0xa0 else 0x80) ≤ v / 64 % 0x40 + 0x80 := by split <;> omega
    have hhi : v / 64 % 0x40 + 0x80 ≤ (if v / 4096 = 13 then 0x9f else 0xbf) := by split <;> omega
    rw [if_neg h₁, if_neg h₂, if_pos h₃, hk, run, run, run, run, toNat_byte (by omega),
      toNat_byte (by omega), toNat_byte (by omega), next, first_three (by omega),
      next_more (m := 0) hlo hhi, next_last (by omega) (by omega), hv, hchar]
    rfl
  · have hk : v / 262144 % 0x08 = v / 262144 := Nat.mod_eq_of_lt (by omega)
    have hv : 64 * (64 * (64 * (v / 262144) + v / 4096 % 0x40) + v / 64 % 0x40) + v % 0x40 = v := by
      omega
    have hlo : (if v / 262144 = 0 then 0x90 else 0x80) ≤ v / 4096 % 0x40 + 0x80 := by split <;> omega
    have hhi : v / 4096 % 0x40 + 0x80 ≤ (if v / 262144 = 4 then 0x8f else 0xbf) := by split <;> omega
    rw [if_neg h₁, if_neg h₂, if_neg h₃, hk, run, run, run, run, run, toNat_byte (by omega),
      toNat_byte (by omega), toNat_byte (by omega), toNat_byte (by omega), next,
      first_four (by omega), next_more (m := 1) hlo hhi,
      next_more (m := 0) (by omega) (by omega), next_last (by omega) (by omega), hv, hchar]
    rfl

end Characters

theorem run_encode (s : List Char) : run .start (encode s) = (s, .start) := by
  induction s with
  | nil => rfl
  | cons c s ih =>
    rw [encode, List.flatMap_cons, run_append, run_char, ← encode, ih]
    rfl

theorem decode_encode (s : List Char) : decode (encode s) = s := by
  rw [decode, run_encode, cutOff, List.append_nil]

end Mise.Utf8
