import Mathlib.Data.List.Basic
import Mathlib.Tactic.Ring

set_option autoImplicit true

namespace Mise.Bytes

/-- The lowest `w` bytes of `n`, the lowest first. -/
def littleEndian : Nat → Nat → List UInt8
  | 0, _ => []
  | w + 1, n => UInt8.ofNat (n % 256) :: littleEndian w (n / 256)

def ofLittleEndian : List UInt8 → Nat
  | [] => 0
  | b :: bs => b.toNat + 256 * ofLittleEndian bs

@[simp] theorem length_littleEndian (w n : Nat) : (littleEndian w n).length = w := by
  induction w generalizing n with
  | zero => rfl
  | succ w ih => rw [littleEndian, List.length_cons, ih]

theorem ofLittleEndian_littleEndian (w n : Nat) :
    ofLittleEndian (littleEndian w n) = n % 256 ^ w := by
  induction w generalizing n with
  | zero => rw [Nat.pow_zero, Nat.mod_one]; rfl
  | succ w ih =>
    have hb : (UInt8.ofNat (n % 256)).toNat = n % 256 := by
      rw [UInt8.toNat_ofNat']
      omega
    rw [littleEndian, ofLittleEndian, ih, hb, Nat.pow_succ', Nat.mod_mul]

/-- The bytes of the buffer from `a` up to `b`, as far as it goes. -/
def subarray (buf : List UInt8) (a b : Nat) : List UInt8 := (buf.drop a).take (b - a)

/-- The number in the `w` bytes at `off`, where the buffer has them. -/
def readAt (w : Nat) (buf : List UInt8) (off : Nat) : Option Nat :=
  if off + w ≤ buf.length then some (ofLittleEndian ((buf.drop off).take w)) else none

variable {buf pre mid post : List UInt8}

theorem drop_add (h : buf.drop off = pre ++ post) : buf.drop (off + pre.length) = post := by
  rw [← List.drop_drop, h, List.drop_left]

theorem readAt_of_drop (h : buf.drop off = littleEndian w n ++ post) (hw : 0 < w)
    (hn : n < 256 ^ w) : readAt w buf off = some n := by
  have hlen := congrArg List.length h
  rw [List.length_drop, List.length_append, length_littleEndian] at hlen
  have hfits : off + w ≤ buf.length := by omega
  have htake : (littleEndian w n ++ post).take w = littleEndian w n :=
    List.take_left' (length_littleEndian w n)
  rw [readAt, if_pos hfits, h, htake, ofLittleEndian_littleEndian, Nat.mod_eq_of_lt hn]

theorem subarray_of_drop (h : buf.drop a = mid ++ post) : subarray buf a (a + mid.length) = mid := by
  rw [subarray, h, Nat.add_sub_cancel_left, List.take_left]

section Records

/-- Numbers one after the other, each with its width. -/
def record (fields : List (Nat × Nat)) : List UInt8 := fields.flatMap fun f => littleEndian f.1 f.2

def width (fields : List (Nat × Nat)) : Nat := (fields.map Prod.fst).sum

variable {fields : List (Nat × Nat)}

@[simp] theorem length_record (fields : List (Nat × Nat)) : (record fields).length = width fields := by
  induction fields with
  | nil => rfl
  | cons f fields ih =>
    rw [record, List.flatMap_cons, List.length_append, length_littleEndian, ← record, ih, width, width,
      List.map_cons, List.sum_cons]

theorem readAt_record (h : buf.drop off = record fields ++ post) (i : Nat)
    (hi : fields[i]? = some (w, n)) (hk : width (fields.take i) = k) (hw : 0 < w)
    (hn : n < 256 ^ w) : readAt w buf (off + k) = some n := by
  have hsplit : fields = fields.take i ++ (w, n) :: fields.drop (i + 1) := by
    obtain ⟨hlt, hget⟩ := List.getElem?_eq_some_iff.1 hi
    rw [← hget, ← List.drop_eq_getElem_cons hlt, List.take_append_drop]
  have hrecord : record fields = record (fields.take i) ++
      (littleEndian w n ++ record (fields.drop (i + 1))) := by
    conv_lhs => rw [hsplit]
    rw [record, List.flatMap_append, List.flatMap_cons]
    rfl
  rw [hrecord, List.append_assoc, List.append_assoc] at h
  have hdrop := drop_add h
  rw [length_record, hk] at hdrop
  exact readAt_of_drop hdrop hw hn

end Records

end Mise.Bytes
