import Mathlib.Data.List.Infix
import Mise.Net.Utf8

set_option autoImplicit true

namespace Mise.Tui

/-- The UTF-16 code units of a string. -/
abbrev Units := List UInt16

inductive Key where
  | up | down | right | left | home | «end» | delete | esc | enter | tab | backspace | ctrlC | ctrlU
  | char (c : UInt16)
  deriving DecidableEq

/-- `ESC` -/
def escape : UInt16 := 0x1b

/-- `[ABCDHF]` -/
def arrow (c : UInt16) : Option Key :=
  if c = 0x41 then some .up
  else if c = 0x42 then some .down
  else if c = 0x43 then some .right
  else if c = 0x44 then some .left
  else if c = 0x48 then some .home
  else if c = 0x46 then some .end
  else none

/-- A key of one unit; other control characters are none. -/
def single (c : UInt16) : List Key :=
  if c = 0x0d ∨ c = 0x0a then [.enter]
  else if c = 0x09 then [.tab]
  else if c = 0x7f ∨ c = 0x08 then [.backspace]
  else if c = 0x03 then [.ctrlC]
  else if c = 0x15 then [.ctrlU]
  else if 0x20 ≤ c then [.char c]
  else []

/-- The key after `ESC`, with the number of units that it takes; `ESC` by itself takes none. -/
def sequence : Units → Key × Nat
  | 0x5b :: d :: s =>
    match arrow d with
    | some k => (k, 2)
    | none => if d = 0x33 ∧ s.head? = some 0x7e then (.delete, 3) else (.esc, 0)
  | _ => (.esc, 0)

/-- The keys in a chunk of which the first units have been read already. -/
def decodeFrom : Nat → Units → List Key
  | _, [] => []
  | n + 1, _ :: s => decodeFrom n s
  | 0, c :: s =>
    if c = escape then (sequence s).1 :: decodeFrom (sequence s).2 s
    else single c ++ decodeFrom 0 s

def readKeys (s : Units) : List Key := decodeFrom 0 s

def utf16 (c : Char) : Units :=
  if c.toNat < 0x10000 then [c.toNat.toUInt16]
  else [(0xd800 + (c.toNat - 0x10000) / 0x400).toUInt16, (0xdc00 + (c.toNat - 0x10000) % 0x400).toUInt16]

/-- `buf.toString("utf8")` -/
def textOf (buf : List UInt8) : Units := (Utf8.decode buf).flatMap utf16

def decodeKeys (buf : List UInt8) : List Key := readKeys (textOf buf)

/-- The units of a key that is sent as an escape sequence. -/
def sequences : List Units :=
  [[escape, 0x5b, 0x41], [escape, 0x5b, 0x42], [escape, 0x5b, 0x43], [escape, 0x5b, 0x44],
    [escape, 0x5b, 0x48], [escape, 0x5b, 0x46], [escape, 0x5b, 0x33, 0x7e]]

/-- An escape sequence begins in one chunk and ends in another. -/
def CutAt (a b : Units) : Prop :=
  ∃ q ∈ sequences, ∃ p r, q = p ++ r ∧ p ≠ [] ∧ r ≠ [] ∧ p <:+ a ∧ r <+: b

section Sequences

variable {s x y a b : Units}

theorem sequence_known (h : escape :: x ∈ sequences) (y : Units) :
    sequence (x ++ y) = ((sequence x).1, x.length) ∧ x ≠ [] := by
  simp only [sequences, List.mem_cons, List.not_mem_nil, or_false, List.cons.injEq, true_and] at h
  rcases h with rfl | rfl | rfl | rfl | rfl | rfl | rfl
  all_goals exact ⟨rfl, List.cons_ne_nil _ _⟩

theorem arrow_some {d : UInt16} {k : Key} (h : arrow d = some k) :
    d ∈ [0x41, 0x42, 0x43, 0x44, 0x48, 0x46] := by
  simp only [arrow, List.mem_cons, List.not_mem_nil, or_false] at h ⊢
  grind

/-- An escape sequence is read, or `ESC` by itself. -/
theorem sequence_cases (s : Units) :
    (∃ x y, s = x ++ y ∧ escape :: x ∈ sequences) ∨ sequence s = (.esc, 0) := by
  unfold sequence
  split
  · next d s =>
    cases ha : arrow d with
    | some k =>
      have hall : ([0x41, 0x42, 0x43, 0x44, 0x48, 0x46] : Units).all (fun d => [escape, 0x5b, d] ∈ sequences) =
          true := by
        decide
      have hd := List.all_eq_true.1 hall d (arrow_some ha)
      exact .inl ⟨[0x5b, d], s, rfl, of_decide_eq_true hd⟩
    | none =>
      dsimp only
      split
      · next h =>
        obtain ⟨t, rfl⟩ := List.head?_eq_some_iff.1 h.2
        rw [h.1]
        exact .inl ⟨[0x5b, 0x33, 0x7e], t, rfl, by decide⟩
      · exact .inr rfl
  · exact .inr rfl

theorem decodeFrom_skip (x s : Units) : decodeFrom x.length (x ++ s) = readKeys s := by
  induction x with
  | nil => rfl
  | cons c x ih => exact ih

theorem readKeys_known (h : escape :: x ∈ sequences) (y : Units) :
    readKeys (escape :: x ++ y) = (sequence x).1 :: readKeys y := by
  rw [readKeys, List.cons_append, decodeFrom, if_pos rfl, (sequence_known h y).1, decodeFrom_skip]

theorem sequence_tail : ∀ q ∈ sequences, q.head? = some escape ∧ escape ∉ q.tail := by decide

theorem CutAt.tail {c : UInt16} (h : CutAt a b) : CutAt (c :: a) b := by
  obtain ⟨q, hq, p, r, hpr, hp, hr, hpa, hrb⟩ := h
  exact ⟨q, hq, p, r, hpr, hp, hr, hpa.trans (List.suffix_cons c a), hrb⟩

theorem sequence_append (h : ¬ CutAt (escape :: a) b) :
    sequence (a ++ b) = sequence a ∧ (sequence a).2 ≤ a.length := by
  have hlone : sequence a = (.esc, 0) → ∀ x y, a = x ++ y → escape :: x ∉ sequences := by
    rintro ha x y rfl hx
    obtain ⟨hknown, hne⟩ := sequence_known hx y
    rw [hknown] at ha
    exact hne (List.length_eq_zero_iff.1 (congrArg Prod.snd ha))
  rcases sequence_cases a with ⟨x, y, rfl, hx⟩ | ha
  · rw [List.append_assoc, (sequence_known hx (y ++ b)).1, (sequence_known hx y).1, List.length_append]
    exact ⟨rfl, Nat.le_add_right _ _⟩
  · rw [ha]
    refine ⟨?_, Nat.zero_le _⟩
    rcases sequence_cases (a ++ b) with ⟨x, y, hxy, hx⟩ | hab
    · exfalso
      rcases List.append_eq_append_iff.1 hxy with ⟨z, hz, hb⟩ | ⟨z, hz, -⟩
      · by_cases hne : z = []
        · rw [hne, List.append_nil] at hz
          exact hlone ha x [] (by rw [hz, List.append_nil]) hx
        · exact h ⟨escape :: x, hx, escape :: a, z, congrArg (escape :: ·) hz, List.cons_ne_nil _ _, hne,
            List.suffix_refl _, hb ▸ List.prefix_append z y⟩
      · exact hlone ha x z hz hx
    · exact hab

/-- Chunks are read one after the other where no sequence is cut between them. -/
theorem readKeys_append (h : ¬ CutAt a b) : readKeys (a ++ b) = readKeys a ++ readKeys b := by
  suffices ∀ n ≤ a.length, decodeFrom n (a ++ b) = decodeFrom n a ++ readKeys b from this 0 (Nat.zero_le _)
  induction a with
  | nil =>
    intro n hn
    rw [List.length_nil, Nat.le_zero] at hn
    subst hn
    rfl
  | cons c a ih =>
    have hrec := ih (mt CutAt.tail h)
    intro n hn
    cases n with
    | succ n => exact hrec n (Nat.le_of_succ_le_succ hn)
    | zero =>
      rw [List.cons_append, decodeFrom, decodeFrom]
      split
      · next hc =>
        subst hc
        obtain ⟨hseq, hle⟩ := sequence_append h
        rw [hseq, hrec _ hle]
        rfl
      · rw [hrec 0 (Nat.zero_le _), List.append_assoc]

theorem parts_length : ∀ q ∈ sequences, ∀ i < q.length, 0 < i →
    2 ≤ (readKeys (q.take i)).length + (readKeys (q.drop i)).length := by decide

theorem not_cut_before (a t : Units) : ¬ CutAt a (escape :: t) := by
  rintro ⟨q, hq, p, r, rfl, hp, hr, -, hrb⟩
  obtain ⟨c, p, rfl⟩ := List.exists_cons_of_ne_nil hp
  obtain ⟨d, r, rfl⟩ := List.exists_cons_of_ne_nil hr
  have hd : d = escape := (List.cons_prefix_cons.1 hrb).1
  subst hd
  exact (sequence_tail _ hq).2 (List.mem_append_right p List.mem_cons_self)

theorem not_cut_after (ha : escape ∉ a) (b : Units) : ¬ CutAt a b := by
  rintro ⟨q, hq, p, r, rfl, hp, -, hpa, -⟩
  obtain ⟨c, p, rfl⟩ := List.exists_cons_of_ne_nil hp
  have hc : c = escape := Option.some.inj (sequence_tail _ hq).1
  exact ha (hpa.subset (hc ▸ List.mem_cons_self))

/-- A sequence that is cut is not read as one key. -/
theorem readKeys_cut (h : CutAt a b) :
    (readKeys (a ++ b)).length < (readKeys a).length + (readKeys b).length := by
  obtain ⟨q, hq, p, r, rfl, hp, hr, ⟨a, rfl⟩, ⟨b, rfl⟩⟩ := h
  obtain ⟨hhead, htail⟩ := sequence_tail _ hq
  obtain ⟨c, p, rfl⟩ := List.exists_cons_of_ne_nil hp
  have hc : c = escape := Option.some.inj hhead
  subst hc
  have hr' : escape ∉ r := fun hm => htail (List.mem_append_right p hm)
  have hwhole : a ++ escape :: p ++ (r ++ b) = a ++ (escape :: (p ++ r) ++ b) := by simp
  have hlen := parts_length _ hq (escape :: p).length
    (by rw [List.length_append]; exact Nat.lt_add_of_pos_right (List.length_pos_of_ne_nil hr))
    (Nat.succ_pos _)
  rw [List.take_left, List.drop_left] at hlen
  have hknown : readKeys (escape :: (p ++ r) ++ b) = (sequence (p ++ r)).1 :: readKeys b :=
    readKeys_known hq b
  have hsplit : readKeys (a ++ (escape :: (p ++ r) ++ b)) =
      readKeys a ++ readKeys (escape :: (p ++ r) ++ b) := readKeys_append (not_cut_before a _)
  rw [hwhole, hsplit, readKeys_append (not_cut_before a p), hknown,
    readKeys_append (not_cut_after hr' b), List.length_append, List.length_append, List.length_append,
    List.length_cons]
  omega

theorem readKeys_le (a b : Units) :
    (readKeys (a ++ b)).length ≤ (readKeys a).length + (readKeys b).length := by
  by_cases h : CutAt a b
  · exact Nat.le_of_lt (readKeys_cut h)
  · rw [readKeys_append h, List.length_append]

theorem readKeys_length_le (s : Units) : (readKeys s).length ≤ s.length := by
  have hfrom : ∀ n, (decodeFrom n s).length ≤ s.length := by
    induction s with
    | nil =>
      intro n
      cases n <;> exact Nat.le_refl 0
    | cons c s ih =>
      intro n
      cases n with
      | succ n => exact Nat.le_succ_of_le (ih n)
      | zero =>
        rw [decodeFrom]
        split
        · exact Nat.succ_le_succ (ih _)
        · have hsingle : (single c).length ≤ 1 := by
            unfold single
            split_ifs
            all_goals simp
          rw [List.length_append, List.length_cons, Nat.add_comm]
          exact Nat.add_le_add (ih 0) hsingle
  exact hfrom 0

/-- A unit that is neither `ESC` nor a control character is read by itself. -/
theorem readKeys_replaced (s : Units) : readKeys (0xfffd :: s) = .char 0xfffd :: readKeys s := rfl

theorem count_single (c : UInt16) : (single c).count (.char 0xfffd) = [c].count 0xfffd := by
  by_cases hc : c = 0xfffd
  · rw [hc]
    rfl
  · have hnone : Key.char 0xfffd ∉ single c := by
      unfold single
      split_ifs
      all_goals simp [Ne.symm hc]
    rw [List.count_eq_zero_of_not_mem hnone,
      List.count_eq_zero_of_not_mem fun hm => hc (List.mem_singleton.1 hm).symm]

/-- As many units stand for what cannot be decoded as keys do. -/
theorem count_readKeys (s : Units) : (readKeys s).count (.char 0xfffd) = s.count 0xfffd := by
  have hnone : ∀ q ∈ sequences, q.tail.count 0xfffd = 0 ∧ Key.char 0xfffd ≠ (sequence q.tail).1 := by
    decide
  induction hn : s.length using Nat.strong_induction_on generalizing s with
  | _ n ih =>
    cases s with
    | nil => rfl
    | cons c s =>
      have hesc : (escape :: s).count 0xfffd = s.count 0xfffd := List.count_cons_of_ne (by decide)
      by_cases hc : c = escape
      · subst hc
        rw [hesc]
        rcases sequence_cases s with ⟨x, y, rfl, hx⟩ | hs
        · have hx' : x.count 0xfffd = 0 ∧ Key.char 0xfffd ≠ (sequence x).1 := hnone _ hx
          obtain ⟨hcount, hkey⟩ := hx'
          have hread : readKeys (escape :: (x ++ y)) = (sequence x).1 :: readKeys y := readKeys_known hx y
          rw [hread, List.count_cons_of_ne (Ne.symm hkey), List.count_append]
          have hy := ih y.length (by rw [← hn, List.length_cons, List.length_append]; omega) y rfl
          rw [hy]
          omega
        · have hread : readKeys (escape :: s) = .esc :: readKeys s := by
            rw [readKeys, decodeFrom, if_pos rfl, hs]
            rfl
          rw [hread, List.count_cons_of_ne (by decide)]
          exact ih s.length (by rw [← hn]; exact Nat.lt_succ_self _) s rfl
      · have hread : readKeys (c :: s) = single c ++ readKeys s := by
          rw [readKeys, decodeFrom, if_neg hc]
          rfl
        have hcons : (c :: s).count 0xfffd = [c].count 0xfffd + s.count 0xfffd := by
          rw [← List.count_append, List.singleton_append]
        rw [hread, List.count_append, count_single, hcons,
          ih s.length (by rw [← hn]; exact Nat.lt_succ_self _) s rfl]

end Sequences

section Characters

variable {c : Char} {cs ds : List Char} {a b : List UInt8}

/-- How many keys characters are read as, where those that stand for what cannot be decoded count
twice. -/
def weight (cs : List Char) : Nat :=
  (readKeys (cs.flatMap utf16)).length + (cs.flatMap utf16).count 0xfffd

theorem weight_append_le (cs ds : List Char) : weight (cs ++ ds) ≤ weight cs + weight ds := by
  have hle := readKeys_le (cs.flatMap utf16) (ds.flatMap utf16)
  rw [weight, weight, weight, List.flatMap_append, List.count_append]
  omega

theorem weight_append_lt (h : CutAt (cs.flatMap utf16) (ds.flatMap utf16)) :
    weight (cs ++ ds) < weight cs + weight ds := by
  have hlt := readKeys_cut h
  rw [weight, weight, weight, List.flatMap_append, List.count_append]
  omega

theorem weight_replaced (cs : List Char) : weight (Utf8.replacement :: cs) = 2 + weight cs := by
  have hunit : utf16 Utf8.replacement = [0xfffd] := rfl
  rw [weight, weight, List.flatMap_cons, hunit, List.singleton_append, readKeys_replaced,
    List.count_cons_self, List.length_cons]
  omega

theorem weight_concat_replaced (cs : List Char) : weight (cs ++ [Utf8.replacement]) = weight cs + 2 := by
  have hcut : ¬ CutAt (cs.flatMap utf16) [0xfffd] := by
    rintro ⟨q, hq, p, r, rfl, -, hr, -, hrb⟩
    have hno : ∀ q ∈ sequences, 0xfffd ∉ q := by decide
    obtain ⟨u, r, rfl⟩ := List.exists_cons_of_ne_nil hr
    have hu : u = 0xfffd := (List.cons_prefix_cons.1 hrb).1
    exact hno _ hq (List.mem_append_right p (hu ▸ List.mem_cons_self))
  have hunit : [Utf8.replacement].flatMap utf16 = [0xfffd] := rfl
  have hone : readKeys [0xfffd] = [.char 0xfffd] := rfl
  rw [weight, weight, List.flatMap_append, hunit, readKeys_append hcut, hone, List.length_append,
    List.count_append]
  exact Nat.add_add_add_comm _ 1 _ 1

/-- A character is at most two units, and of two none stands for what cannot be decoded. -/
theorem weight_single (c : Char) : weight [c] ≤ 2 := by
  have hunits : ([c].flatMap utf16).length + ([c].flatMap utf16).count 0xfffd ≤ 2 := by
    rw [List.flatMap_singleton, utf16]
    split
    · exact Nat.add_le_add (Nat.le_refl 1) List.count_le_length
    · have hc : c.toNat < 0x110000 := by
        obtain h | h := c.valid
        · exact Nat.lt_trans h (by decide)
        · exact h.2
      rw [List.count_eq_zero_of_not_mem]
      · exact Nat.le_refl 2
      · intro hm
        have htoNat : ∀ n, n < 0x10000 → 0xfffd = n.toUInt16 → n = 0xfffd := by
          intro n hn he
          have hto := congrArg UInt16.toNat he
          rw [UInt16.toNat_ofNat', Nat.mod_eq_of_lt hn] at hto
          exact hto.symm
        rcases List.mem_cons.1 hm with he | hm
        · have := htoNat _ (by omega) he
          omega
        · have := htoNat _ (by omega) (List.mem_singleton.1 hm)
          omega
  exact Nat.le_trans (Nat.add_le_add_right (readKeys_length_le _) _) hunits

theorem weight_cons_le (c : Char) (cs : List Char) : weight (c :: cs) ≤ 2 + weight cs :=
  Nat.le_trans (weight_append_le [c] cs) (Nat.add_le_add_right (weight_single c) _)

/-- What is sent in two chunks cuts a character or an escape sequence. -/
def Cut (a b : List UInt8) : Prop := Utf8.Cut a b ∨ CutAt (textOf a) (textOf b)

theorem weight_decode_lt (h : Cut a b) :
    weight (Utf8.decode (a ++ b)) < weight (Utf8.decode a) + weight (Utf8.decode b) := by
  by_cases hcut : Utf8.Cut a b
  · obtain ⟨front, back, rest, ha, hb, hab, hback⟩ := Utf8.decode_cut weight_cons_le weight_replaced hcut
    have hle := weight_append_le front back
    rw [ha, hb, hab, weight_concat_replaced, weight_replaced]
    omega
  · rw [Utf8.decode_append_of_not_cut hcut]
    exact weight_append_lt (h.resolve_left hcut)

theorem decodeKeys_append (h : ¬ Cut a b) : decodeKeys (a ++ b) = decodeKeys a ++ decodeKeys b := by
  rw [decodeKeys, textOf, Utf8.decode_append_of_not_cut fun hc => h (.inl hc), List.flatMap_append]
  exact readKeys_append fun hc => h (.inr hc)

theorem weight_decode_le (a b : List UInt8) :
    weight (Utf8.decode (a ++ b)) ≤ weight (Utf8.decode a) + weight (Utf8.decode b) := by
  by_cases h : Cut a b
  · exact Nat.le_of_lt (weight_decode_lt h)
  · rw [Utf8.decode_append_of_not_cut fun hc => h (.inl hc)]
    exact weight_append_le _ _

/-- The weight of what is read is seen from the keys. -/
def keyWeight (keys : List Key) : Nat := keys.length + keys.count (.char 0xfffd)

theorem keyWeight_append (keys keys' : List Key) :
    keyWeight (keys ++ keys') = keyWeight keys + keyWeight keys' := by
  rw [keyWeight, keyWeight, keyWeight, List.length_append, List.count_append]
  omega

theorem keyWeight_decodeKeys (a : List UInt8) : keyWeight (decodeKeys a) = weight (Utf8.decode a) := by
  rw [keyWeight, decodeKeys, count_readKeys]
  rfl

theorem weight_chunks_le (chunks : List (List UInt8)) :
    weight (Utf8.decode chunks.flatten) ≤ keyWeight (chunks.flatMap decodeKeys) := by
  induction chunks with
  | nil => exact Nat.le_refl _
  | cons c chunks ih =>
    have hle := weight_decode_le c chunks.flatten
    rw [List.flatten_cons, List.flatMap_cons, keyWeight_append, keyWeight_decodeKeys]
    omega

end Characters

/-- What is typed is read alike in chunks as all at once, exactly where no chunk begins a character or an
escape sequence that the later ones go on with. -/
theorem decodeKeys_chunks_iff (chunks : List (List UInt8)) :
    chunks.flatMap decodeKeys = decodeKeys chunks.flatten ↔
      ∀ before chunk after, chunks = before ++ chunk :: after → ¬ Cut chunk after.flatten := by
  constructor
  · rintro h before chunk after rfl hcut
    have hlt := weight_decode_lt hcut
    have hall := weight_decode_le before.flatten (chunk :: after).flatten
    have hbefore := weight_chunks_le before
    have hafter := weight_chunks_le after
    have hsame := congrArg keyWeight h
    rw [List.flatMap_append, List.flatMap_cons, List.flatten_append, keyWeight_append, keyWeight_append,
      keyWeight_decodeKeys, keyWeight_decodeKeys] at hsame
    rw [List.flatten_cons] at hall hsame
    omega
  · intro h
    induction chunks with
    | nil => rfl
    | cons c chunks ih =>
      rw [List.flatMap_cons, List.flatten_cons, decodeKeys_append (h [] c chunks rfl), ih]
      rintro before chunk after rfl
      exact h (c :: before) chunk after rfl

end Mise.Tui
