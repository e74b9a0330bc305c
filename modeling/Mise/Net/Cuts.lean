import Mise.Net.Utf8

set_option autoImplicit true

namespace Mise.Utf8

/-- A piece ends strictly inside the `len` bytes from `start` on. -/
def CutIn (pieces : List (List UInt8)) (start len : Nat) : Prop :=
  ∃ i, start < (pieces.take i).flatten.length ∧ (pieces.take i).flatten.length < start + len

/-- A character as the pieces show it: itself, or that many replacements. -/
def shown (x : Char × Nat) : List Char :=
  if x.2 = 0 then [x.1] else List.replicate x.2 replacement

def Continues (b : UInt8) : Prop := 0x80 ≤ b.toNat ∧ b.toNat < 0xc0

section Bytes

variable {p : Pending} {bs t : List UInt8}

theorem run_continues (h : ∀ b ∈ t, Continues b) :
    run .start t = (List.replicate t.length replacement, .start) := by
  induction t with
  | nil => rfl
  | cons b t ih =>
    obtain ⟨hlo, hhi⟩ := h b List.mem_cons_self
    have hfirst : first b.toNat = ([replacement], .start) := by
      rw [first, if_neg (by omega), if_neg (by omega), if_neg (by omega), if_neg (by omega)]
    rw [run, next, hfirst, ih fun b' hb' => h b' (List.mem_cons_of_mem _ hb')]
    rfl

theorem decode_continues (h : ∀ b ∈ t, Continues b) :
    decode t = List.replicate t.length replacement := by
  rw [decode, run_continues h, cutOff, List.append_nil]

theorem utf8EncodeChar_continues (c : Char) :
    ∃ b t, String.utf8EncodeChar c = b :: t ∧ ∀ b ∈ t, Continues b := by
  have hcont : ∀ n, Continues (UInt8.ofNat (n % 0x40 + 0x80)) := by
    intro n
    have hlt : n % 0x40 < 64 := Nat.mod_lt _ (by decide)
    rw [Continues, toNat_byte (by omega)]
    omega
  rw [String.utf8EncodeChar]
  generalize c.val.toNat = v
  by_cases h₁ : v ≤ 0x7f
  · rw [if_pos h₁]
    exact ⟨_, _, rfl, fun b hb => absurd hb List.not_mem_nil⟩
  by_cases h₂ : v ≤ 0x7ff
  · rw [if_neg h₁, if_pos h₂]
    exact ⟨_, _, rfl, List.forall_mem_singleton.2 (hcont _)⟩
  by_cases h₃ : v ≤ 0xffff
  · rw [if_neg h₁, if_neg h₂, if_pos h₃]
    exact ⟨_, _, rfl, List.forall_mem_cons.2 ⟨hcont _, List.forall_mem_singleton.2 (hcont _)⟩⟩
  · rw [if_neg h₁, if_neg h₂, if_neg h₃]
    exact ⟨_, _, rfl, List.forall_mem_cons.2 ⟨hcont _, List.forall_mem_cons.2
      ⟨hcont _, List.forall_mem_singleton.2 (hcont _)⟩⟩⟩

theorem first_nil (h : (first b).1 = []) : (first b).2 ≠ .start := by
  unfold first at h ⊢
  split
  · next hb => rw [if_pos hb] at h; exact absurd h (by simp)
  · next hb =>
    rw [if_neg hb] at h
    split
    · simp
    · next hb => 
      rw [if_neg hb] at h
      split
      · simp
      · next hb =>
        rw [if_neg hb] at h
        split
        · simp
        · next hb => rw [if_neg hb] at h; exact absurd h (by simp)

theorem next_nil (h : (next p b).1 = []) : (next p b).2 ≠ .start := by
  cases p with
  | start => exact first_nil h
  | rest code missing lo hi =>
    rw [next] at h ⊢
    split at h
    · next hb =>
      rw [if_pos hb]
      split at h
      · exact absurd h (by simp)
      · next hm => rw [if_neg hm]; simp
    · exact absurd h (by simp)

theorem run_ne_nil (hp : p ≠ .start ∨ bs ≠ []) (h : (run p bs).2 = .start) : (run p bs).1 ≠ [] := by
  induction bs generalizing p with
  | nil =>
    obtain hp | hp := hp
    · exact absurd h hp
    · exact absurd rfl hp
  | cons b bs ih =>
    rw [run] at h ⊢
    intro hnil
    obtain ⟨hfirst, hrest⟩ := List.append_eq_nil_iff.1 hnil
    exact ih (.inl (next_nil hfirst)) h hrest

/-- The front of a character that is cut in two is replaced once. -/
theorem decode_front {a b : List UInt8} (h : String.utf8EncodeChar c = a ++ b) (ha : a ≠ []) (hb : b ≠ []) :
    decode a = [replacement] := by
  have hrun := run_char c
  rw [h, run_append, Prod.mk.injEq] at hrun
  obtain ⟨hout, hend⟩ := hrun
  have hpending : (run .start a).2 ≠ .start := by
    intro hstart
    have hfirst := run_ne_nil (.inr ha) hstart
    have hsecond := run_ne_nil (.inr hb) hend
    have hlen := congrArg List.length hout
    rw [List.length_append, List.length_singleton] at hlen
    have h₁ := List.length_pos_of_ne_nil hfirst
    have h₂ := List.length_pos_of_ne_nil hsecond
    omega
  have hsecond := run_ne_nil (.inl hpending) hend
  have hnone : (run .start a).1 = [] := by
    have hlen := congrArg List.length hout
    rw [List.length_append, List.length_singleton] at hlen
    have h₂ := List.length_pos_of_ne_nil hsecond
    exact List.length_eq_zero_iff.1 (by omega)
  rw [decode, hnone, List.nil_append]
  cases hs : (run .start a).2 with
  | start => exact absurd hs hpending
  | rest => rfl

end Bytes

section Pieces

variable {pieces : List (List UInt8)}

theorem decode_nil : decode [] = [] := rfl

theorem decode_empty (h : pieces.flatten = []) : pieces.flatMap decode = [] := by
  rw [List.flatMap_eq_nil_iff]
  intro piece hpiece
  rw [List.flatten_eq_nil_iff.1 h piece hpiece, decode_nil]

theorem decode_pieces_continue (h : ∀ b ∈ pieces.flatten, Continues b) :
    pieces.flatMap decode = List.replicate pieces.flatten.length replacement := by
  induction pieces with
  | nil => rfl
  | cons piece pieces ih =>
    rw [List.flatten_cons] at h
    have hpiece := decode_continues fun b hb => h b (List.mem_append_left _ hb)
    rw [List.flatMap_cons, hpiece, ih fun b hb => h b (List.mem_append_right _ hb), List.flatten_cons,
      List.length_append, List.replicate_add]

/-- A character in pieces is replaced by more than one replacement, unless one piece has it all. -/
theorem decode_char {front : List (List UInt8)} {last : List UInt8}
    (h : front.flatten ++ last = String.utf8EncodeChar c) (hlast : last ≠ []) :
    (front.flatten = [] ∧ front.flatMap decode ++ decode last = [c]) ∨
    (front.flatten ≠ [] ∧ ∃ m, 2 ≤ m ∧
      front.flatMap decode ++ decode last = List.replicate m replacement) := by
  induction front with
  | nil =>
    rw [List.flatten_nil, List.nil_append] at h
    have hdecode : decode last = [c] := by rw [h, decode, run_char, cutOff, List.append_nil]
    exact .inl ⟨rfl, hdecode⟩
  | cons piece front ih =>
    rw [List.flatten_cons, List.append_assoc] at h
    rw [List.flatten_cons, List.flatMap_cons]
    by_cases hpiece : piece = []
    · subst hpiece
      exact ih h
    · right
      have hrest : front.flatten ++ last ≠ [] := by simp [hlast]
      have hfront := decode_front h.symm hpiece hrest
      obtain ⟨b, t, hbytes, hcontinues⟩ := utf8EncodeChar_continues c
      obtain ⟨b', piece, rfl⟩ := List.exists_cons_of_ne_nil hpiece
      rw [hbytes, List.cons_append, List.cons.injEq] at h
      have hall : ∀ x ∈ (front ++ [last]).flatten, Continues x := by
        intro x hx
        apply hcontinues
        rw [← h.2]
        exact List.mem_append_right _ (by simpa using hx)
      have hmore := decode_pieces_continue hall
      rw [List.flatMap_append, List.flatMap_singleton, List.flatten_append, List.flatten_singleton] at hmore
      refine ⟨by simp, (front.flatten ++ last).length + 1, ?_, ?_⟩
      · have := List.length_pos_of_ne_nil hrest
        omega
      · rw [List.append_assoc, hfront, hmore]
        rfl

theorem whole_last {a b : List UInt8} (h : a ++ b = String.utf8EncodeChar c) : Whole b := by
  cases a with
  | nil =>
    rw [List.nil_append] at h
    rw [Whole, h, run_char]
  | cons x a =>
    obtain ⟨y, t, hbytes, hcontinues⟩ := utf8EncodeChar_continues c
    rw [hbytes, List.cons_append, List.cons.injEq] at h
    have hb : ∀ z ∈ b, Continues z := fun z hz => hcontinues z (h.2 ▸ List.mem_append_right _ hz)
    rw [Whole, run_continues hb]

theorem pieces_split {a b : List UInt8} (h : pieces.flatten = a ++ b) (ha : a ≠ []) :
    ∃ front last more after, pieces = front ++ (last ++ more) :: after ∧ front.flatten ++ last = a ∧
      last ≠ [] ∧ more ++ after.flatten = b := by
  induction pieces generalizing a with
  | nil => exact absurd (List.append_eq_nil_iff.1 h.symm).1 ha
  | cons piece pieces ih =>
    rw [List.flatten_cons, List.append_eq_append_iff] at h
    obtain ⟨c, rfl, hrest⟩ | ⟨c, rfl, hrest⟩ := h
    · by_cases hc : c = []
      · subst hc
        rw [List.append_nil] at ha ⊢
        exact ⟨[], piece, [], pieces, by simp, rfl, ha, hrest⟩
      · obtain ⟨front, last, more, after, rfl, hfront, hlast, hmore⟩ := ih hrest hc
        exact ⟨piece :: front, last, more, after, rfl, by rw [List.flatten_cons, List.append_assoc, hfront],
          hlast, hmore⟩
    · exact ⟨[], a, c, pieces, rfl, rfl, ha, hrest.symm⟩

/-- A piece ends inside the first character exactly if the last piece of it is not the only one. -/
theorem cutIn_first {front after : List (List UInt8)} {last more : List UInt8} (hlast : last ≠ []) :
    CutIn (front ++ (last ++ more) :: after) 0 (front.flatten ++ last).length ↔ front.flatten ≠ [] := by
  have hpos := List.length_pos_of_ne_nil hlast
  constructor
  · rintro ⟨i, hlo, hhi⟩ hnil
    rw [hnil, List.nil_append, Nat.zero_add] at hhi
    rw [List.take_append] at hlo hhi
    have hfront : (front.take i).flatten = [] := by
      rw [List.flatten_eq_nil_iff] at hnil ⊢
      exact fun l hl => hnil l (List.mem_of_mem_take hl)
    rw [List.flatten_append, hfront, List.nil_append] at hlo hhi
    cases hk : i - front.length with
    | zero =>
      rw [hk] at hlo
      exact absurd hlo (by simp)
    | succ k =>
      rw [hk, List.take_succ_cons, List.flatten_cons] at hhi
      simp only [List.length_append] at hhi
      omega
  · intro hne
    have hfront := List.length_pos_of_ne_nil hne
    refine ⟨front.length, ?_, ?_⟩
    · rwa [List.take_left]
    · rw [List.take_left, List.length_append]
      omega

theorem length_flatten_take (l : List (List UInt8)) (i : Nat) :
    (l.take i).flatten.length ≤ l.flatten.length := by
  have hlen := congrArg (fun l : List (List UInt8) => l.flatten.length) (List.take_append_drop i l)
  simp only [List.flatten_append, List.length_append] at hlen
  omega

theorem cutIn_rest {front after : List (List UInt8)} {last more : List UInt8} (hlast : last ≠ [])
    (start len : Nat) :
    CutIn (front ++ (last ++ more) :: after) ((front.flatten ++ last).length + start) len ↔
      CutIn (more :: after) start len := by
  have hpos := List.length_pos_of_ne_nil hlast
  constructor
  · rintro ⟨i, hlo, hhi⟩
    rw [List.take_append] at hlo hhi
    cases hk : i - front.length with
    | zero =>
      have hle := length_flatten_take front i
      rw [hk] at hlo
      simp only [List.take_zero, List.append_nil, List.length_append] at hlo
      omega
    | succ k =>
      have hall : front.take i = front := List.take_of_length_le (by omega)
      rw [hk, hall, List.take_succ_cons] at hlo hhi
      refine ⟨k + 1, ?_, ?_⟩
      · rw [List.take_succ_cons]
        simp only [List.flatten_append, List.flatten_cons, List.length_append] at hlo ⊢
        omega
      · rw [List.take_succ_cons]
        simp only [List.flatten_append, List.flatten_cons, List.length_append] at hhi ⊢
        omega
  · rintro ⟨i, hlo, hhi⟩
    cases i with
    | zero => exact absurd hlo (by simp)
    | succ k =>
      have hsub : front.length + (k + 1) - front.length = k + 1 := Nat.add_sub_cancel_left _ _
      refine ⟨front.length + (k + 1), ?_, ?_⟩
      · rw [List.take_append, List.take_of_length_le (Nat.le_add_right _ _), hsub, List.take_succ_cons]
        rw [List.take_succ_cons] at hlo
        simp only [List.flatten_append, List.flatten_cons, List.length_append] at hlo ⊢
        omega
      · rw [List.take_append, List.take_of_length_le (Nat.le_add_right _ _), hsub, List.take_succ_cons]
        rw [List.take_succ_cons] at hhi
        simp only [List.flatten_append, List.flatten_cons, List.length_append] at hhi ⊢
        omega

/-- The text that the pieces show, character by character. -/
structure Marked (s : List Char) (pieces : List (List UInt8)) (marked : List (Char × Nat)) : Prop where
  chars : marked.map Prod.fst = s
  text : pieces.flatMap decode = marked.flatMap shown
  cut : ∀ l x r, marked = l ++ x :: r → (x.2 ≠ 0 ↔
    CutIn pieces (encode (l.map Prod.fst)).length (String.utf8EncodeChar x.1).length)
  two : ∀ x ∈ marked, x.2 ≠ 0 → 2 ≤ x.2

theorem encode_cons (c : Char) (s : List Char) : encode (c :: s) = String.utf8EncodeChar c ++ encode s :=
  List.flatMap_cons

theorem marked (h : pieces.flatten = encode s) : ∃ m, Marked s pieces m := by
  induction s generalizing pieces with
  | nil =>
    exact ⟨[], rfl, decode_empty h, fun l x r he => absurd he (by simp),
      fun x hx => absurd hx List.not_mem_nil⟩
  | cons c s ih =>
    rw [encode_cons] at h
    obtain ⟨front, last, more, after, rfl, hchar, hlast, hrest⟩ :=
      pieces_split h String.utf8EncodeChar_ne_nil
    obtain ⟨m, hm⟩ := @ih (more :: after) hrest
    -- The last piece of the character ends with it.
    have hwhole : Whole last := whole_last hchar
    have htext : (front ++ (last ++ more) :: after).flatMap decode =
        (front.flatMap decode ++ decode last) ++ (more :: after).flatMap decode := by
      rw [List.flatMap_append, List.flatMap_cons, decode_append hwhole, List.flatMap_cons]
      simp only [List.append_assoc]
    obtain ⟨k, hk, htwo, hshown⟩ : ∃ k, (k ≠ 0 ↔ front.flatten ≠ []) ∧ (k ≠ 0 → 2 ≤ k) ∧
        front.flatMap decode ++ decode last = shown (c, k) := by
      obtain ⟨hnil, hone⟩ | ⟨hne, k, hk, hmany⟩ := decode_char hchar hlast
      · exact ⟨0, by simp [hnil], fun h => absurd rfl h, hone⟩
      · have hk0 : k ≠ 0 := by omega
        exact ⟨k, by simp [hne, hk0], fun _ => hk, by rw [hmany, shown, if_neg hk0]⟩
    refine ⟨(c, k) :: m, ?_, ?_, ?_, ?_⟩
    · rw [List.map_cons, hm.chars]
    · rw [htext, hm.text, hshown, List.flatMap_cons]
    · intro l x r he
      cases l with
      | nil =>
        obtain ⟨rfl, -⟩ := List.cons.inj he
        rw [hk, ← hchar]
        exact (cutIn_first hlast).symm
      | cons y l =>
        obtain ⟨rfl, hrest⟩ := List.cons.inj he
        rw [hm.cut l x r hrest, List.map_cons, encode_cons, List.length_append, ← hchar]
        exact (cutIn_rest hlast _ _).symm
    · intro x hx
      obtain rfl | hx := List.mem_cons.1 hx
      · exact htwo
      · exact hm.two x hx

end Pieces

end Mise.Utf8
