import Mise.Net.Cuts
import Mise.Net.Replies

set_option autoImplicit true

namespace Mise.Net
open Js Utf8

/-! The readers besides the gateway's: the client's, which takes one line, and that of a body. -/

/-- `line` is the line that the reply is parsed from, with `none` for a reply that is oversized. -/
inductive Asking where
  | reading (buf : Text)
  | settled (line : Option Text)

def replyCap : Nat := 256 * 1024

def Asking.data : Asking → List UInt8 → Asking
  | .reading buf, chunk =>
    let buf := buf ++ decode chunk
    match takeLine buf with
    | none => if replyCap < (buf.map units).sum then .settled none else .reading buf
    | some (line, _) => .settled (some line)
  | .settled line, _ => .settled line

def Asking.line : Asking → Option Text
  | .reading _ => none
  | .settled line => line

/-- The line that the client parses a reply from, if it comes to one. -/
def ask (chunks : List (List UInt8)) : Option Text := (chunks.foldl Asking.data (.reading [])).line

/-- The body so far and how many bytes it had, until there are too many. -/
def bodyData (limit : Nat) : Option (Text × Nat) → List UInt8 → Option (Text × Nat)
  | some (data, size), c => if limit < size + c.length then none else some (data ++ decode c, size + c.length)
  | none, _ => none

def readBody (limit : Nat) (chunks : List (List UInt8)) : Option Text :=
  (chunks.foldl (bodyData limit) (some ([], 0))).map Prod.fst

/-- The chunks of a run. -/
def chunks (events : List Event) : List (List UInt8) :=
  events.filterMap fun
    | .data chunk => some chunk
    | .answer _ _ => none

/-- No chunk ends inside a character that meets the condition on what is before it and after it. -/
def Unbroken (P : Text → Text → Prop) (s : Text) (chunks : List (List UInt8)) : Prop :=
  ∀ s₁ c s₂, s = s₁ ++ c :: s₂ → P s₁ s₂ →
    ¬ CutIn chunks (encode s₁).length (String.utf8EncodeChar c).length

section Marks

variable {m : List (Char × Nat)} {s : Text} {pieces : List (List UInt8)}

theorem unbroken_iff {P : Text → Text → Prop} (h : Marked s pieces m) :
    Unbroken P s pieces ↔
      ∀ l x r, m = l ++ x :: r → P (l.map Prod.fst) (r.map Prod.fst) → x.2 = 0 := by
  constructor
  · intro hs l x r hm hP
    by_contra hx
    refine hs (l.map Prod.fst) x.1 (r.map Prod.fst) ?_ hP ((h.cut l x r hm).1 hx)
    rw [← h.chars, hm, List.map_append, List.map_cons]
  · intro hm s₁ c s₂ hs hP hcut
    have hchars := h.chars
    rw [hs, List.map_eq_append_iff] at hchars
    obtain ⟨l, r, hlr, rfl, hr⟩ := hchars
    obtain ⟨x, r, rfl, rfl, rfl⟩ := List.map_eq_cons_iff.1 hr
    exact (h.cut l x r hlr).2 hcut (hm l x r hlr hP)

theorem newline_whole (h : Marked s pieces m) (hx : x ∈ m) (hc : x.1 = '\n') : x.2 = 0 := by
  by_contra hne
  obtain ⟨l, r, hm⟩ := List.append_of_mem hx
  obtain ⟨i, hlo, hhi⟩ := (h.cut l x r hm).1 hne
  have hlen : (String.utf8EncodeChar x.1).length = 1 := by rw [hc]; decide
  omega

theorem shown_flatMap (h : ∀ x ∈ m, x.2 = 0) : m.flatMap shown = m.map Prod.fst := by
  induction m with
  | nil => rfl
  | cons x m ih =>
    rw [List.flatMap_cons, ih fun y hy => h y (List.mem_cons_of_mem _ hy), shown,
      if_pos (h x List.mem_cons_self), List.map_cons, List.singleton_append]

theorem newline_shown (hn : '\n' ∉ m.map Prod.fst) : '\n' ∉ m.flatMap shown := by
  intro hmem
  obtain ⟨x, hx, hc⟩ := List.mem_flatMap.1 hmem
  rw [shown] at hc
  split at hc
  · rw [List.mem_singleton] at hc
    exact hn (List.mem_map.2 ⟨x, hx, hc.symm⟩)
  · exact absurd (List.eq_of_mem_replicate hc) (by decide)

theorem length_shown (htwo : ∀ x ∈ m, x.2 ≠ 0 → 2 ≤ x.2) :
    m.length ≤ (m.flatMap shown).length ∧
      ((m.flatMap shown).length = m.length → ∀ x ∈ m, x.2 = 0) := by
  induction m with
  | nil => exact ⟨le_rfl, fun _ x hx => absurd hx List.not_mem_nil⟩
  | cons x m ih =>
    obtain ⟨hle, heq⟩ := ih fun y hy => htwo y (List.mem_cons_of_mem _ hy)
    have hx := htwo x List.mem_cons_self
    rw [List.flatMap_cons, List.length_append, List.length_cons, shown]
    by_cases h0 : x.2 = 0
    · rw [if_pos h0, List.length_singleton]
      refine ⟨by omega, fun h y hy => ?_⟩
      obtain rfl | hy := List.mem_cons.1 hy
      · exact h0
      · exact heq (by omega) y hy
    · have hmany := hx h0
      rw [if_neg h0, List.length_replicate]
      exact ⟨by omega, fun h => by omega⟩

theorem shown_eq_iff (htwo : ∀ x ∈ m, x.2 ≠ 0 → 2 ≤ x.2) :
    m.flatMap shown = m.map Prod.fst ↔ ∀ x ∈ m, x.2 = 0 := by
  refine ⟨fun h => (length_shown htwo).2 ?_, shown_flatMap⟩
  rw [h, List.length_map]

theorem mem_of_split {l a b r : List α} (h : a ++ y :: b = l ++ x :: r) :
    x ∈ a ∨ x = y ∨ ∃ c, l = a ++ y :: c ∧ b = c ++ x :: r := by
  obtain ⟨c, rfl, hc⟩ | ⟨c, rfl, hc⟩ := List.append_eq_append_iff.1 h
  · cases c with
    | nil => exact .inr (.inl (List.cons.inj hc).1.symm)
    | cons z c =>
      obtain ⟨rfl, hb⟩ := List.cons.inj hc
      exact .inr (.inr ⟨c, rfl, hb⟩)
  · cases c with
    | nil => exact .inr (.inl (List.cons.inj hc).1)
    | cons z c =>
      rw [(List.cons.inj hc).1]
      exact .inl (List.mem_append_right _ List.mem_cons_self)

theorem first_line (hnl : ∀ x ∈ m, x.1 = '\n' → x.2 = 0) (hmem : '\n' ∈ m.map Prod.fst) :
    ∃ a b, m = a ++ ('\n', 0) :: b ∧ '\n' ∉ a.map Prod.fst := by
  obtain ⟨x, hx, hc⟩ := List.mem_map.1 hmem
  have hx' : ('\n', 0) ∈ m := by
    rw [← hc, ← hnl x hx hc]
    exact hx
  obtain ⟨a, b, hm, ha⟩ := List.eq_append_cons_of_mem hx'
  refine ⟨a, b, hm, fun h => ?_⟩
  obtain ⟨y, hy, hy'⟩ := List.mem_map.1 h
  have hym : y ∈ m := by
    rw [hm]
    exact List.mem_append_left _ hy
  refine ha ?_
  rw [← hy', ← hnl y hym hy']
  exact hy

theorem trimmed_ne_nil (hc : c ∈ s) (hspace : ¬ isSpace c) : trimmed s ≠ [] := by
  intro h
  rw [trimmed, List.reverse_eq_nil_iff, trimStart, List.dropWhile_eq_nil_iff] at h
  rw [← List.takeWhile_append_dropWhile (p := isSpace) (l := s), List.mem_append] at hc
  obtain hc | hc := hc
  · exact hspace (List.mem_takeWhile_imp hc)
  · exact hspace (h c (List.mem_reverse.2 hc))

/-- How much text the requests have. -/
def weight (t : Text) : Nat := ((requests t).map List.length).sum

theorem weight_cons {u v : Text} (h : '\n' ∉ u) :
    weight (u ++ '\n' :: v) = (if trimmed u = [] then 0 else u.length) + weight v := by
  rw [weight, requests_append, requests_line h, List.map_append, List.sum_append, weight]
  split <;> rfl

theorem weight_of_not_mem {t : Text} (h : '\n' ∉ t) : weight t = 0 := by
  rw [weight, requests_of_not_mem h]
  rfl

theorem line_shown (htwo : ∀ x ∈ m, x.2 ≠ 0 → 2 ≤ x.2) :
    (∀ x ∈ m, x.2 = 0) ∨ (if trimmed (m.map Prod.fst) = [] then 0 else (m.map Prod.fst).length) <
      if trimmed (m.flatMap shown) = [] then 0 else (m.flatMap shown).length := by
  by_cases h : ∀ x ∈ m, x.2 = 0
  · exact .inl h
  · right
    obtain ⟨hle, heq⟩ := length_shown htwo
    have hlt : m.length < (m.flatMap shown).length := by
      apply Nat.lt_of_le_of_ne hle
      intro he
      exact h (heq he.symm)
    have hnonblank : trimmed (m.flatMap shown) ≠ [] := by
      simp only [not_forall] at h
      obtain ⟨x, hx, hx0⟩ := h
      have hk := htwo x hx hx0
      apply trimmed_ne_nil (c := replacement)
      · apply List.mem_flatMap.2
        refine ⟨x, hx, ?_⟩
        rw [shown, if_neg hx0]
        exact List.mem_replicate.2 ⟨hx0, rfl⟩
      · decide
    rw [if_neg hnonblank, List.length_map]
    split
    · omega
    · exact hlt

theorem weight_shown (htwo : ∀ x ∈ m, x.2 ≠ 0 → 2 ≤ x.2) (hnl : ∀ x ∈ m, x.1 = '\n' → x.2 = 0) :
    weight (m.map Prod.fst) ≤ weight (m.flatMap shown) ∧
      (weight (m.flatMap shown) = weight (m.map Prod.fst) →
        ∀ l x r, m = l ++ x :: r → '\n' ∈ r.map Prod.fst → x.2 = 0) := by
  induction hn : m.length using Nat.strong_induction_on generalizing m with
  | _ n ih =>
    subst hn
    by_cases hmem : '\n' ∈ m.map Prod.fst
    · obtain ⟨a, b, rfl, ha⟩ := first_line hnl hmem
      have htwo_a : ∀ x ∈ a, x.2 ≠ 0 → 2 ≤ x.2 := fun x hx => htwo x (List.mem_append_left _ hx)
      obtain ⟨hle, heq⟩ := ih b.length (by simp; omega)
        (fun x hx => htwo x (List.mem_append_right _ (List.mem_cons_of_mem _ hx)))
        (fun x hx => hnl x (List.mem_append_right _ (List.mem_cons_of_mem _ hx))) rfl
      have hshown : (a ++ ('\n', 0) :: b).flatMap shown = a.flatMap shown ++ '\n' :: b.flatMap shown := by
        rw [List.flatMap_append, List.flatMap_cons]
        rfl
      rw [hshown, List.map_append, List.map_cons, weight_cons (newline_shown ha), weight_cons ha]
      obtain hall | hlt := line_shown htwo_a
      · rw [shown_flatMap hall]
        refine ⟨by omega, fun h l x r hm hr => ?_⟩
        obtain hx | rfl | ⟨c, rfl, hc⟩ := mem_of_split hm
        · exact hall x hx
        · rfl
        · exact heq (by omega) c x r hc hr
      · exact ⟨by omega, fun h => by omega⟩
    · have hzero := weight_of_not_mem hmem
      refine ⟨by omega, fun _ l x r hm hr => absurd ?_ hmem⟩
      rw [hm, List.map_append, List.map_cons]
      exact List.mem_append_right _ (List.mem_cons_of_mem _ hr)

theorem requests_shown_iff (htwo : ∀ x ∈ m, x.2 ≠ 0 → 2 ≤ x.2) (hnl : ∀ x ∈ m, x.1 = '\n' → x.2 = 0) :
    requests (m.flatMap shown) = requests (m.map Prod.fst) ↔
      ∀ l x r, m = l ++ x :: r → '\n' ∈ r.map Prod.fst → x.2 = 0 := by
  constructor
  · intro h
    apply (weight_shown htwo hnl).2
    rw [weight, weight, h]
  · intro h
    by_cases hmem : '\n' ∈ m.map Prod.fst
    · -- The last line feed is the first one from the end.
      obtain ⟨b, a, hm, hb⟩ := first_line (m := m.reverse) (fun x hx => hnl x (List.mem_reverse.1 hx))
        (by rwa [List.map_reverse, List.mem_reverse])
      obtain rfl : m = a.reverse ++ ('\n', 0) :: b.reverse := by
        rw [← List.reverse_reverse m, hm]
        simp
      have hb' : '\n' ∉ b.reverse.map Prod.fst := by rwa [List.map_reverse, List.mem_reverse]
      have ha : ∀ x ∈ a.reverse, x.2 = 0 := by
        intro x hx
        obtain ⟨l, r, he⟩ := List.append_of_mem hx
        refine h l x (r ++ ('\n', 0) :: b.reverse) (by rw [he, List.append_assoc, List.cons_append]) ?_
        rw [List.map_append, List.map_cons]
        exact List.mem_append_right _ List.mem_cons_self
      have hshown : (a.reverse ++ ('\n', 0) :: b.reverse).flatMap shown =
          a.reverse.flatMap shown ++ '\n' :: b.reverse.flatMap shown := by
        rw [List.flatMap_append, List.flatMap_cons]
        rfl
      rw [hshown, List.map_append, List.map_cons, requests_append, requests_append _ (b.reverse.map _),
        requests_of_not_mem (newline_shown hb'), requests_of_not_mem hb', shown_flatMap ha]
    · rw [requests_of_not_mem (newline_shown hmem), requests_of_not_mem hmem]

end Marks

section Line

variable {buf u v : Text} {pieces : List (List UInt8)}

theorem takeLine_line (h : '\n' ∉ u) : takeLine (u ++ '\n' :: v) = some (u, v) := by
  have hu : ∀ c ∈ u, decide (c ≠ '\n') = true := by
    intro c hc
    rw [decide_eq_true_iff]
    rintro rfl
    exact h hc
  rw [takeLine, List.span_eq_takeWhile_dropWhile, List.takeWhile_append_of_pos hu,
    List.dropWhile_append_of_pos hu]
  simp

theorem takeLine_of_not_mem (h : '\n' ∉ buf) : takeLine buf = none := by
  cases hl : takeLine buf with
  | none => rfl
  | some x =>
    obtain ⟨line, rest⟩ := x
    have hbuf := (takeLine_some hl).1
    refine absurd ?_ h
    rw [hbuf]
    exact List.mem_append_right _ List.mem_cons_self

theorem settled_line (line : Option Text) (pieces : List (List UInt8)) :
    (pieces.foldl Asking.data (.settled line)).line = line := by
  induction pieces with
  | nil => rfl
  | cons piece pieces ih => exact ih

/-- The client comes to the first line, or to more text than the cap without a line feed. -/
theorem line_from (pieces : List (List UInt8)) (buf : Text) (hbuf : '\n' ∉ buf) :
    (pieces.foldl Asking.data (.reading buf)).line =
        (takeLine (buf ++ pieces.flatMap decode)).map Prod.fst ∨
      (pieces.foldl Asking.data (.reading buf)).line = none ∧
        ∃ p, p <+: buf ++ pieces.flatMap decode ∧ '\n' ∉ p ∧ replyCap < (p.map units).sum := by
  induction pieces generalizing buf with
  | nil =>
    left
    rw [List.flatMap_nil, List.append_nil, takeLine_of_not_mem hbuf]
    rfl
  | cons piece pieces ih =>
    rw [List.foldl_cons, List.flatMap_cons, ← List.append_assoc, Asking.data]
    cases hl : takeLine (buf ++ decode piece) with
    | none =>
      have hmem := takeLine_none hl
      dsimp only
      split
      · next hcap =>
        exact .inr ⟨settled_line _ _, _, List.prefix_append _ _, hmem, hcap⟩
      · exact ih _ hmem
    | some x =>
      obtain ⟨line, rest⟩ := x
      obtain ⟨htext, hline⟩ := takeLine_some hl
      left
      rw [htext, List.append_assoc, List.cons_append, takeLine_line hline]
      exact settled_line _ _

theorem prefix_line {p : Text} (h : p <+: u ++ '\n' :: v) (hp : '\n' ∉ p) : p <+: u := by
  obtain ⟨rest, he⟩ := h
  obtain ⟨c, hu, -⟩ | ⟨c, hp', hc⟩ := List.append_eq_append_iff.1 he
  · exact ⟨c, hu.symm⟩
  · cases c with
    | nil => exact ⟨[], by rw [hp', List.append_nil, List.append_nil]⟩
    | cons x c =>
      obtain rfl := (List.cons.inj hc).1
      refine absurd ?_ hp
      rw [hp']
      exact List.mem_append_right _ List.mem_cons_self

theorem units_prefix {p t : Text} (h : p <+: t) : (p.map units).sum ≤ (t.map units).sum := by
  obtain ⟨rest, rfl⟩ := h
  rw [List.map_append, List.sum_append]
  exact Nat.le_add_right _ _

end Line

section Units

/-- What is pending is shown as one character at most. -/
def owed : Pending → Nat
  | .start => 0
  | .rest .. => 1

theorem units_le (c : Char) : units c ≤ 2 := by
  rw [units]
  split <;> omega

theorem units_ascii (h : b < 0x80) : units (Char.ofNat b) = 1 := by
  have hvalid : b.isValidChar := .inl (by omega)
  have hval : (Char.ofNat b).val.toNat = b := by
    rw [Char.ofNat, dif_pos hvalid]
    rfl
  rw [units, if_pos]
  rw [UInt32.lt_iff_toNat_lt, hval]
  exact Nat.lt_of_lt_of_le h (by decide)

theorem units_first (b : Nat) : (((first b).1.map units).sum + owed (first b).2) = 1 := by
  unfold first
  by_cases h : b < 0x80
  · rw [if_pos h]
    simp [owed, units_ascii h]
  · rw [if_neg h]
    split
    · rfl
    · split
      · rfl
      · split <;> rfl

theorem units_next (p : Pending) (b : Nat) :
    ((next p b).1.map units).sum + owed (next p b).2 ≤ owed p + 1 := by
  have hfirst := units_first b
  cases p with
  | start =>
    rw [next, hfirst]
    exact Nat.le_add_left _ _
  | rest code missing lo hi =>
    rw [next]
    split
    · split
      · have := units_le (Char.ofNat (64 * code + (b - 0x80)))
        simp only [List.map_cons, List.map_nil, List.sum_cons, List.sum_nil, owed]
        omega
      · simp [owed]
    · have hone : units replacement = 1 := by decide
      have howed : owed (.rest code missing lo hi) = 1 := rfl
      rw [List.map_cons, List.sum_cons, hone, howed]
      dsimp only
      omega

theorem units_run (p : Pending) (bs : List UInt8) :
    ((run p bs).1.map units).sum + owed (run p bs).2 ≤ owed p + bs.length := by
  induction bs generalizing p with
  | nil => simp [run]
  | cons b bs ih =>
    have hnext := units_next p b.toNat
    have hrest := ih (next p b.toNat).2
    rw [run, List.length_cons]
    dsimp only
    rw [List.map_append, List.sum_append]
    omega

theorem units_decode (bs : List UInt8) : ((decode bs).map units).sum ≤ bs.length := by
  have hrun := units_run .start bs
  have hcut : ((cutOff (run .start bs).2).map units).sum = owed (run .start bs).2 := by
    cases (run .start bs).2 <;> rfl
  rw [decode, List.map_append, List.sum_append, hcut]
  rwa [owed, Nat.zero_add] at hrun

theorem units_pieces (pieces : List (List UInt8)) :
    ((pieces.flatMap decode).map units).sum ≤ pieces.flatten.length := by
  induction pieces with
  | nil => rfl
  | cons piece pieces ih =>
    have hpiece := units_decode piece
    rw [List.flatMap_cons, List.map_append, List.sum_append, List.flatten_cons, List.length_append]
    omega

end Units

section Readers

variable {s : Text} {pieces : List (List UInt8)}

theorem ask_iff (h : pieces.flatten = encode s) (hcap : (s.map units).sum ≤ replyCap) :
    ask pieces = (takeLine s).map Prod.fst ↔
      Unbroken (fun before after => '\n' ∉ before ∧ '\n' ∈ after) s pieces := by
  obtain ⟨m, hm⟩ := marked h
  have hask := line_from pieces [] List.not_mem_nil
  rw [List.nil_append, ← ask, hm.text] at hask
  rw [unbroken_iff hm]
  by_cases hmem : '\n' ∈ m.map Prod.fst
  · obtain ⟨a, b, rfl, ha⟩ := first_line (fun x hx => newline_whole hm hx) hmem
    have htwo : ∀ x ∈ a, x.2 ≠ 0 → 2 ≤ x.2 := fun x hx => hm.two x (List.mem_append_left _ hx)
    have hs : takeLine s = some (a.map Prod.fst, b.map Prod.fst) := by
      rw [← hm.chars, List.map_append, List.map_cons]
      exact takeLine_line ha
    have hshown : (a ++ ('\n', 0) :: b).flatMap shown = a.flatMap shown ++ '\n' :: b.flatMap shown := by
      rw [List.flatMap_append, List.flatMap_cons]
      rfl
    rw [hshown, takeLine_line (newline_shown ha)] at hask
    rw [hs]
    constructor
    · intro heq l x r hlr ⟨hbefore, _⟩
      obtain hline | ⟨hnone, -⟩ := hask
      · rw [hline, Option.map_some, Option.map_some, Option.some.injEq] at heq
        have hall := (shown_eq_iff htwo).1 heq
        obtain hx | rfl | ⟨c, rfl, -⟩ := mem_of_split hlr
        · exact hall x hx
        · rfl
        · refine absurd ?_ hbefore
          rw [List.map_append, List.map_cons]
          exact List.mem_append_right _ List.mem_cons_self
      · rw [hnone] at heq
        exact absurd heq (by simp)
    · intro hwhole
      have hall : ∀ x ∈ a, x.2 = 0 := by
        intro x hx
        obtain ⟨l, r, rfl⟩ := List.append_of_mem hx
        refine hwhole l x (r ++ ('\n', 0) :: b) (by simp) ⟨?_, by simp⟩
        intro hl
        refine ha ?_
        rw [List.map_append]
        exact List.mem_append_left _ hl
      rw [shown_flatMap hall] at hask
      obtain hline | ⟨-, p, hp, hnl, hlong⟩ := hask
      · exact hline
      · have hle := units_prefix (prefix_line hp hnl)
        have hfirst : a.map Prod.fst <+: s := by
          rw [← hm.chars, List.map_append]
          exact List.prefix_append _ _
        have := units_prefix hfirst
        omega
  · have hnone : takeLine s = none := by
      rw [← hm.chars]
      exact takeLine_of_not_mem hmem
    rw [takeLine_of_not_mem (newline_shown hmem)] at hask
    rw [hnone]
    constructor
    · rintro - l x r rfl ⟨-, hafter⟩
      refine absurd ?_ hmem
      rw [List.map_append, List.map_cons]
      exact List.mem_append_right _ (List.mem_cons_of_mem _ hafter)
    · rintro -
      obtain hline | ⟨hline, -⟩ := hask
      · exact hline
      · exact hline

theorem bodyData_foldl {limit size : Nat} {data : Text} (h : size + pieces.flatten.length ≤ limit) :
    pieces.foldl (bodyData limit) (some (data, size)) =
      some (data ++ pieces.flatMap decode, size + pieces.flatten.length) := by
  induction pieces generalizing data size with
  | nil => simp
  | cons piece pieces ih =>
    rw [List.flatten_cons, List.length_append] at h ⊢
    rw [List.foldl_cons, bodyData, if_neg (by omega), ih (by omega), List.flatMap_cons, List.append_assoc,
      Nat.add_assoc]

theorem readBody_iff {limit : Nat} (h : pieces.flatten = encode s) (hcap : (encode s).length ≤ limit) :
    readBody limit pieces = some s ↔ Unbroken (fun _ _ => True) s pieces := by
  obtain ⟨m, hm⟩ := marked h
  have hread : readBody limit pieces = some (m.flatMap shown) := by
    rw [readBody, bodyData_foldl (by rw [h, Nat.zero_add]; exact hcap), List.nil_append, hm.text]
    rfl
  rw [hread, Option.some.injEq, unbroken_iff hm]
  conv_lhs => rw [← hm.chars]
  rw [shown_eq_iff hm.two]
  constructor
  · intro hall l x r hlr _
    exact hall x (by rw [hlr]; exact List.mem_append_right _ List.mem_cons_self)
  · intro hwhole x hx
    obtain ⟨l, r, hlr⟩ := List.append_of_mem hx
    exact hwhole l x r hlr trivial

theorem heard_eq (events : List Event) : Conn.heard events = (chunks events).flatMap decode := by
  induction events with
  | nil => rfl
  | cons event events ih =>
    rw [Conn.heard, List.flatMap_cons, ← Conn.heard, ih]
    cases event <;> rfl

theorem serve_iff (numberText : String → String) (syntaxError : Text → Text) {events : List Event}
    (h : (chunks events).flatten = encode s)
    (halive : (Conn.run numberText syntaxError events).destroyed = false)
    (hend : (Conn.run numberText syntaxError events).waiting = []) :
    (Conn.run numberText syntaxError events).read = requests s ↔
      Unbroken (fun _ after => '\n' ∈ after) s (chunks events) := by
  obtain ⟨m, hm⟩ := marked h
  obtain ⟨hsound, hidle, -⟩ := Conn.run_sound numberText syntaxError events halive
  obtain ⟨u, htext, hended, hread⟩ := hsound.taken
  have hall : (Conn.run numberText syntaxError events).read = requests (m.flatMap shown) := by
    rw [← hm.text, ← heard_eq, htext, requests_ended hended, requests_of_not_mem (hidle hend),
      List.append_nil, hread]
  rw [hall, unbroken_iff hm, ← requests_shown_iff hm.two fun x hx => newline_whole hm hx, hm.chars]

theorem alive_of_bytes (numberText : String → String) (syntaxError : Text → Text) {events : List Event}
    (h : (chunks events).flatten.length ≤ bufferCap) :
    (Conn.run numberText syntaxError events).destroyed = false := by
  induction events using List.reverseRecOn with
  | nil => rfl
  | append_singleton events event ih =>
    rw [chunks, List.filterMap_append, List.flatten_append, List.length_append, ← chunks, ← chunks] at h
    have hbefore := ih (by omega)
    obtain ⟨hsound, -, -⟩ := Conn.run_sound numberText syntaxError events hbefore
    rw [Conn.run_concat]
    generalize Conn.run numberText syntaxError events = c at hbefore hsound
    cases event with
    | data chunk =>
      obtain ⟨u, htext, -, -⟩ := hsound.taken
      have hunits : ((c.buf ++ decode chunk).map units).sum ≤ bufferCap := by
        have htotal := units_pieces (chunks events)
        have hchunk := units_decode chunk
        rw [← heard_eq, htext, List.map_append, List.sum_append] at htotal
        have hlast : chunks [.data chunk] = [chunk] := rfl
        rw [hlast, List.flatten_singleton] at h
        rw [List.map_append, List.sum_append]
        omega
      rw [Conn.step, if_neg (by rw [hbefore]; decide)]
      dsimp only
      rw [if_neg (Nat.not_lt_of_le hunits), Conn.activation, Conn.lines_destroyed]
      exact hbefore
    | answer k out =>
      rw [Conn.step]
      split
      · rw [Conn.activation, Conn.lines_destroyed, Conn.reply]
        split <;> exact hbefore
      · exact hbefore

end Readers

/-- Of a stream that stays under its cap, each reader reads what the whole of it decodes to exactly if
no chunk ends inside a character that the reader uses: the gateway those with a line feed after them,
the client those of the first line, and the reader of a body all of them. -/
theorem readers_whole_iff (numberText : String → String) (syntaxError : Text → Text) (limit : Nat)
    (s : Text) (events : List Event) (h : (chunks events).flatten = encode s) :
    ((encode s).length ≤ bufferCap → (Conn.run numberText syntaxError events).destroyed = false) ∧
    ((Conn.run numberText syntaxError events).destroyed = false →
      (Conn.run numberText syntaxError events).waiting = [] →
      ((Conn.run numberText syntaxError events).read = requests s ↔
        Unbroken (fun _ after => '\n' ∈ after) s (chunks events))) ∧
    ((s.map units).sum ≤ replyCap → (ask (chunks events) = (takeLine s).map Prod.fst ↔
      Unbroken (fun before after => '\n' ∉ before ∧ '\n' ∈ after) s (chunks events))) ∧
    ((encode s).length ≤ limit → (readBody limit (chunks events) = some s ↔
      Unbroken (fun _ _ => True) s (chunks events))) := by
  refine ⟨fun hcap => ?_, fun halive hend => ?_, fun hcap => ?_, fun hcap => ?_⟩
  · exact alive_of_bytes numberText syntaxError (h ▸ hcap)
  · exact serve_iff numberText syntaxError h halive hend
  · exact ask_iff h hcap
  · exact readBody_iff h hcap

section Parted

/-- A line of one string, whose letter of two bytes comes in two chunks. -/
def parted : List Event := [.data [34, 195], .data [169, 34, 10], .answer 0 []]

theorem readers_whole_iff_parted :
    ((Conn.run id id parted).read = requests ['"', 'é', '"', '\n'] ↔
      Unbroken (fun _ after => '\n' ∈ after) ['"', 'é', '"', '\n'] (chunks parted)) ∧
    (ask (chunks parted) = some ['"', 'é', '"'] ↔
      Unbroken (fun before after => '\n' ∉ before ∧ '\n' ∈ after) ['"', 'é', '"', '\n'] (chunks parted)) ∧
    (readBody 65536 (chunks parted) = some ['"', 'é', '"', '\n'] ↔
      Unbroken (fun _ _ => True) ['"', 'é', '"', '\n'] (chunks parted)) :=
  have h := readers_whole_iff id id 65536 ['"', 'é', '"', '\n'] parted (by decide +kernel)
  ⟨h.2.1 (h.1 (by decide +kernel)) (by decide +kernel), h.2.2.1 (by decide +kernel), h.2.2.2 (by decide +kernel)⟩

/-- All three readers read another string. -/
theorem readers_parted :
    (chunks parted).flatten = encode ['"', 'é', '"', '\n'] ∧
      (Conn.run id id parted).destroyed = false ∧ (Conn.run id id parted).waiting = [] ∧
      (Conn.run id id parted).read = [['"', '\ufffd', '\ufffd', '"']] ∧
      (Conn.run id id [.data [34, 195, 169, 34, 10], .answer 0 []]).read = [['"', 'é', '"']] ∧
      ask (chunks parted) = some ['"', '\ufffd', '\ufffd', '"'] ∧
      ask [[34, 195, 169, 34, 10]] = some ['"', 'é', '"'] ∧
      readBody 65536 (chunks parted) = some ['"', '\ufffd', '\ufffd', '"', '\n'] ∧
      readBody 65536 [[34, 195, 169, 34, 10]] = some ['"', 'é', '"', '\n'] := by
  decide +kernel

end Parted

end Mise.Net
