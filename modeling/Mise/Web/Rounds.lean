import Mathlib.Algebra.GroupWithZero.Nat
import Mathlib.Data.List.TakeWhile
import Mathlib.Logic.Relation
import Mise.Web.Markdown

set_option autoImplicit true

namespace Mise.Markdown
open Js Relation

/-- The line stops a paragraph as a heading does, and is none: what follows the white space after
the number signs has a line terminator in it. -/
def breaks (line : Text) : Bool :=
  headed line && ((title line).dropWhile isSpace).any terminator

/-- The longest runs of quoted lines. -/
def quotes : List Text → List (List Text)
  | [] => []
  | line :: rest =>
    if quoted line then (line :: rest).takeWhile quoted :: quotes (rest.dropWhile quoted)
    else quotes rest
  termination_by ls => ls.length
  decreasing_by
    · exact Nat.lt_succ_of_le (List.dropWhile_sublist _).length_le
    · exact Nat.lt_succ_self _

/-- No line breaks a heading off, in the text or in what it quotes. -/
inductive Clear : Text → Prop
  | intro (hlines : ∀ line ∈ lines md, breaks line = false)
      (hquotes : ∀ q ∈ quotes (lines md), Clear (joined (q.map unquote))) : Clear md

/-- The lines that are left when a round of the loop begins. -/
inductive Left (start : List Text) : List Text → Prop
  | start : Left start start
  | round (h : Left start (line :: rest)) : Left start (round line rest).2

/-- A round over the lines of the first text renders the second as what it quotes. -/
def Calls (md body : Text) : Prop :=
  ∃ line rest block, Left (lines md) (line :: rest) ∧ (round line rest).1 = .quote block ∧
    body = joined block

/-- Every round that rendering the text comes to has fewer lines left after it, or renders a quoted
text that is shorter than the one it reads. -/
def Progresses (md : Text) : Prop :=
  ∀ md', ReflTransGen Calls md md' → ∀ line rest, Left (lines md') (line :: rest) →
    (round line rest).2.length < (line :: rest).length ∨
      ∃ block, (round line rest).1 = .quote block ∧ (joined block).length < md'.length

def Returns (md : Text) : Prop := ∃ n, (render n md).isSome

section Headed

variable {line : Text}

theorem headed_cons (h : headed line = true) : ∃ s, line = '#' :: s := by
  cases line with
  | nil => exact absurd h (by decide)
  | cons c s =>
    by_cases hc : c = '#'
    · exact ⟨s, by rw [hc]⟩
    · have hn : hashes (c :: s) = 0 := by
        rw [hashes, List.takeWhile_cons_of_neg (by simpa using hc)]
        rfl
      rw [headed, hn] at h
      exact absurd h (by simp)

theorem not_blank_of_headed (h : headed line = true) : blank line = false := by
  obtain ⟨s, rfl⟩ := headed_cons h
  rfl

theorem not_quoted_of_headed (h : headed line = true) : quoted line = false := by
  obtain ⟨s, rfl⟩ := headed_cons h
  rfl

theorem not_item_of_headed (h : headed line = true) : item line = false := by
  obtain ⟨s, rfl⟩ := headed_cons h
  cases s with
  | nil => rfl
  | cons c s => rfl

theorem not_breaks (h : headed line = false) : breaks line = false := by
  rw [breaks, h, Bool.false_and]

theorem headed_of_breaks (h : breaks line = true) : headed line = true :=
  (Bool.and_eq_true_iff.1 h).1

theorem heading_eq_none : heading line = none ↔ headed line = false ∨ breaks line = true := by
  rw [heading, breaks, headed]
  cases (1 ≤ hashes line && hashes line ≤ 6 && (title line).head?.any isSpace : Bool) <;>
    cases ((title line).dropWhile isSpace).any terminator <;> simp

theorem not_blank_of_quoted (h : quoted line = true) : blank line = false := by
  by_contra hb
  rw [Bool.not_eq_false] at hb
  have hnil : line.dropWhile isSpace = [] := List.dropWhile_eq_nil_iff.2 (List.all_eq_true.1 hb)
  rw [quoted, hnil] at h
  exact absurd h (by decide)

theorem not_quoted_of_blank (h : blank line = true) : quoted line = false := by
  by_contra hq
  rw [Bool.not_eq_false] at hq
  rw [not_blank_of_quoted hq] at h
  exact absurd h (by decide)

theorem not_headed_of_quoted (h : quoted line = true) : headed line = false := by
  by_contra hh
  rw [Bool.not_eq_false] at hh
  rw [not_quoted_of_headed hh] at h
  exact absurd h (by decide)

theorem not_headed_of_item (h : item line = true) : headed line = false := by
  by_contra hh
  rw [Bool.not_eq_false] at hh
  rw [not_item_of_headed hh] at h
  exact absurd h (by decide)

theorem not_quoted_of_item (h : item line = true) : quoted line = false := by
  rw [item] at h
  rw [quoted]
  split at h
  · next b c s hs =>
    obtain rfl | rfl : b = '-' ∨ b = '*' := by simpa using (Bool.and_eq_true_iff.1 h).1
    · rw [hs]; rfl
    · rw [hs]; rfl
  · exact absurd h (by decide)

theorem plain_iff : plain line = true ↔
    blank line = false ∧ headed line = false ∧ quoted line = false ∧ item line = false := by
  simp [plain, and_assoc]

end Headed

section Quotes

variable {q ls a b : List Text}

theorem quotes_cons_quoted (h : quoted line = true) :
    quotes (line :: rest) = (line :: rest).takeWhile quoted :: quotes ((line :: rest).dropWhile quoted) := by
  rw [quotes, if_pos h, List.dropWhile_cons_of_pos h]

theorem quotes_append (h : ∀ line ∈ a, quoted line = false) : quotes (a ++ b) = quotes b := by
  induction a with
  | nil => rfl
  | cons line a ih =>
    have hline : ¬ quoted line = true := by rw [h line List.mem_cons_self]; decide
    rw [List.cons_append, quotes, if_neg hline, ih fun l hl => h l (List.mem_cons_of_mem _ hl)]

theorem quotes_spec (h : q ∈ quotes ls) : q <:+: ls ∧ q ≠ [] ∧ ∀ line ∈ q, quoted line = true := by
  induction hl : ls.length using Nat.strong_induction_on generalizing ls with
  | _ n ih =>
    subst hl
    cases ls with
    | nil => rw [quotes] at h; exact absurd h List.not_mem_nil
    | cons line rest =>
      by_cases hline : quoted line = true
      · rw [quotes_cons_quoted hline, List.mem_cons] at h
        obtain rfl | h := h
        · refine ⟨(List.takeWhile_prefix _).isInfix, ?_, fun l hl => List.mem_takeWhile_imp hl⟩
          rw [List.takeWhile_cons_of_pos hline]
          exact List.cons_ne_nil _ _
        · have hlt : ((line :: rest).dropWhile quoted).length < (line :: rest).length := by
            rw [List.dropWhile_cons_of_pos hline]
            exact Nat.lt_succ_of_le (List.dropWhile_sublist _).length_le
          obtain ⟨hin, hrest⟩ := ih _ hlt h rfl
          exact ⟨hin.trans (List.dropWhile_suffix _).isInfix, hrest⟩
      · rw [quotes, if_neg hline] at h
        obtain ⟨hin, hrest⟩ := ih _ (Nat.lt_succ_self _) h rfl
        exact ⟨hin.trans (List.suffix_cons _ _).isInfix, hrest⟩

end Quotes

section Round

variable {line : Text} {rest read : List Text}

/-- What a round read, with the runs of quoted lines before and after it. -/
structure Read (line : Text) (rest read : List Text) : Prop where
  lines : line :: rest = read ++ (round line rest).2
  clear : ∀ l ∈ read, breaks l = false
  some : breaks line = false → read ≠ []
  quote : quoted line = true → (round line rest).1 = .quote (read.map unquote) ∧
    quotes (line :: rest) = read :: quotes (round line rest).2
  other : quoted line = false → (∀ block, (round line rest).1 ≠ .quote block) ∧
    quotes (line :: rest) = quotes (round line rest).2

theorem not_true_of_false {p : Prop} {b : Bool} (h : b = false) (h' : b = true) : p := by
  rw [h] at h'
  exact absurd h' (by decide)

theorem Read.unquoted (hlines : line :: rest = read ++ (round line rest).2)
    (hclear : ∀ l ∈ read, breaks l = false) (hsome : breaks line = false → read ≠ [])
    (hline : quoted line = false) (hread : ∀ l ∈ read, quoted l = false)
    (hblock : ∀ block, (round line rest).1 ≠ .quote block) : Read line rest read where
  lines := hlines
  clear := hclear
  some := hsome
  quote := fun hq => not_true_of_false hline hq
  other := fun _ => ⟨hblock, by rw [hlines, quotes_append hread]⟩

theorem round_read (line : Text) (rest : List Text) : ∃ read, Read line rest read := by
  by_cases hb : blank line = true
  · have hround : round line rest = (.blank, rest) := by rw [round, if_pos hb]
    have hq := not_quoted_of_blank hb
    have hh : headed line = false := by
      by_contra hh
      exact not_true_of_false (not_blank_of_headed (by simpa using hh)) hb
    refine ⟨[line], .unquoted (by rw [hround]; rfl) ?_ (fun _ => List.cons_ne_nil _ _) hq ?_ ?_⟩
    · exact List.forall_mem_singleton.2 (not_breaks hh)
    · exact List.forall_mem_singleton.2 hq
    · intro block
      rw [hround]
      exact Block.noConfusion
  cases hh : heading line with
  | some h =>
    have hround : round line rest = (.heading h.1 h.2, rest) := by rw [round, if_neg hb, hh]
    have hnot := mt heading_eq_none.2 (by rw [hh]; exact Option.some_ne_none _)
    rw [not_or, Bool.not_eq_false, Bool.not_eq_true] at hnot
    have hq := not_quoted_of_headed hnot.1
    refine ⟨[line], .unquoted (by rw [hround]; rfl) ?_ (fun _ => List.cons_ne_nil _ _) hq ?_ ?_⟩
    · exact List.forall_mem_singleton.2 hnot.2
    · exact List.forall_mem_singleton.2 hq
    · intro block
      rw [hround]
      exact Block.noConfusion
  | none =>
    by_cases hq : quoted line = true
    · have hround : round line rest = (.quote (((line :: rest).takeWhile quoted).map unquote),
          (line :: rest).dropWhile quoted) := by rw [round, if_neg hb, hh]; exact if_pos hq
      refine ⟨(line :: rest).takeWhile quoted, ?_, ?_, ?_, ?_, fun h => not_true_of_false h hq⟩
      · rw [hround, List.takeWhile_append_dropWhile]
      · intro l hl
        exact not_breaks (not_headed_of_quoted (List.mem_takeWhile_imp hl))
      · intro _
        rw [List.takeWhile_cons_of_pos hq]
        exact List.cons_ne_nil _ _
      · intro _
        rw [hround]
        exact ⟨rfl, quotes_cons_quoted hq⟩
    have hq' : quoted line = false := by simpa using hq
    by_cases hi : item line = true
    · have hround : round line rest = (.list (((line :: rest).takeWhile item).map unitem),
          (line :: rest).dropWhile item) := by
        rw [round, if_neg hb, hh]; exact (if_neg hq).trans (if_pos hi)
      refine ⟨(line :: rest).takeWhile item, .unquoted ?_ ?_ ?_ hq' ?_ ?_⟩
      · rw [hround, List.takeWhile_append_dropWhile]
      · intro l hl
        exact not_breaks (not_headed_of_item (List.mem_takeWhile_imp hl))
      · intro _
        rw [List.takeWhile_cons_of_pos hi]
        exact List.cons_ne_nil _ _
      · intro l hl
        exact not_quoted_of_item (List.mem_takeWhile_imp hl)
      · intro block
        rw [hround]
        exact Block.noConfusion
    · have hround : round line rest = (.para (((line :: rest).takeWhile plain).map trimmed),
          (line :: rest).dropWhile plain) := by
        rw [round, if_neg hb, hh]; exact (if_neg hq).trans (if_neg hi)
      have hplain : ∀ l ∈ (line :: rest).takeWhile plain,
          blank l = false ∧ headed l = false ∧ quoted l = false ∧ item l = false :=
        fun l hl => plain_iff.1 (List.mem_takeWhile_imp hl)
      refine ⟨(line :: rest).takeWhile plain, .unquoted ?_ ?_ ?_ hq' ?_ ?_⟩
      · rw [hround, List.takeWhile_append_dropWhile]
      · intro l hl
        exact not_breaks (hplain l hl).2.1
      · intro hbreaks
        -- A line that is no heading and breaks none off is plain.
        have hhead : headed line = false := by
          obtain hhead | hbreak := heading_eq_none.1 hh
          · exact hhead
          · exact not_true_of_false hbreaks hbreak
        have hline : plain line = true :=
          plain_iff.2 ⟨by simpa using hb, hhead, hq', by simpa using hi⟩
        rw [List.takeWhile_cons_of_pos hline]
        exact List.cons_ne_nil _ _
      · intro l hl
        exact (hplain l hl).2.2.1
      · intro block
        rw [hround]
        exact Block.noConfusion

/-- The round leaves everything as it was. -/
theorem round_breaks (h : breaks line = true) : round line r = (.para [], line :: r) := by
  have hh := headed_of_breaks h
  have hblank : ¬ blank line = true := by rw [not_blank_of_headed hh]; decide
  have hquoted : ¬ quoted line = true := by rw [not_quoted_of_headed hh]; decide
  have hitem : ¬ item line = true := by rw [not_item_of_headed hh]; decide
  have hplain : ¬ plain line = true := by rw [plain_iff, hh]; simp
  rw [round, if_neg hblank, heading_eq_none.2 (.inr h)]
  refine (if_neg hquoted).trans ((if_neg hitem).trans ?_)
  rw [List.takeWhile_cons_of_neg hplain, List.dropWhile_cons_of_neg hplain]
  rfl

theorem Read.shorter (h : Read line rest read) (hline : breaks line = false) :
    (round line rest).2.length < (line :: rest).length := by
  have hpos := List.length_pos_of_ne_nil (h.some hline)
  have hlen := congrArg List.length h.lines
  rw [List.length_append] at hlen
  omega

end Round

section Sizes

/-- The length of the lines with a line feed after each. -/
def size (ls : List Text) : Nat := (ls.map fun line => line.length + 1).sum

theorem length_joined (h : l ≠ []) : (joined l).length + 1 = size l := by
  induction l with
  | nil => exact absurd rfl h
  | cons line l ih =>
    cases l with
    | nil => simp [joined, size]
    | cons next l =>
      have hl := ih (List.cons_ne_nil _ _)
      rw [joined, List.intercalate_cons_cons, ← joined, List.length_append, List.length_append]
      rw [size, List.map_cons, List.sum_cons, ← size, ← hl, List.length_singleton]
      omega

theorem size_le_of_infix (h : a <:+: b) : size a ≤ size b := by
  obtain ⟨pre, post, rfl⟩ := h
  simp only [size, List.map_append, List.sum_append]
  omega

theorem length_unquote (h : quoted line = true) : (unquote line).length < line.length := by
  have hle := (List.dropWhile_sublist isSpace (l := line)).length_le
  rw [quoted, decide_eq_true_eq] at h
  rw [unquote]
  split
  · next c s hs =>
    rw [hs] at hle
    simp only [List.length_cons] at hle
    split
    · omega
    · rw [List.length_cons]; omega
  · next hs => rw [hs] at hle; exact hle
  · next hne hne' =>
    cases hs : line.dropWhile isSpace with
    | nil => rw [hs] at h; exact absurd h (by decide)
    | cons c s =>
      rw [hs, List.head?_cons, Option.some.injEq] at h
      subst h
      cases s with
      | nil => exact absurd hs hne'
      | cons c' s => exact absurd hs (hne c' s)

theorem size_unquote (h : ∀ line ∈ q, quoted line = true) (hq : q ≠ []) :
    size (q.map unquote) < size q := by
  induction q with
  | nil => exact absurd rfl hq
  | cons line q ih =>
    have hline := length_unquote (h line List.mem_cons_self)
    have hrest : size (q.map unquote) ≤ size q := by
      cases q with
      | nil => exact le_rfl
      | cons l q => exact (ih (fun l' hl' => h l' (List.mem_cons_of_mem _ hl')) (List.cons_ne_nil _ _)).le
    simp only [size, List.map_cons, List.sum_cons] at hrest ⊢
    omega

theorem crlf_match (h : crlf s = some (new, n)) : new.length ≤ n ∧ 0 < n ∧ n ≤ s.length := by
  unfold crlf at h
  split at h
  · cases h
    simp
  · exact absurd h (by simp)

theorem size_lines (md : Text) : size (lines md) ≤ md.length + 1 := by
  have hne : lines md ≠ [] := List.splitOn_ne_nil _ _
  have hjoin : joined (lines md) = replaceAll crlf md := List.intercalate_splitOn _
  have hle := length_replaceAll_le (m := crlf) (fun s new n h => ⟨(crlf_match h).2.1, (crlf_match h).1⟩)
    (fun s new n h => (crlf_match h).2.2) md
  rw [← length_joined hne, hjoin]
  omega

theorem length_le_size (ls : List Text) : ls.length ≤ size ls := by
  induction ls with
  | nil => exact le_rfl
  | cons line ls ih =>
    simp only [size, List.map_cons, List.sum_cons, List.length_cons] at ih ⊢
    omega

theorem length_quote (h : q ∈ quotes (lines md)) : (joined (q.map unquote)).length < md.length := by
  obtain ⟨hin, hne, hquoted⟩ := quotes_spec h
  have hjoined := length_joined (l := q.map unquote) (by simpa using hne)
  have hlt := size_unquote hquoted hne
  have hle := size_le_of_infix hin
  have hmd := size_lines md
  omega

end Sizes

end Mise.Markdown
