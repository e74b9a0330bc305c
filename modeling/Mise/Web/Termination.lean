import Mise.Web.Rounds

set_option autoImplicit true

namespace Mise.Markdown
open Js Relation

section Loop

variable {r : Text → Option Text} {line md : Text} {ls rest read start : List Text}

theorem html_isSome {b : Block} (h : ∀ block, b ≠ .quote block) : (b.html r).isSome = true := by
  cases b with
  | quote block => exact absurd rfl (h block)
  | blank | heading | list | para => rfl

theorem html_quote : ((Block.quote block).html r).isSome = (r (joined block)).isSome :=
  Option.isSome_map

theorem Read.html_isSome (h : Read line rest read) : ((round line rest).1.html r).isSome = true ↔
    (quoted line = true → (r (joined (read.map unquote))).isSome = true) := by
  cases hq : quoted line with
  | true => rw [(h.quote hq).1, html_quote]; simp
  | false => simp [Markdown.html_isSome (h.other hq).1]

theorem Read.mem_quotes (h : Read line rest read) : q ∈ quotes (line :: rest) ↔
    (quoted line = true ∧ q = read) ∨ q ∈ quotes (round line rest).2 := by
  cases hq : quoted line with
  | true => rw [(h.quote hq).2]; simp
  | false => rw [(h.other hq).2]; simp

theorem Read.mem_lines (h : Read line rest read) :
    l ∈ line :: rest ↔ l ∈ read ∨ l ∈ (round line rest).2 := by
  rw [← List.mem_append, ← h.lines]

theorem loop_cons : loop r (n + 1) (line :: rest) html =
    ((round line rest).1.html r).bind fun more => loop r n (round line rest).2 (html ++ more) := rfl

/-- The loop ends where no line breaks a heading off and all that is quoted is rendered. -/
theorem loop_isSome (hlines : ∀ line ∈ ls, breaks line = false)
    (hquotes : ∀ q ∈ quotes ls, (r (joined (q.map unquote))).isSome = true) (hn : ls.length < n) :
    (loop r n ls html).isSome = true := by
  induction n generalizing ls html with
  | zero => exact absurd hn (Nat.not_lt_zero _)
  | succ n ih =>
    cases ls with
    | nil => rfl
    | cons line rest =>
      obtain ⟨read, hread⟩ := round_read line rest
      have hmore : ((round line rest).1.html r).isSome = true := by
        apply hread.html_isSome.2
        intro hq
        exact hquotes read (hread.mem_quotes.2 (.inl ⟨hq, rfl⟩))
      have hshort := hread.shorter (hlines line List.mem_cons_self)
      obtain ⟨more, hmore⟩ := Option.isSome_iff_exists.1 hmore
      rw [loop_cons, hmore, Option.bind_some]
      apply ih
      · intro l hl
        exact hlines l (hread.mem_lines.2 (.inr hl))
      · intro q hq
        exact hquotes q (hread.mem_quotes.2 (.inr hq))
      · omega

theorem of_loop_isSome (h : (loop r n ls html).isSome = true) :
    (∀ line ∈ ls, breaks line = false) ∧
      ∀ q ∈ quotes ls, (r (joined (q.map unquote))).isSome = true := by
  induction n generalizing ls html with
  | zero => exact absurd h (by simp [loop])
  | succ n ih =>
    cases ls with
    | nil => simp [quotes]
    | cons line rest =>
      rw [loop_cons] at h
      obtain ⟨more, hmore⟩ : ∃ more, (round line rest).1.html r = some more := by
        cases hb : (round line rest).1.html r with
        | none => rw [hb] at h; exact absurd h (by simp)
        | some more => exact ⟨more, rfl⟩
      rw [hmore, Option.bind_some] at h
      obtain ⟨hlines, hquotes⟩ := ih h
      obtain ⟨read, hread⟩ := round_read line rest
      constructor
      · intro l hl
        obtain hl | hl := hread.mem_lines.1 hl
        · exact hread.clear l hl
        · exact hlines l hl
      · intro q hq
        obtain ⟨hline, rfl⟩ | hq := hread.mem_quotes.1 hq
        · exact hread.html_isSome.1 (by rw [hmore]; rfl) hline
        · exact hquotes q hq

/-- Fuel for the lines and for every text that is quoted. -/
theorem render_isSome (h : Clear md) : ∀ n, md.length + 3 ≤ n → (render n md).isSome = true := by
  induction h with
  | intro hlines hquotes ih =>
    rename_i md
    intro n hn
    obtain ⟨k, rfl⟩ : ∃ k, n = k + 1 := ⟨n - 1, by omega⟩
    have hlen := (length_le_size (lines md)).trans (size_lines md)
    apply loop_isSome hlines
    · intro q hq
      have hlt := length_quote hq
      exact ih q hq k (by omega)
    · omega

theorem clear_of_render : ∀ n md, (render n md).isSome = true → Clear md := by
  intro n
  induction n with
  | zero => exact fun md h => absurd h (by simp [render])
  | succ n ih =>
    intro md h
    obtain ⟨hlines, hquotes⟩ := of_loop_isSome h
    exact .intro hlines fun q hq => ih _ (hquotes q hq)

theorem returns_iff : Returns md ↔ Clear md := by
  constructor
  · rintro ⟨n, h⟩
    exact clear_of_render n md h
  · intro h
    exact ⟨md.length + 3, render_isSome h _ le_rfl⟩

end Loop

section Progress

variable {line md : Text} {ls rest read start : List Text}

theorem Left.suffix (h : Left start ls) : ls <:+ start ∧ ∀ q ∈ quotes ls, q ∈ quotes start := by
  induction h with
  | start => exact ⟨List.suffix_rfl, fun _ h => h⟩
  | round _ ih =>
    rename_i line rest _
    obtain ⟨read, hread⟩ := round_read line rest
    constructor
    · exact (hread.lines ▸ List.suffix_append read _ : _ <:+ line :: rest).trans ih.1
    · intro q hq
      exact ih.2 q (hread.mem_quotes.2 (.inr hq))

theorem Left.calls (h : Left (lines md) (line :: rest)) (hread : Read line rest read)
    (hq : quoted line = true) : Calls md (joined (read.map unquote)) :=
  ⟨line, rest, read.map unquote, h, (hread.quote hq).1, rfl⟩

theorem Calls.quotes (h : Calls md body) : ∃ q ∈ quotes (lines md), body = joined (q.map unquote) := by
  obtain ⟨line, rest, block, hleft, hblock, rfl⟩ := h
  obtain ⟨read, hread⟩ := round_read line rest
  cases hq : quoted line with
  | true =>
    have hsame : block = read.map unquote := by
      have hboth := hblock.symm.trans (hread.quote hq).1
      exact Block.quote.inj hboth
    exact ⟨read, hleft.suffix.2 read (hread.mem_quotes.2 (.inl ⟨hq, rfl⟩)), by rw [hsame]⟩
  | false => exact absurd hblock ((hread.other hq).1 block)

theorem Clear.calls (h : Clear md) (hcalls : Calls md body) : Clear body := by
  obtain ⟨q, hq, rfl⟩ := hcalls.quotes
  cases h with
  | intro _ hquotes => exact hquotes q hq

theorem Clear.progresses (h : Clear md) : Progresses md := by
  intro md' hcalls line rest hleft
  have hclear : Clear md' := by
    clear hleft
    induction hcalls with
    | refl => exact h
    | tail _ hcall ih => exact ih.calls hcall
  obtain ⟨hlines, -⟩ := hclear
  obtain ⟨read, hread⟩ := round_read line rest
  exact .inl (hread.shorter (hlines line (hleft.suffix.1.subset List.mem_cons_self)))

/-- Where every round makes progress, all the lines and all that is quoted are come to. -/
theorem Left.all (hround : ∀ line rest, Left start (line :: rest) → breaks line = false)
    (h : Left start ls) : (∀ l ∈ ls, breaks l = false) ∧
      ∀ q ∈ quotes ls, ∃ line rest, Left start (line :: rest) ∧ Read line rest q ∧
        quoted line = true := by
  induction hl : ls.length using Nat.strong_induction_on generalizing ls with
  | _ n ih =>
    subst hl
    cases ls with
    | nil => simp [Markdown.quotes]
    | cons line rest =>
      obtain ⟨read, hread⟩ := round_read line rest
      obtain ⟨hlines, hquotes⟩ := ih _ (hread.shorter (hround line rest h)) h.round rfl
      constructor
      · intro l hl
        obtain hl | hl := hread.mem_lines.1 hl
        · exact hread.clear l hl
        · exact hlines l hl
      · intro q hq
        obtain ⟨hline, rfl⟩ | hq := hread.mem_quotes.1 hq
        · exact ⟨line, rest, h, hread, hline⟩
        · exact hquotes q hq

theorem Progresses.breaks (h : Progresses md) (hleft : Left (lines md) (line :: rest)) :
    breaks line = false := by
  by_contra hb
  rw [Bool.not_eq_false] at hb
  have hround := round_breaks (r := rest) hb
  obtain hlt | ⟨block, hblock, -⟩ := h md .refl line rest hleft
  · rw [hround] at hlt
    exact Nat.lt_irrefl _ hlt
  · rw [hround] at hblock
    exact Block.noConfusion hblock

theorem Progresses.clear (h : Progresses md) : Clear md := by
  induction hl : md.length using Nat.strong_induction_on generalizing md with
  | _ n ih =>
    subst hl
    obtain ⟨hlines, hquotes⟩ := Left.all (fun line rest hleft => h.breaks hleft) .start
    refine .intro hlines fun q hq => ?_
    obtain ⟨line, rest, hleft, hread, hline⟩ := hquotes q hq
    apply ih _ (length_quote hq) _ rfl
    intro md' hcalls
    exact h md' (hcalls.head (hleft.calls hread hline))

end Progress

/-- Rendering comes to an end on a text, and makes progress in every round on the way, exactly if
no line of it breaks a heading off. -/
theorem render_ends_iff (md : Text) :
    (Progresses md ↔ Clear md) ∧ (Returns md ↔ Clear md) :=
  ⟨⟨Progresses.clear, Clear.progresses⟩, returns_iff⟩

/-- A carriage return within the words of a heading. -/
theorem render_never_ends : ¬ (Progresses "# a\rb".toList ∧ Returns "# a\rb".toList) := by
  rintro ⟨-, hreturns⟩
  obtain ⟨hlines, -⟩ := returns_iff.1 hreturns
  have hline : "# a\rb".toList ∈ lines "# a\rb".toList := by decide +kernel
  exact absurd (hlines _ hline) (by decide +kernel)

end Mise.Markdown
