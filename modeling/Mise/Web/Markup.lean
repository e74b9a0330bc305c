import Mise.Web.Rounds

set_option autoImplicit true

namespace Mise.Markdown
open Js

/-- The tags that carry nothing of the source. -/
def tags : List Text :=
  ["h1", "h2", "h3", "h4", "h5", "h6", "p", "ul", "li", "blockquote", "code", "strong"].flatMap
    fun t => ['<' :: t.toList ++ ['>'], '<' :: '/' :: t.toList ++ ['>']]

/-- The characters that mean something in markup. -/
def special (c : Char) : Bool := c ∈ ['&', '<', '>', '\x22', '\x27']

/-- The special characters that HTML has a name for. -/
def namedCharacters : List (Text × Char) :=
  [("amp".toList, '&'), ("lt".toList, '<'), ("gt".toList, '>'), ("quot".toList, '\x22')]

/-- A character reference of HTML, by a number or by such a name, as a browser reads it. -/
def reference : Pattern
  | '&' :: '#' :: s =>
    match s.span Char.isDigit with
    | (d :: ds, ';' :: _) =>
      some ([Char.ofNat ((d :: ds).foldl (fun n d => 10 * n + (d.toNat - 48)) 0)], (d :: ds).length + 3)
    | _ => none
  | '&' :: s =>
    (namedCharacters.find? fun e => e.1 ++ [';'] <+: s).map fun e => ([e.2], e.1.length + 2)
  | _ => none

inductive Piece where
  | char (c : Char)
  | tag (t : Text)

namespace Piece

def text : Piece → Text
  | char c => escapeChar c
  | tag t => t

/-- The piece with its entity decoded. -/
def raw : Piece → Text
  | char c => [c]
  | tag t => t

/-- A tag of the renderer's, or a character of the source (or one between two of its lines), as a
reference that HTML reads as that character if it is special and as itself if not. -/
def Ok (md : Text) : Piece → Prop
  | char c => (c ∈ md ∨ c = ' ' ∨ c = '\n') ∧
      if special c then reference (escapeChar c) = some ([c], (escapeChar c).length)
      else escapeChar c = [c]
  | tag t => t ∈ tags

end Piece

def flat (ps : List Piece) : Text := ps.flatMap Piece.text

def decodeEntities (s : Text) : Text := replaceAll reference s

/-- An address with the scheme of a page of the web, or with none and without a host. -/
def Harmless (v : Text) : Prop :=
  match scheme v with
  | some name => name.map Char.toLower ∈ ["http".toList, "https".toList]
  | none => ¬ ['/', '/'] <+: v

inductive Part where
  | piece (p : Piece)
  | opening (url : List Piece)
  | closing

namespace Part

def text : Part → Text
  | piece p => p.text
  | opening url => "<a href=\x22".toList ++ flat url ++
      "\x22 target=\x22_blank\x22 rel=\x22noopener\x22>".toList
  | closing => "</a>".toList

/-- The address of a link is made of such pieces, closes no quotation, and is harmless as a browser
reads it. -/
def Ok (md : Text) : Part → Prop
  | piece p => p.Ok md
  | opening url => (∀ p ∈ url, p.Ok md) ∧ '\x22' ∉ flat url ∧
      Harmless (cleaned (decodeEntities (flat url)))
  | closing => True

end Part

section Pieces

variable {md : Text} {p : Piece} {ps : List Piece}

theorem escapeChar_of_not_special (h : special c = false) : escapeChar c = [c] := by
  have hnone : entities.lookup c = none := by
    rw [List.lookup_eq_none_iff]
    intro e he
    simp only [special, decide_eq_false_iff_not] at h
    rw [bne_iff_ne]
    rintro rfl
    apply h
    revert e
    decide
  rw [escapeChar, hnone]
  rfl

theorem special_iff : special c = true ↔ c = '&' ∨ c = '<' ∨ c = '>' ∨ c = '\x22' ∨ c = '\x27' := by
  simp [special]

theorem all_of {p : Char → Prop} [DecidablePred p] {l : List Char}
    (h : l.all (fun c => decide (p c)) = true) : ∀ c ∈ l, p c := by
  intro c hc
  exact of_decide_eq_true (List.all_eq_true.1 h c hc)

theorem reference_escapeChar (h : special c = true) (s : Text) :
    reference (escapeChar c ++ s) = some ([c], (escapeChar c).length) := by
  obtain rfl | rfl | rfl | rfl | rfl := special_iff.1 h <;> rfl

theorem escaped (c : Char) :
    if special c then reference (escapeChar c) = some ([c], (escapeChar c).length)
      else escapeChar c = [c] := by
  split
  · next h =>
    have href := reference_escapeChar h []
    rwa [List.append_nil] at href
  · next h => exact escapeChar_of_not_special (by simpa using h)

theorem ok_char (h : c ∈ md ∨ c = ' ' ∨ c = '\n') : (Piece.char c).Ok md := ⟨h, escaped c⟩

/-- The characters that the patterns of `inline` begin or end with. -/
def delimiters : List Char := ['\x60', '*', '[', ']', '(', ')']

theorem tag_chars : ∀ t ∈ tags, t.head? = some '<' ∧
    ∀ c ∈ t, c ∉ delimiters ∧ c ∉ ['&', '\x22', '\x27'] ∧ 0x20 < c.toNat := by
  have h : ∀ t ∈ tags, t.head? = some '<' ∧ t.all (fun c =>
      decide (c ∉ delimiters ∧ c ∉ ['&', '\x22', '\x27'] ∧ 0x20 < c.toNat)) = true := by
    decide +kernel
  intro t ht
  exact ⟨(h t ht).1, all_of (h t ht).2⟩

theorem entity_chars (h : special c = true) : (escapeChar c).head? = some '&' ∧
    ∀ d ∈ escapeChar c, d ∉ delimiters ∧ d ∉ ['\x22', '\x27'] ∧ 0x20 < d.toNat := by
  obtain rfl | rfl | rfl | rfl | rfl := special_iff.1 h <;>
    exact ⟨by decide, all_of (by decide)⟩

theorem Piece.Ok.delimiter (h : p.Ok md) (hd : d ∈ delimiters) (hp : d ∈ p.text) :
    p = .char d ∧ p.text = [d] := by
  cases p with
  | char c =>
    cases hc : special c with
    | true => exact absurd hd ((entity_chars hc).2 d hp).1
    | false =>
      have htext := escapeChar_of_not_special hc
      rw [Piece.text, htext, List.mem_singleton] at hp
      subst hp
      exact ⟨rfl, htext⟩
  | tag t => exact absurd hd ((tag_chars t h).2 d hp).1

theorem Piece.Ok.no_quote (h : p.Ok md) : '\x22' ∉ p.text := by
  intro hq
  cases p with
  | char c =>
    cases hc : special c with
    | true => exact ((entity_chars hc).2 _ hq).2.1 (by decide)
    | false =>
      rw [Piece.text, escapeChar_of_not_special hc, List.mem_singleton] at hq
      subst hq
      exact absurd hc (by decide)
  | tag t => exact ((tag_chars t h).2 _ hq).2.1 (by decide)

theorem flat_cons : flat (p :: ps) = p.text ++ flat ps := List.flatMap_cons

theorem flat_append : flat (ps ++ qs) = flat ps ++ flat qs := List.flatMap_append

theorem flat_split (hps : ∀ p ∈ ps, p.Ok md) (hd : d ∈ delimiters) (h : flat ps = a ++ d :: b) :
    ∃ pa pb, ps = pa ++ .char d :: pb ∧ flat pa = a ∧ flat pb = b := by
  induction ps generalizing a with
  | nil => exact absurd h (by simp [flat])
  | cons p ps ih =>
    have hrest := fun a' => ih (a := a') fun q hq => hps q (List.mem_cons_of_mem _ hq)
    rw [flat_cons, List.append_eq_append_iff] at h
    obtain ⟨a', rfl, hb⟩ | ⟨c, hp, hb⟩ := h
    · obtain ⟨pa, pb, rfl, rfl, hpb⟩ := hrest a' hb
      exact ⟨p :: pa, pb, rfl, flat_cons, hpb⟩
    · cases c with
      | nil =>
        obtain ⟨pa, pb, rfl, hpa, hpb⟩ := hrest [] hb.symm
        refine ⟨p :: pa, pb, rfl, ?_, hpb⟩
        rw [flat_cons, hpa, hp, List.append_nil, List.append_nil]
      | cons d' c =>
        obtain ⟨rfl, hb⟩ := List.cons.inj hb
        have hmem : d ∈ p.text := by
          rw [hp]
          exact List.mem_append_right _ List.mem_cons_self
        obtain ⟨rfl, htext⟩ := (hps p List.mem_cons_self).delimiter hd hmem
        rw [htext] at hp
        have hlen := congrArg List.length hp
        simp only [List.length_append, List.length_cons, List.length_nil] at hlen
        obtain rfl : a = [] := List.length_eq_zero_iff.1 (by omega)
        obtain rfl : c = [] := List.length_eq_zero_iff.1 (by omega)
        exact ⟨[], ps, rfl, rfl, (List.cons.inj hb).2.symm⟩

end Pieces

section Passes

variable {md : Text} {m : Pattern} {d : Char} {R : Text → Prop}

/-- What a pass that begins its matches at a delimiter gives, if what stands for each match is right
and the matches are of whole pieces. -/
theorem replaceAll_pieces (hd : d ∈ delimiters) (hm : ∀ c s, c ≠ d → m (c :: s) = none)
    (hnil : R []) (happend : ∀ {a b}, R a → R b → R (a ++ b))
    (hpiece : ∀ p : Piece, p.Ok md → R p.text)
    (hmatch : ∀ ps, (∀ p ∈ ps, p.Ok md) → ∀ new n, m (flat ps) = some (new, n) →
      ∃ ps₁ ps₂, ps = ps₁ ++ ps₂ ∧ (flat ps₁).length = n ∧ 0 < n ∧ R new) :
    ∀ ps, (∀ p ∈ ps, p.Ok md) → R (replaceAll m (flat ps)) := by
  intro ps
  induction hl : ps.length using Nat.strong_induction_on generalizing ps with
  | _ l ih =>
    subst hl
    intro hps
    cases ps with
    | nil => exact hnil
    | cons p ps =>
      have hp := hps p List.mem_cons_self
      have hrest := ih ps.length (Nat.lt_succ_self _) ps rfl fun q hq => hps q (List.mem_cons_of_mem _ hq)
      by_cases hmem : d ∈ p.text
      · obtain ⟨-, htext⟩ := hp.delimiter hd hmem
        have hflat : flat (p :: ps) = d :: flat ps := by rw [flat_cons, htext]; rfl
        cases hr : m (d :: flat ps) with
        | none =>
          rw [hflat, replaceAll_cons hr]
          exact happend (htext ▸ hpiece p hp) hrest
        | some r =>
          obtain ⟨new, n⟩ := r
          obtain ⟨ps₁, ps₂, hsplit, rfl, hpos, hnew⟩ := hmatch (p :: ps) hps new n (by rw [hflat, hr])
          have hdrop : (d :: flat ps).drop (flat ps₁).length = flat ps₂ := by
            rw [← hflat, hsplit, flat_append, List.drop_left]
          have hlen := congrArg List.length hsplit
          have hne : ps₁ ≠ [] := by
            rintro rfl
            exact Nat.lt_irrefl _ hpos
          rw [List.length_append] at hlen
          have hpos₁ := List.length_pos_of_ne_nil hne
          rw [hflat, replaceAll_match hr hpos, hdrop]
          apply happend hnew
          apply ih ps₂.length (by omega) ps₂ rfl
          intro q hq
          exact hps q (hsplit ▸ List.mem_append_right _ hq)
      · rw [flat_cons, replaceAll_append]
        · exact happend (hpiece p hp) hrest
        · intro c hc s
          apply hm
          rintro rfl
          exact hmem hc

end Passes

end Mise.Markdown
