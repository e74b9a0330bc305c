import Mathlib.Tactic.IntervalCases
import Mathlib.Tactic.Tauto
import Mise.Web.Termination
import Mise.Web.Markup

set_option autoImplicit true

namespace Mise.Markdown
open Js

/-- The text is made of tags and escaped characters of the source. -/
def Marked (md s : Text) : Prop := ∃ ps : List Piece, (∀ p ∈ ps, p.Ok md) ∧ flat ps = s

/-- The same with links. -/
def Linked (md s : Text) : Prop := ∃ parts : List Part, (∀ x ∈ parts, x.Ok md) ∧ parts.flatMap Part.text = s

section Closure

variable {md a b : Text}

theorem Marked.nil : Marked md [] := ⟨[], fun _ h => absurd h List.not_mem_nil, rfl⟩

theorem Marked.append (ha : Marked md a) (hb : Marked md b) : Marked md (a ++ b) := by
  obtain ⟨pa, hpa, rfl⟩ := ha
  obtain ⟨pb, hpb, rfl⟩ := hb
  exact ⟨pa ++ pb, List.forall_mem_append.2 ⟨hpa, hpb⟩, flat_append⟩

theorem Marked.piece {p : Piece} (h : p.Ok md) : Marked md p.text :=
  ⟨[p], List.forall_mem_singleton.2 h, List.append_nil _⟩

theorem Marked.tag (h : t ∈ tags) : Marked md t := Marked.piece (p := .tag t) h

theorem Marked.escapeHtml (h : ∀ c ∈ a, c ∈ md ∨ c = ' ' ∨ c = '\n') : Marked md (escapeHtml a) := by
  induction a with
  | nil => exact .nil
  | cons c a ih =>
    rw [Markdown.escapeHtml, List.flatMap_cons]
    have hc : Marked md (escapeChar c) := Marked.piece (ok_char (h c List.mem_cons_self))
    exact hc.append (ih fun c' hc' => h c' (List.mem_cons_of_mem _ hc'))

theorem Linked.nil : Linked md [] := ⟨[], fun _ h => absurd h List.not_mem_nil, rfl⟩

theorem Linked.append (ha : Linked md a) (hb : Linked md b) : Linked md (a ++ b) := by
  obtain ⟨pa, hpa, rfl⟩ := ha
  obtain ⟨pb, hpb, rfl⟩ := hb
  exact ⟨pa ++ pb, List.forall_mem_append.2 ⟨hpa, hpb⟩, List.flatMap_append⟩

theorem Linked.part {x : Part} (h : x.Ok md) : Linked md x.text :=
  ⟨[x], List.forall_mem_singleton.2 h, List.append_nil _⟩

theorem Marked.linked (h : Marked md a) : Linked md a := by
  obtain ⟨ps, hps, rfl⟩ := h
  induction ps with
  | nil => exact .nil
  | cons p ps ih =>
    have hp : Linked md p.text := Linked.part (x := .piece p) (hps p List.mem_cons_self)
    rw [flat_cons]
    exact hp.append (ih fun q hq => hps q (List.mem_cons_of_mem _ hq))

theorem Linked.tag (h : t ∈ tags) : Linked md t := (Marked.tag h).linked

theorem Linked.flatMap {f : β → Text} {l : List β} (h : ∀ x ∈ l, Linked md (f x)) :
    Linked md (l.flatMap f) := by
  induction l with
  | nil => exact .nil
  | cons x l ih =>
    rw [List.flatMap_cons]
    exact (h x List.mem_cons_self).append (ih fun y hy => h y (List.mem_cons_of_mem _ hy))

theorem Piece.Ok.mono {p : Piece} (h : p.Ok a) (hsub : ∀ c ∈ a, c ∈ md ∨ c = ' ' ∨ c = '\n') :
    p.Ok md := by
  cases p with
  | char c =>
    obtain ⟨hc | hc, hescaped⟩ := h
    · exact ⟨hsub c hc, hescaped⟩
    · exact ⟨.inr hc, hescaped⟩
  | tag t => exact h

theorem Linked.mono (h : Linked a s) (hsub : ∀ c ∈ a, c ∈ md ∨ c = ' ' ∨ c = '\n') :
    Linked md s := by
  obtain ⟨parts, hparts, rfl⟩ := h
  refine ⟨parts, fun x hx => ?_, rfl⟩
  have hok := hparts x hx
  cases x with
  | piece p => exact Piece.Ok.mono hok hsub
  | opening url => exact ⟨fun p hp => (hok.1 p hp).mono hsub, hok.2⟩
  | closing => trivial

end Closure

section Urls

variable {md : Text} {ps : List Piece}

theorem decode_flat (hps : ∀ p ∈ ps, p.Ok md) :
    decodeEntities (flat ps) = ps.flatMap Piece.raw := by
  induction ps with
  | nil => rfl
  | cons p ps ih =>
    have hrest := ih fun q hq => hps q (List.mem_cons_of_mem _ hq)
    have hstart : ∀ c ≠ '&', ∀ s, reference (c :: s) = none := by
      intro c hc s
      rw [reference]
      · exact fun s h => absurd (List.cons.inj h).1 hc
      · exact fun s h => absurd (List.cons.inj h).1 hc
    rw [flat_cons, List.flatMap_cons, ← hrest, decodeEntities]
    cases p with
    | char c =>
      cases hc : special c with
      | true =>
        have hne : escapeChar c ≠ [] := by
          obtain rfl | rfl | rfl | rfl | rfl := special_iff.1 hc <;> decide
        exact replaceAll_append_match (reference_escapeChar hc (flat ps)) hne
      | false =>
        have hamp : c ≠ '&' := by
          rintro rfl
          exact absurd hc (by decide)
        rw [Piece.text, escapeChar_of_not_special hc]
        exact replaceAll_append (List.forall_mem_singleton.2 fun s => hstart c hamp s)
    | tag t =>
      apply replaceAll_append
      intro c hc s
      apply hstart
      rintro rfl
      exact ((tag_chars t (hps _ List.mem_cons_self)).2 _ hc).2.1 (by decide)

/-- The piece is no character that a browser drops. -/
def Piece.kept : Piece → Bool
  | char c => 0x20 < c.toNat
  | tag _ => true

theorem filter_const {l : List α} {p : α → Bool} (h : ∀ x ∈ l, p x = b) :
    l.filter p = if b then l else [] := by
  cases b with
  | true => exact List.filter_eq_self.2 h
  | false => exact List.filter_eq_nil_iff.2 fun x hx => by rw [h x hx]; decide

theorem cleaned_text {p : Piece} (h : p.Ok md) : cleaned p.text = if p.kept then p.text else [] := by
  apply filter_const
  intro d hd
  cases p with
  | char c =>
    cases hc : special c with
    | true =>
      have hkept : (Piece.char c).kept = true := by
        obtain rfl | rfl | rfl | rfl | rfl := special_iff.1 hc <;> decide
      rw [hkept]
      exact decide_eq_true ((entity_chars hc).2 d hd).2.2
    | false =>
      rw [Piece.text, escapeChar_of_not_special hc, List.mem_singleton] at hd
      rw [hd]
      rfl
  | tag t => exact decide_eq_true ((tag_chars t h).2 d hd).2.2

theorem cleaned_raw {p : Piece} (h : p.Ok md) : cleaned p.raw = if p.kept then p.raw else [] := by
  apply filter_const
  intro d hd
  cases p with
  | char c =>
    rw [Piece.raw, List.mem_singleton] at hd
    rw [hd]
    rfl
  | tag t => exact decide_eq_true ((tag_chars t h).2 d hd).2.2

theorem cleaned_flatMap {f : Piece → Text} (h : ∀ p ∈ ps, cleaned (f p) = if p.kept then f p else []) :
    cleaned (ps.flatMap f) = (ps.filter Piece.kept).flatMap f := by
  induction ps with
  | nil => rfl
  | cons p ps ih =>
    have hrest := ih fun q hq => h q (List.mem_cons_of_mem _ hq)
    rw [List.flatMap_cons, cleaned, List.filter_append, ← cleaned, ← cleaned, hrest,
      h p List.mem_cons_self, List.filter_cons]
    cases p.kept with
    | true => rw [if_pos rfl, if_pos rfl, List.flatMap_cons]
    | false => rfl

/-- A character that ends a scheme without the colon. -/
def halts (c : Char) : Prop := schemeChar c = false ∧ c ≠ ':' ∧ c ≠ '/'

theorem scheme_append (h : ∀ c ∈ s.head?, halts c) : scheme (w ++ s) = scheme w := by
  cases s with
  | nil => rw [List.append_nil]
  | cons c s =>
    obtain ⟨hc, hcolon, -⟩ := h c rfl
    have hstop : ¬ schemeChar c = true := by rw [hc]; decide
    by_cases hall : w.dropWhile schemeChar = []
    · have hw := List.dropWhile_eq_nil_iff.1 hall
      rw [scheme, scheme, List.takeWhile_append_of_pos hw, List.dropWhile_append_of_pos hw,
        List.takeWhile_cons_of_neg hstop, List.dropWhile_cons_of_neg hstop, List.append_nil,
        List.takeWhile_eq_self_iff.2 hw, hall]
      cases w with
      | nil => rfl
      | cons d w => simp [hcolon]
    · have hlt : (w.takeWhile schemeChar).length ≠ w.length := by
        intro hlen
        apply hall
        have hsum := congrArg List.length (List.takeWhile_append_dropWhile (p := schemeChar) (l := w))
        rw [List.length_append] at hsum
        exact List.length_eq_zero_iff.1 (by omega)
      rw [scheme, scheme, List.takeWhile_append, List.dropWhile_append, if_neg hlt, if_neg (by simpa using hall)]
      cases hd : w.dropWhile schemeChar with
      | nil => exact absurd hd hall
      | cons d w' =>
        rw [List.cons_append]
        cases w.takeWhile schemeChar with
        | nil => rfl
        | cons x xs =>
          by_cases hd : d = ':'
          · subst hd
            rfl
          · simp [hd]

theorem slashes_append (h : ∀ c ∈ s.head?, halts c) :
    ['/', '/'] <+: w ++ s ↔ ['/', '/'] <+: w := by
  have hhead : ∀ c ∈ s.head?, c ≠ '/' := fun c hc => (h c hc).2.2
  match w, s with
  | [], [] => rfl
  | [], c :: s => simp [(hhead c rfl).symm]
  | [d], [] => rfl
  | [d], c :: s => simp [(hhead c rfl).symm]
  | d :: d' :: w, s => simp

/-- The text and the decoded text of some pieces are the same up to a character that ends a scheme
in both. -/
theorem same_start (hps : ∀ p ∈ ps, p.Ok md) : ∃ w a b, flat ps = w ++ a ∧
    ps.flatMap Piece.raw = w ++ b ∧ (∀ c ∈ a.head?, halts c) ∧ ∀ c ∈ b.head?, halts c := by
  have hspecial : ∀ c, special c = true → halts c := by
    intro c hc
    obtain rfl | rfl | rfl | rfl | rfl := special_iff.1 hc <;> exact ⟨rfl, by decide, by decide⟩
  induction ps with
  | nil => exact ⟨[], [], [], rfl, rfl, nofun, nofun⟩
  | cons p ps ih =>
    rw [flat_cons, List.flatMap_cons]
    cases p with
    | char c =>
      cases hc : special c with
      | true =>
        refine ⟨[], _, _, rfl, rfl, ?_, ?_⟩
        · intro d hd
          have hhead : (escapeChar c ++ flat ps).head? = some '&' := by
            rw [List.head?_append, (entity_chars hc).1]
            rfl
          obtain rfl : '&' = d := Option.some.inj (hhead.symm.trans hd)
          exact hspecial _ rfl
        · rintro d ⟨⟩
          exact hspecial _ hc
      | false =>
        obtain ⟨w, a, b, ha, hb, hrest⟩ := ih fun q hq => hps q (List.mem_cons_of_mem _ hq)
        refine ⟨c :: w, a, b, ?_, ?_, hrest⟩
        · rw [Piece.text, escapeChar_of_not_special hc, ha]
          rfl
        · rw [hb]
          rfl
    | tag t =>
      have hhead : ∀ s, (t ++ s).head? = some '<' := by
        intro s
        rw [List.head?_append, (tag_chars t (hps _ List.mem_cons_self)).1]
        rfl
      refine ⟨[], _, _, rfl, rfl, ?_, ?_⟩
      · intro d hd
        obtain rfl : '<' = d := Option.some.inj ((hhead _).symm.trans hd)
        exact hspecial _ rfl
      · intro d hd
        obtain rfl : '<' = d := Option.some.inj ((hhead _).symm.trans hd)
        exact hspecial _ rfl

theorem same_scheme (hps : ∀ p ∈ ps, p.Ok md) : scheme (flat ps) = scheme (ps.flatMap Piece.raw) ∧
    (['/', '/'] <+: flat ps ↔ ['/', '/'] <+: ps.flatMap Piece.raw) := by
  obtain ⟨w, a, b, ha, hb, hsa, hsb⟩ := same_start hps
  rw [ha, hb, scheme_append hsa, scheme_append hsb, slashes_append hsa, slashes_append hsb]
  exact ⟨rfl, Iff.rfl⟩

/-- What `safeUrl` accepts as it is written is harmless as a browser reads it. -/
theorem harmless (hps : ∀ p ∈ ps, p.Ok md) (h : (safeUrl (flat ps)).isSome = true) :
    Harmless (cleaned (decodeEntities (flat ps))) := by
  have hkept : ∀ p ∈ ps.filter Piece.kept, p.Ok md := fun p hp => hps p (List.mem_filter.1 hp).1
  have htext : cleaned (flat ps) = flat (ps.filter Piece.kept) :=
    cleaned_flatMap fun p hp => cleaned_text (hps p hp)
  have hraw : cleaned (ps.flatMap Piece.raw) = (ps.filter Piece.kept).flatMap Piece.raw :=
    cleaned_flatMap fun p hp => cleaned_raw (hps p hp)
  obtain ⟨hscheme, hslashes⟩ := same_scheme hkept
  rw [decode_flat hps, hraw, Harmless, ← hscheme, ← hslashes]
  rw [safeUrl, htext] at h
  cases hs : scheme (flat (ps.filter Piece.kept)) with
  | none =>
    rw [hs] at h
    intro hpre
    rw [if_pos hpre] at h
    exact Bool.noConfusion h
  | some name =>
    rw [hs] at h
    by_contra hname
    have hne : ¬ (name.map Char.toLower = "http".toList ∨ name.map Char.toLower = "https".toList) := by
      simpa using hname
    dsimp only at h
    rw [if_neg hne] at h
    exact Bool.noConfusion h

end Urls

section Matches

theorem span_append {l a b : Text} (h : l.span p = (a, b)) : l = a ++ b := by
  rw [List.span_eq_takeWhile_dropWhile, Prod.mk.injEq] at h
  rw [← h.1, ← h.2, List.takeWhile_append_dropWhile]

theorem code_match (h : code s = some (new, n)) : ∃ cs rest, s = ('\x60' :: cs) ++ '\x60' :: rest ∧
    n = cs.length + 2 ∧ new = "<code>".toList ++ cs ++ "</code>".toList := by
  unfold code at h
  split at h
  · split at h
    · next s c cs rest hspan =>
      cases h
      exact ⟨c :: cs, rest, by rw [span_append hspan]; rfl, rfl, rfl⟩
    · exact absurd h (by simp)
  · exact absurd h (by simp)

theorem strong_match (h : strong s = some (new, n)) :
    ∃ cs rest, s = ('*' :: '*' :: cs) ++ '*' :: '*' :: rest ∧ n = cs.length + 4 ∧
      new = "<strong>".toList ++ cs ++ "</strong>".toList := by
  unfold strong at h
  split at h
  · split at h
    · next s c cs rest hspan =>
      cases h
      exact ⟨c :: cs, rest, by rw [span_append hspan]; rfl, rfl, rfl⟩
    · exact absurd h (by simp)
  · exact absurd h (by simp)

theorem link_match (h : link s = some (new, n)) :
    ∃ t u rest, s = ('[' :: t) ++ ']' :: '(' :: (u ++ ')' :: rest) ∧
      n = ('[' :: t ++ ']' :: '(' :: u ++ [')']).length ∧
      ((safeUrl u).isSome = true ∧ new = anchor u t ∨ new = '[' :: t ++ ']' :: '(' :: u ++ [')']) := by
  unfold link at h
  split at h
  · split at h
    · split at h
      · next s _ t ts s' hspan _ u us rest hspan' =>
        dsimp only at h
        refine ⟨t :: ts, u :: us, rest, ?_, ?_, ?_⟩
        · rw [span_append hspan, span_append hspan']
          rfl
        · split at h <;> cases h <;> rfl
        · split at h
          · next hsafe =>
            cases h
            refine .inl ⟨?_, rfl⟩
            cases hu : safeUrl (u :: us) with
            | none => rw [hu] at hsafe; exact absurd hsafe (by decide)
            | some v => rfl
          · cases h
            exact .inr rfl
      · exact absurd h (by simp)
    · exact absurd h (by simp)
  · exact absurd h (by simp)

end Matches

section Inline

variable {md : Text} {ps : List Piece}

theorem Marked.of_flat (hps : ∀ p ∈ ps, p.Ok md) : Marked md (flat ps) := ⟨ps, hps, rfl⟩

theorem Marked.code (h : Marked md s) : Marked md (replaceAll code s) := by
  obtain ⟨ps, hps, rfl⟩ := h
  refine replaceAll_pieces (d := '\x60') (by decide) ?_ .nil .append (fun p hp => .piece hp) ?_ ps hps
  · intro c s hc
    rw [Markdown.code]
    exact fun s h => absurd (List.cons.inj h).1 hc
  · intro ps hps new n hmatch
    obtain ⟨cs, rest, hs, rfl, rfl⟩ := code_match hmatch
    obtain ⟨pa, pb, rfl, hpa, -⟩ := flat_split hps (d := '\x60') (by decide) hs
    have hok := List.forall_mem_append.1 hps
    obtain ⟨pc, pd, rfl, -, rfl⟩ := flat_split hok.1 (a := []) (d := '\x60') (by decide) hpa
    have hcs : Marked md (flat pd) :=
      .of_flat fun p hp => hok.1 p (List.mem_append_right _ (List.mem_cons_of_mem _ hp))
    refine ⟨(pc ++ .char '\x60' :: pd) ++ [.char '\x60'], pb, by simp, ?_, Nat.succ_pos _, ?_⟩
    · rw [flat_append, hpa]
      simp [flat, Piece.text, escapeChar_of_not_special (c := '\x60') rfl]
    · exact ((Marked.tag (by decide +kernel)).append hcs).append (Marked.tag (by decide +kernel))

theorem Marked.strong (h : Marked md s) : Marked md (replaceAll strong s) := by
  obtain ⟨ps, hps, rfl⟩ := h
  refine replaceAll_pieces (d := '*') (by decide) ?_ .nil .append (fun p hp => .piece hp) ?_ ps hps
  · intro c s hc
    rw [Markdown.strong]
    exact fun s h => absurd (List.cons.inj h).1 hc
  · intro ps hps new n hmatch
    obtain ⟨cs, rest, hs, rfl, rfl⟩ := strong_match hmatch
    obtain ⟨pa, pb, rfl, hpa, hpb⟩ := flat_split hps (d := '*') (by decide) hs
    have hok := List.forall_mem_append.1 hps
    obtain ⟨pc, pd, rfl, -, hpd⟩ := flat_split hok.1 (a := []) (d := '*') (by decide) hpa
    have hpd' : ∀ p ∈ pd, p.Ok md := fun p hp =>
      hok.1 p (List.mem_append_right _ (List.mem_cons_of_mem _ hp))
    obtain ⟨pe, pf, rfl, -, rfl⟩ := flat_split hpd' (a := []) (d := '*') (by decide) hpd
    have hpb' : ∀ p ∈ pb, p.Ok md := fun p hp => hok.2 p (List.mem_cons_of_mem _ hp)
    obtain ⟨pg, pb, rfl, hpg, -⟩ := flat_split hpb' (a := []) (d := '*') (by decide) hpb
    have hcs : Marked md (flat pf) :=
      .of_flat fun p hp => hpd' p (List.mem_append_right _ (List.mem_cons_of_mem _ hp))
    refine ⟨(pc ++ .char '*' :: (pe ++ .char '*' :: pf)) ++ .char '*' :: (pg ++ [.char '*']), pb,
      by simp, ?_, Nat.succ_pos _, ?_⟩
    · rw [flat_append, hpa, flat_cons, flat_append, hpg]
      simp [flat, Piece.text, escapeChar_of_not_special (c := '*') rfl]
    · exact ((Marked.tag (by decide +kernel)).append hcs).append (Marked.tag (by decide +kernel))

/-- A link is made of what its text and its address are made of. -/
theorem Linked.anchor {us : List Piece} (ht : Marked md t) (hus : ∀ p ∈ us, p.Ok md)
    (hsafe : (safeUrl (flat us)).isSome = true) : Linked md (anchor (flat us) t) := by
  have hquote : '\x22' ∉ flat us := by
    intro hq
    obtain ⟨p, hp, hq⟩ := List.mem_flatMap.1 hq
    exact (hus p hp).no_quote hq
  have hopen : Linked md (Part.opening us).text := .part ⟨hus, hquote, harmless hus hsafe⟩
  have hclose : Linked md Part.closing.text := .part trivial
  exact (hopen.append ht.linked).append hclose

theorem Marked.link (h : Marked md s) : Linked md (replaceAll link s) := by
  obtain ⟨ps, hps, rfl⟩ := h
  refine replaceAll_pieces (d := '[') (by decide) ?_ .nil .append (fun p hp => (Marked.piece hp).linked)
    ?_ ps hps
  · intro c s hc
    rw [Markdown.link]
    exact fun s h => absurd (List.cons.inj h).1 hc
  · intro ps hps new n hmatch
    obtain ⟨t, u, rest, hs, rfl, hnew⟩ := link_match hmatch
    obtain ⟨pa, pb, rfl, hpa, hpb⟩ := flat_split hps (d := ']') (by decide) hs
    have hok := List.forall_mem_append.1 hps
    obtain ⟨pc, pt, rfl, -, rfl⟩ := flat_split hok.1 (a := []) (d := '[') (by decide) hpa
    have hpb' : ∀ p ∈ pb, p.Ok md := fun p hp => hok.2 p (List.mem_cons_of_mem _ hp)
    obtain ⟨pd, pe, rfl, hpd, hpe⟩ := flat_split hpb' (a := []) (d := '(') (by decide) hpb
    have hpe' : ∀ p ∈ pe, p.Ok md := fun p hp =>
      hpb' p (List.mem_append_right _ (List.mem_cons_of_mem _ hp))
    obtain ⟨us, pb, rfl, rfl, -⟩ := flat_split hpe' (d := ')') (by decide) hpe
    have ht : Marked md (flat pt) :=
      .of_flat fun p hp => hok.1 p (List.mem_append_right _ (List.mem_cons_of_mem _ hp))
    have hus : ∀ p ∈ us, p.Ok md := fun p hp => hpe' p (List.mem_append_left _ hp)
    have hwhole : flat ((pc ++ .char '[' :: pt) ++ .char ']' :: (pd ++ .char '(' :: (us ++ [.char ')']))) =
        '[' :: flat pt ++ ']' :: '(' :: flat us ++ [')'] := by
      rw [flat_append, hpa, flat_cons, flat_append, hpd, flat_cons, flat_append]
      simp [flat, Piece.text, escapeChar_of_not_special (c := ']') rfl,
        escapeChar_of_not_special (c := '(') rfl, escapeChar_of_not_special (c := ')') rfl]
    refine ⟨_, pb, ?_, congrArg List.length hwhole, ?_, ?_⟩
    · simp
    · simp
    · obtain ⟨hsafe, rfl⟩ | rfl := hnew
      · exact .anchor ht hus hsafe
      · rw [← hwhole]
        refine (Marked.of_flat fun p hp => hps p ?_).linked
        simp only [List.mem_append, List.mem_cons, List.not_mem_nil, or_false] at hp ⊢
        tauto

theorem inline_linked (h : ∀ c ∈ s, c ∈ md ∨ c = ' ' ∨ c = '\n') : Linked md (inline s) :=
  (Marked.escapeHtml h).code.strong.link

end Inline

section Rendering

variable {md line out : Text} {ls rest : List Text} {r : Text → Option Text}

/-- All that the text has comes from the source or joins its lines. -/
def Within (md s : Text) : Prop := ∀ c ∈ s, c ∈ md ∨ c = ' ' ∨ c = '\n'

/-- The texts of a block come from the source. -/
def Block.Within (md : Text) : Block → Prop
  | .blank => True
  | .heading l text => (1 ≤ l ∧ l ≤ 6) ∧ Markdown.Within md text
  | .quote texts | .list texts | .para texts => ∀ t ∈ texts, Markdown.Within md t

theorem Within.sub (h : Within md s) (hsub : t ⊆ s) : Within md t := fun c hc => h c (hsub hc)

theorem within_join {x : Char} (hx : x = ' ' ∨ x = '\n') (h : ∀ t ∈ ls, Within md t) :
    Within md ([x].intercalate ls) := by
  induction ls with
  | nil => exact fun c hc => absurd hc List.not_mem_nil
  | cons t ls ih =>
    have ht := h t List.mem_cons_self
    have hls := ih fun u hu => h u (List.mem_cons_of_mem _ hu)
    cases ls with
    | nil => rwa [List.intercalate_singleton]
    | cons u ls =>
      rw [List.intercalate_cons_cons]
      intro c hc
      simp only [List.mem_append, List.mem_singleton] at hc
      obtain (hc | rfl) | hc := hc
      · exact ht c hc
      · exact .inr hx
      · exact hls c hc

theorem mem_intercalate {x : Char} {l : Text} (hl : l ∈ ls) (hc : c ∈ l) :
    c ∈ [x].intercalate ls := by
  induction ls with
  | nil => exact absurd hl List.not_mem_nil
  | cons t ls ih =>
    cases ls with
    | nil =>
      obtain rfl := List.mem_singleton.1 hl
      rwa [List.intercalate_singleton]
    | cons u ls =>
      rw [List.intercalate_cons_cons]
      obtain rfl | hl := List.mem_cons.1 hl
      · exact List.mem_append_left _ (List.mem_append_left _ hc)
      · exact List.mem_append_right _ (ih hl)

theorem title_subset (line : Text) : title line ⊆ line := (List.dropWhile_sublist _).subset

theorem unquote_subset (line : Text) : unquote line ⊆ line := by
  have hsub := (List.dropWhile_sublist isSpace (l := line)).subset
  intro c hc
  rw [unquote] at hc
  split at hc
  · next d s hs =>
    rw [hs] at hsub
    apply hsub
    split at hc
    · exact List.mem_cons_of_mem _ (List.mem_cons_of_mem _ hc)
    · exact List.mem_cons_of_mem _ hc
  · exact absurd hc List.not_mem_nil
  · exact hc

theorem unitem_subset (line : Text) : unitem line ⊆ line := by
  intro c hc
  rw [unitem] at hc
  split at hc
  · exact (List.dropWhile_sublist _).subset
      (List.drop_subset _ _ ((List.dropWhile_sublist _).subset hc))
  · exact hc

theorem heading_some (h : heading line = some (l, text)) : (1 ≤ l ∧ l ≤ 6) ∧ text ⊆ line := by
  rw [heading] at h
  split at h
  · next hc =>
    cases h
    simp only [Bool.and_eq_true, decide_eq_true_eq] at hc
    exact ⟨hc.1.1, fun c hc => title_subset line ((List.dropWhile_sublist _).subset hc)⟩
  · exact absurd h (by simp)

theorem round_within (h : ∀ l ∈ line :: rest, Within md l) : (round line rest).1.Within md := by
  have hmap : ∀ (p : Text → Bool) (f : Text → Text), (∀ l, f l ⊆ l) →
      ∀ t ∈ ((line :: rest).takeWhile p).map f, Within md t := by
    intro p f hf t ht
    obtain ⟨l, hl, rfl⟩ := List.mem_map.1 ht
    exact (h l ((List.takeWhile_sublist _).subset hl)).sub (hf l)
  rw [round]
  split
  · trivial
  · split
    · next hh =>
      obtain ⟨hl, htext⟩ := heading_some hh
      exact ⟨hl, (h line List.mem_cons_self).sub htext⟩
    · split
      · exact hmap quoted unquote unquote_subset
      · split
        · exact hmap item unitem unitem_subset
        · exact hmap plain trimmed fun l c hc => mem_trimmed hc

theorem mem_level_tags (h : 1 ≤ l ∧ l ≤ 6) : '<' :: ('h' :: Nat.toDigits 10 l) ++ ['>'] ∈ tags ∧
    '<' :: '/' :: ('h' :: Nat.toDigits 10 l) ++ ['>'] ∈ tags := by
  obtain ⟨hlo, hhi⟩ := h
  interval_cases l <;> decide +kernel

theorem block_linked {b : Block} (hb : b.Within md)
    (hr : ∀ body html, r body = some html → Linked body html) (h : b.html r = some html) :
    Linked md html := by
  have htag : ∀ t ∈ tags, Linked md t := fun t ht => .tag ht
  cases b with
  | blank =>
    cases h
    exact .nil
  | heading l text =>
    cases h
    obtain ⟨hopen, hclose⟩ := mem_level_tags hb.1
    have hin := inline_linked (hb.2.sub fun c hc => mem_trimmed hc)
    have hall := ((htag _ hopen).append hin).append (htag _ hclose)
    simpa using hall
  | quote block =>
    obtain ⟨body, hbody, rfl⟩ := Option.map_eq_some_iff.1 h
    have hin := (hr _ _ hbody).mono (within_join (.inr rfl) hb)
    exact ((htag _ (by decide +kernel)).append hin).append (htag _ (by decide +kernel))
  | list items =>
    cases h
    refine ((htag _ (by decide +kernel)).append (.flatMap fun i hi => ?_)).append
      (htag _ (by decide +kernel))
    exact ((htag _ (by decide +kernel)).append (inline_linked (hb i hi))).append
      (htag _ (by decide +kernel))
  | para texts =>
    cases h
    have hin := inline_linked (within_join (.inl rfl) hb)
    exact ((htag _ (by decide +kernel)).append hin).append (htag _ (by decide +kernel))

theorem loop_linked (hr : ∀ body html, r body = some html → Linked body html)
    (hls : ∀ l ∈ ls, Within md l) (hhtml : Linked md html) (h : loop r n ls html = some out) :
    Linked md out := by
  induction n generalizing ls html with
  | zero => exact absurd h (by simp [loop])
  | succ n ih =>
    cases ls with
    | nil =>
      cases h
      exact hhtml
    | cons line rest =>
      obtain ⟨more, hmore, h⟩ := Option.bind_eq_some_iff.1 h
      obtain ⟨read, hread⟩ := round_read line rest
      refine ih (fun l hl => hls l (hread.mem_lines.2 (.inr hl))) ?_ h
      exact hhtml.append (block_linked (round_within hls) hr hmore)

theorem crlf_subset (md : Text) : replaceAll crlf md ⊆ md := by
  apply replaceAll_subset
  intro s new n h
  unfold crlf at h
  split at h
  · cases h
    simp
  · exact absurd h (by simp)

theorem lines_within (md : Text) : ∀ l ∈ lines md, Within md l := by
  intro l hl c hc
  apply Or.inl
  apply crlf_subset md
  have hsplit : ['\n'].intercalate ((replaceAll crlf md).splitOn '\n') = replaceAll crlf md :=
    List.intercalate_splitOn '\n'
  rw [← hsplit]
  exact mem_intercalate hl hc

theorem render_linked (n : Nat) (md html : Text) (h : render n md = some html) : Linked md html := by
  induction n generalizing md html with
  | zero => exact absurd h (by simp [render])
  | succ n ih => exact loop_linked ih (lines_within md) .nil h

end Rendering

/-- What is rendered is made of the renderer's own tags and of escaped characters of the source, and
the address of each link is harmless. -/
theorem rendered_markup (h : render n md = some html) :
    ∃ parts : List Part, html = parts.flatMap Part.text ∧ ∀ part ∈ parts, part.Ok md := by
  obtain ⟨parts, hparts, rfl⟩ := render_linked n md html h
  exact ⟨parts, rfl, hparts⟩

/-- A link whose address has code in it. -/
theorem rendered_markup_link :
    ∃ parts : List Part, "<p><a href=\x22http://b<code>c</code>\x22 target=\x22_blank\x22 ".toList ++
      "rel=\x22noopener\x22>a</a></p>".toList = parts.flatMap Part.text ∧
        ∀ part ∈ parts, part.Ok "[a](http://b\x60c\x60)".toList :=
  @rendered_markup 4 "[a](http://b\x60c\x60)".toList _ (by decide +kernel)

end Mise.Markdown
