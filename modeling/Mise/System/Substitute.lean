import Mise.System.Torrc

set_option autoImplicit true

namespace Mise.System

open Js Server

/-- A character that ends a line of a pattern. -/
def isBreak (c : Char) : Bool := c = '\n' || c = '\r' || c.val = 0x2028 || c.val = 0x2029

/-- How much a pattern matches at a place, after what stands before it. -/
abbrev Place := Text → Text → Option Nat

/-- The first `n` characters have been matched already. -/
def substFrom (m : Place) (new : Text) : Text → Nat → Text → Text
  | _, _, [] => []
  | before, n + 1, c :: s => substFrom m new (before ++ [c]) n s
  | before, 0, c :: s =>
    match m before (c :: s) with
    | some n => expand before ((c :: s).take n) ((c :: s).drop n) new ++
        substFrom m new (before ++ [c]) (n - 1) s
    | none => c :: substFrom m new (before ++ [c]) 0 s

/-- `s.replace(m, new)`, for a global pattern without groups. -/
def subst (m : Place) (new s : Text) : Text := substFrom m new [] 0 s

/-- `^` -/
def lineStart (before : Text) : Bool := before.getLast?.all isBreak

/-- `.*` -/
def restOfLine (s : Text) : Text := s.takeWhile (!isBreak ·)

/-- `/^key.*$/gm` where it is anchored, or `/key.*/g`. -/
def lineFrom (anchored : Bool) (key : Text) : Place := fun before s =>
  if (!anchored || lineStart before) && key.isPrefixOf s then some (restOfLine s).length else none

/-- `/key/g` -/
def fixed (key : Text) : Place := fun _ s => if key.isPrefixOf s then some key.length else none

/-- `/key[^"]*"/g` -/
def quoted (key : Text) : Place := fun _ s =>
  let value := (s.drop key.length).takeWhile (· ≠ '"')
  if key.isPrefixOf s && s.drop (key.length + value.length) ≠ [] then
    some (key.length + value.length + 1)
  else none

/-- A line of the form `key value` is put in the place of one that has the key. -/
def setLine (anchored : Bool) (key value : Text) : Text → Text :=
  subst (lineFrom anchored key) (key ++ value)

/-- A character that makes a replacement pattern of the `$` before it. -/
def special (c : Char) : Bool := c = '$' || c = '&' || c.toNat = 0x60 || c.toNat = 0x27

/-- No replacement pattern is in the text. -/
def literal : Text → Bool
  | c :: d :: t => !(c = '$' && special d) && literal (d :: t)
  | [] | [_] => true

section Literal

variable {before matched after x : Text} {c d : Char}

theorem expand_dollar (h : special d = false) (t : Text) :
    expand before matched after ('$' :: d :: t) = '$' :: expand before matched after (d :: t) := by
  simp only [special, Bool.or_eq_false_iff, decide_eq_false_iff_not] at h
  obtain ⟨⟨⟨h1, h2⟩, h3⟩, h4⟩ := h
  rw [expand, if_neg h1, if_neg h2, if_neg h3, if_neg h4]

theorem literal_of_not_mem (h : '$' ∉ x) : literal x = true := by
  induction x with
  | nil => rfl
  | cons c t ih =>
    cases t with
    | nil => rfl
    | cons d t =>
      have hc : c ≠ '$' := fun hc => h (hc ▸ List.mem_cons_self)
      rw [literal, ih fun hm => h (List.mem_cons_of_mem c hm), decide_eq_false hc]
      rfl

theorem literal_tail (h : literal (c :: x) = true) : literal x = true := by
  cases x with
  | nil => rfl
  | cons d t =>
    rw [literal, Bool.and_eq_true] at h
    exact h.2

theorem special_of_literal (h : literal ('$' :: d :: x) = true) : special d = false := by
  rw [literal, Bool.and_eq_true, Bool.not_eq_true', Bool.and_eq_false_iff] at h
  exact h.1.resolve_left (by decide)

theorem expand_literal (h : literal x = true) : expand before matched after x = x := by
  induction x with
  | nil => rfl
  | cons c t ih =>
    by_cases hc : c = '$'
    · subst hc
      cases t with
      | nil => rfl
      | cons d t => rw [expand_dollar (special_of_literal h), ih (literal_tail h)]
    · rw [expand_cons hc, ih (literal_tail h)]

theorem literal_append {y : Text} (hx : literal x = true) (hy : literal y = true)
    (hd : ∀ d ∈ y.head?, special d = false) : literal (x ++ y) = true := by
  induction x with
  | nil => exact hy
  | cons c t ih =>
    have ht := ih (literal_tail hx)
    cases t with
    | nil =>
      cases y with
      | nil => rfl
      | cons d y =>
        rw [List.singleton_append, literal, hd d rfl, hy, Bool.and_false]
        rfl
    | cons d t =>
      rw [List.cons_append, List.cons_append, literal, ← List.cons_append, ht, Bool.and_true]
      rw [literal, Bool.and_eq_true] at hx
      exact hx.1

end Literal

section Lines

variable {anchored : Bool} {key value new before line rest : Text} {m : Place}

theorem substFrom_skip (m : Place) (new before : Text) (x y : Text) :
    substFrom m new before x.length (x ++ y) = substFrom m new (before ++ x) 0 y := by
  induction x generalizing before with
  | nil => rw [List.append_nil, List.nil_append, List.length_nil]
  | cons c x ih =>
    rw [List.length_cons, List.cons_append, substFrom, ih, List.append_assoc]
    rfl

theorem substFrom_match {x y : Text} (hx : x ≠ []) (hm : m before (x ++ y) = some x.length)
    (hnew : literal new = true) :
    substFrom m new before 0 (x ++ y) = new ++ substFrom m new (before ++ x) 0 y := by
  cases x with
  | nil => exact absurd rfl hx
  | cons c x =>
    have hskip := substFrom_skip m new (before ++ [c]) x y
    rw [List.append_assoc] at hskip
    rw [List.cons_append] at hm ⊢
    rw [substFrom, hm]
    dsimp only
    rw [expand_literal hnew, List.length_cons, Nat.add_sub_cancel, hskip]
    rfl

theorem substFrom_none {x y : Text}
    (h : ∀ u v, x = u ++ v → v ≠ [] → m (before ++ u) (v ++ y) = none) :
    substFrom m new before 0 (x ++ y) = x ++ substFrom m new (before ++ x) 0 y := by
  induction x generalizing before with
  | nil => rw [List.append_nil, List.nil_append, List.nil_append]
  | cons c x ih =>
    have hc := h [] (c :: x) rfl (List.cons_ne_nil _ _)
    rw [List.append_nil, List.cons_append] at hc
    rw [List.cons_append, substFrom, hc]
    dsimp only
    rw [ih, List.append_assoc]
    · rfl
    · intro u v hx hv
      have hu := h (c :: u) v (congrArg (c :: ·) hx) hv
      rw [List.append_assoc]
      exact hu

theorem lineFrom_none (hkey : '\n' ∉ key) (hno : ¬ key <:+: line) {u v : Text} (h : line = u ++ v)
    (hrest : rest = [] ∨ ∃ t, rest = '\n' :: t) : lineFrom anchored key before (v ++ rest) = none := by
  have hprefix : ¬ key <+: v ++ rest := by
    intro hp
    apply hno
    rw [h]
    rcases hrest with rfl | ⟨t, rfl⟩
    · rw [List.append_nil] at hp
      exact hp.isInfix.trans (List.suffix_append u v).isInfix
    · exact ((prefix_append_stop hkey).1 hp).isInfix.trans (List.suffix_append u v).isInfix
  rw [lineFrom, if_neg]
  rw [Bool.and_eq_true, List.isPrefixOf_iff_prefix]
  exact fun hp => hprefix hp.2

theorem lineFrom_line (hline : line.all (!isBreak ·) = true) (hp : key <+: line)
    (hstart : lineStart before = true) (hrest : rest = [] ∨ ∃ t, rest = '\n' :: t) :
    lineFrom anchored key before (line ++ rest) = some line.length := by
  have htake : restOfLine (line ++ rest) = line := by
    rw [restOfLine, List.takeWhile_append_of_pos (List.all_eq_true.1 hline)]
    rcases hrest with rfl | ⟨t, rfl⟩
    · exact List.append_nil line
    · rw [List.takeWhile_cons_of_neg (by decide), List.append_nil]
  rw [lineFrom, hstart, Bool.or_true, Bool.true_and, if_pos, htake]
  rw [List.isPrefixOf_iff_prefix]
  exact hp.trans (List.prefix_append _ _)

/-- The key stands at the front of the line, if at all. -/
def KeyedLine (key line : Text) : Prop :=
  line.all (!isBreak ·) = true ∧ key <+: line ∨ ¬ key <:+: line

def swapLine (key value line : Text) : Text :=
  if key.isPrefixOf line then key ++ value else line

theorem swapLine_none (h : ¬ key <:+: line) (value : Text) : swapLine key value line = line := by
  rw [swapLine, if_neg]
  rw [List.isPrefixOf_iff_prefix]
  exact fun hp => h hp.isInfix

theorem substFrom_line (anchored : Bool) (hne : key ≠ []) (hkey : '\n' ∉ key) (hnew : literal (key ++ value) = true)
    (hline : KeyedLine key line) (hstart : lineStart before = true)
    (hrest : rest = [] ∨ ∃ t, rest = '\n' :: t) :
    substFrom (lineFrom anchored key) (key ++ value) before 0 (line ++ rest) =
      swapLine key value line ++
        substFrom (lineFrom anchored key) (key ++ value) (before ++ line) 0 rest := by
  rcases hline with ⟨hall, hp⟩ | hno
  · have hl : line ≠ [] := by
      rintro rfl
      exact hne (List.prefix_nil.1 hp)
    rw [substFrom_match hl (lineFrom_line hall hp hstart hrest) hnew, swapLine, if_pos]
    rw [List.isPrefixOf_iff_prefix]
    exact hp
  · rw [swapLine_none hno]
    apply substFrom_none
    intro u v h _
    exact lineFrom_none hkey hno h hrest

/-- A line is set in a text of lines that have its key at the front, if at all. -/
theorem setLine_lines (anchored : Bool) (hne : key ≠ []) (hkey : '\n' ∉ key)
    (hnew : literal (key ++ value) = true) (lines : List Text)
    (hlines : ∀ l ∈ lines, KeyedLine key l) :
    setLine anchored key value (['\n'].intercalate lines) =
      ['\n'].intercalate (lines.map (swapLine key value)) := by
  suffices ∀ before, lineStart before = true →
      substFrom (lineFrom anchored key) (key ++ value) before 0 (['\n'].intercalate lines) =
        ['\n'].intercalate (lines.map (swapLine key value)) from this [] rfl
  induction lines with
  | nil => exact fun before _ => rfl
  | cons l lines ih =>
    intro before hstart
    have hl := hlines l List.mem_cons_self
    cases lines with
    | nil =>
      have h := substFrom_line anchored hne hkey hnew hl hstart (.inl rfl)
      rw [List.append_nil, substFrom, List.append_nil] at h
      rw [List.intercalate_singleton, h, List.map_singleton, List.intercalate_singleton]
    | cons l' lines =>
      have hbreak : lineStart (before ++ l ++ ['\n']) = true := by
        rw [lineStart, List.getLast?_append_of_ne_nil _ (List.cons_ne_nil _ _)]
        rfl
      have hnone : lineFrom anchored key (before ++ l) ('\n' :: ['\n'].intercalate (l' :: lines)) =
          none := by
        rw [lineFrom, if_neg]
        rw [Bool.and_eq_true, List.isPrefixOf_iff_prefix]
        intro hp
        obtain ⟨c, k, rfl⟩ := List.exists_cons_of_ne_nil hne
        exact hkey ((List.cons_prefix_cons.1 hp.2).1 ▸ List.mem_cons_self)
      have h := substFrom_line anchored hne hkey hnew hl hstart
        (.inr ⟨['\n'].intercalate (l' :: lines), rfl⟩)
      rw [substFrom, hnone] at h
      dsimp only at h
      rw [ih (fun l hl => hlines l (List.mem_cons_of_mem _ hl)) _ hbreak] at h
      have hmap : (l :: l' :: lines).map (swapLine key value) =
        swapLine key value l :: swapLine key value l' :: lines.map (swapLine key value) := rfl
      rw [List.intercalate_cons_cons, List.append_assoc, List.singleton_append, h, hmap,
        List.intercalate_cons_cons, List.append_assoc]
      rfl

end Lines

/-- A key that is set to a value. -/
structure Setting where
  anchored : Bool
  key : Text
  value : Text

namespace Setting

def apply (text : Text) (s : Setting) : Text := setLine s.anchored s.key s.value text

def line (s : Setting) : Text := s.key ++ s.value

/-- What a setting needs of itself, and of those that are set after it. -/
structure Sound (s : Setting) : Prop where
  key_ne : s.key ≠ []
  key_line : '\n' ∉ s.key
  literal : literal s.line = true

end Setting

/-- The line that the settings make of a line of the template. -/
def assign (settings : List Setting) (line : Text) : Text :=
  match settings.find? fun s => s.key.isPrefixOf line with
  | some s => s.line
  | none => line

section Settings

variable {settings : List Setting} {s : Setting} {l : Text}

theorem assign_cons (s : Setting) (settings : List Setting) (l : Text) :
    assign (s :: settings) l = if s.key.isPrefixOf l then s.line else assign settings l := by
  rw [assign, List.find?_cons]
  cases s.key.isPrefixOf l with
  | true => rfl
  | false => rfl

theorem assign_none (h : ∀ s ∈ settings, ¬ s.key <:+: l) : assign settings l = l := by
  have hnone : settings.find? (fun s => s.key.isPrefixOf l) = none := by
    rw [List.find?_eq_none]
    intro s hs hp
    exact h s hs (List.isPrefixOf_iff_prefix.1 hp).isInfix
  rw [assign, hnone]

/-- Settings that are made one after the other, where no line that is set has the key of a later
one in it. -/
theorem foldl_settings (hsound : ∀ s ∈ settings, s.Sound)
    (hlater : settings.Pairwise fun s s' => ¬ s'.key <:+: s.line) (lines : List Text)
    (hlines : ∀ l ∈ lines, ∀ s ∈ settings, KeyedLine s.key l) :
    settings.foldl Setting.apply (['\n'].intercalate lines) =
      ['\n'].intercalate (lines.map (assign settings)) := by
  induction settings generalizing lines with
  | nil =>
    have hid : lines.map (assign []) = lines := List.map_id lines
    rw [hid]
    rfl
  | cons s settings ih =>
    have hs := hsound s List.mem_cons_self
    have hnext := List.pairwise_cons.1 hlater
    have hswap : ∀ l, assign settings (swapLine s.key s.value l) = assign (s :: settings) l := by
      intro l
      rw [assign_cons, swapLine]
      split
      · exact assign_none hnext.1
      · rfl
    rw [List.foldl_cons, Setting.apply, setLine_lines s.anchored hs.key_ne hs.key_line hs.literal lines
      fun l hl => hlines l hl s List.mem_cons_self, ih]
    · rw [List.map_map]
      exact congrArg _ (List.map_congr_left fun l _ => hswap l)
    · exact fun s' hs' => hsound s' (List.mem_cons_of_mem s hs')
    · exact hnext.2
    · intro l hl s' hs'
      obtain ⟨l₀, hl₀, rfl⟩ := List.mem_map.1 hl
      rw [swapLine]
      split
      · exact .inr (hnext.1 s' hs')
      · exact hlines l₀ hl₀ s' (List.mem_cons_of_mem s hs')

end Settings

end Mise.System
