import Mathlib.Data.List.DropRight
import Mise.Server.BlockText
import Mise.System.Unified

set_option autoImplicit true

namespace Mise.System

open Js Server

def torrcMark : Text := "# mise hidden service (managed by scripts/install.mjs)".toList

def torrcBlock (hsDir : Text) : Text :=
  torrcMark ++ '\n' :: ("HiddenServiceDir ".toList ++ hsDir ++
    "\nHiddenServicePort 80 127.0.0.1:8080\n".toList)

/-- The rest of a text after one match of `HiddenService\S* [^\n]*\n?`. -/
def afterService (s : Text) : Option Text :=
  if "HiddenService".toList.isPrefixOf s then
    match (s.drop 13).dropWhile (!isSpace ·) with
    | ' ' :: more => some ((more.dropWhile (· ≠ '\n')).drop 1)
    | _ => none
  else none

/-- The rest after as many matches as there are, at most `n`. -/
def afterServices : Nat → Text → Text
  | 0, s => s
  | n + 1, s =>
    match afterService s with
    | none => s
    | some rest => afterServices n rest

/-- The rest of a text after `(?:HiddenService\S* [^\n]*\n?)*`. -/
def services (s : Text) : Text := afterServices s.length s

/-- What a replacement text stands for, where the pattern has no groups. -/
def expand (before matched after : Text) : Text → Text
  | [] => []
  | '$' :: c :: t =>
    if c = '$' then '$' :: expand before matched after t
    else if c = '&' then matched ++ expand before matched after t
    else if c.toNat = 0x60 then before ++ expand before matched after t
    else if c.toNat = 0x27 then after ++ expand before matched after t
    else '$' :: expand before matched after (c :: t)
  | c :: t => c :: expand before matched after t

/-- `s.replace(/\n*$/, "")` -/
def trimBreaks (s : Text) : Text := s.rdropWhile (· = '\n')

def mergeTorrc (existing hsDir : Text) : Text :=
  match cut (torrcMark ++ ['\n']) existing with
  | some (before, found) =>
    let after := services found
    let matched := torrcMark ++ '\n' :: found.take (found.length - after.length)
    before ++ expand before matched after (torrcBlock hsDir) ++ after
  | none => trimBreaks existing ++ ['\n', '\n'] ++ torrcBlock hsDir

/-- `/\n{3,}/g` and what stands for it. -/
def breaks (s : Text) : Option (Text × Nat) :=
  let n := (s.takeWhile (· = '\n')).length
  if 3 ≤ n then some (['\n', '\n'], n) else none

/-- The text without the managed block, and whether there was one. -/
def stripTorrc (existing : Text) : Text × Bool :=
  match cut (torrcMark ++ ['\n']) existing with
  | none => (existing, false)
  | some (before, found) =>
    ((replaceAll breaks (trimBreaks before ++ '\n' :: services found)).dropWhile (· = '\n'), true)

/-- The lines of a text that are not blank. -/
def nonBlank (s : Text) : List Text := (linesOf s).filter (· ≠ [])

section Lines

theorem nonBlank_append (x y : Text) : nonBlank (x ++ '\n' :: y) = nonBlank x ++ nonBlank y := by
  rw [nonBlank, linesOf, splitOn_append, List.filter_append]
  rfl

theorem nonBlank_nil : nonBlank [] = [] := rfl

theorem nonBlank_break (y : Text) : nonBlank ('\n' :: y) = nonBlank y := by
  rw [← List.nil_append ('\n' :: y), nonBlank_append, nonBlank_nil, List.nil_append]

theorem nonBlank_line {line : Text} (h : '\n' ∉ line) (hne : line ≠ []) : nonBlank line = [line] := by
  have hline : decide (line ≠ []) = true := decide_eq_true hne
  rw [nonBlank, linesOf, splitOn_line h, List.filter_cons_of_pos (p := fun l => decide (l ≠ [])) hline,
    List.filter_nil]

theorem nonBlank_breaks {b : Text} (h : ∀ c ∈ b, c = '\n') (y : Text) :
    nonBlank (b ++ y) = nonBlank y := by
  induction b with
  | nil => rfl
  | cons c b ih =>
    rw [h c List.mem_cons_self, List.cons_append, nonBlank_break]
    exact ih fun d hd => h d (List.mem_cons_of_mem c hd)

theorem nonBlank_append_breaks {b : Text} (x : Text) (h : ∀ c ∈ b, c = '\n') :
    nonBlank (x ++ b) = nonBlank x := by
  cases b with
  | nil => rw [List.append_nil]
  | cons c b =>
    have hrest := nonBlank_breaks (fun d hd => h d (List.mem_cons_of_mem c hd)) []
    rw [List.append_nil] at hrest
    rw [h c List.mem_cons_self, nonBlank_append, hrest, nonBlank_nil, List.append_nil]

theorem two_breaks : ∀ c ∈ ['\n', '\n'], c = '\n' :=
  List.forall_mem_cons.2 ⟨rfl, List.forall_mem_singleton.2 rfl⟩

theorem nonBlank_trimBreaks (s : Text) : nonBlank (trimBreaks s) = nonBlank s := by
  have hs : trimBreaks s ++ s.rtakeWhile (· = '\n') = s := List.rdropWhile_append_rtakeWhile
  have hbreaks : ∀ c ∈ s.rtakeWhile (· = '\n'), c = '\n' := by
    intro c hc
    have hp := List.mem_rtakeWhile_imp hc
    exact of_decide_eq_true hp
  rw [← nonBlank_append_breaks (trimBreaks s) hbreaks, hs]

theorem breaks_none {c : Char} (h : c ≠ '\n') (s : Text) : breaks (c :: s) = none := by
  rw [breaks, List.takeWhile_cons_of_neg (by simpa using h)]
  rfl

theorem nonBlank_replaceAll (x s : Text) :
    nonBlank (x ++ replaceAll breaks s) = nonBlank (x ++ s) := by
  induction hl : s.length using Nat.strong_induction_on generalizing x s with
  | _ l ih =>
    subst hl
    cases s with
    | nil => rw [replaceAll_nil]
    | cons c s =>
      by_cases hc : c = '\n'
      · subst hc
        cases hb : breaks ('\n' :: s) with
        | none =>
          rw [replaceAll_cons hb, nonBlank_append, nonBlank_append]
          exact congrArg (nonBlank x ++ ·) (ih s.length (Nat.lt_succ_self _) [] s rfl)
        | some r =>
          obtain ⟨new, n⟩ := r
          rw [breaks] at hb
          split at hb
          · next hn =>
            cases hb
            have hall : breaks ('\n' :: s) =
                some (['\n', '\n'], (('\n' :: s).takeWhile (· = '\n')).length) := if_pos hn
            have hsplit : '\n' :: s = ('\n' :: s).takeWhile (· = '\n') ++
                ('\n' :: s).dropWhile (· = '\n') := List.takeWhile_append_dropWhile.symm
            have hdrop : ('\n' :: s).drop (('\n' :: s).takeWhile (· = '\n')).length =
                ('\n' :: s).dropWhile (· = '\n') := by
              conv => lhs; arg 2; rw [hsplit]
              exact List.drop_left
            have hbreaks : ∀ d ∈ ('\n' :: s).takeWhile (· = '\n'), d = '\n' := by
              intro d hd
              have hp := List.mem_takeWhile_imp hd
              exact of_decide_eq_true hp
            have hlen : (('\n' :: s).dropWhile (· = '\n')).length < ('\n' :: s).length := by
              rw [← hdrop, List.length_drop, List.length_cons]
              omega
            have hrest := ih _ hlen [] _ rfl
            have hlines : nonBlank s = nonBlank (('\n' :: s).dropWhile (· = '\n')) := by
              have h := nonBlank_breaks hbreaks (('\n' :: s).dropWhile (· = '\n'))
              rw [← hsplit, nonBlank_break] at h
              exact h
            rw [List.nil_append, List.nil_append] at hrest
            rw [replaceAll_match hall (by omega), hdrop, List.cons_append, List.cons_append,
              List.nil_append, nonBlank_append, nonBlank_break, hrest, nonBlank_append, hlines]
          · cases hb
      · rw [replaceAll_cons (breaks_none hc s)]
        have hrest := ih s.length (Nat.lt_succ_self _) (x ++ [c]) s rfl
        rw [List.append_assoc, List.append_assoc] at hrest
        exact hrest

end Lines

section Services

variable {s rest : Text}

theorem afterService_line {w : Text} (hw : w.all (!isSpace ·) = true) (more : Text) :
    afterService ("HiddenService".toList ++ (w ++ ' ' :: more)) =
      some ((more.dropWhile (· ≠ '\n')).drop 1) := by
  have hpre : "HiddenService".toList.isPrefixOf ("HiddenService".toList ++ (w ++ ' ' :: more)) := by
    rw [List.isPrefixOf_iff_prefix]
    exact List.prefix_append _ _
  have hdrop : ("HiddenService".toList ++ (w ++ ' ' :: more)).drop 13 = w ++ ' ' :: more :=
    List.drop_left' rfl
  have hword : (w ++ ' ' :: more).dropWhile (!isSpace ·) = ' ' :: more := by
    rw [List.dropWhile_append_of_pos, List.dropWhile_cons_of_neg]
    · decide
    · exact List.all_eq_true.1 hw
  rw [afterService, if_pos hpre, hdrop, hword]
  rfl

theorem afterService_some (h : afterService s = some rest) :
    ∃ w more : Text, (∀ c ∈ w, isSpace c = false) ∧
      s = "HiddenService".toList ++ (w ++ ' ' :: more) ∧
      rest = (more.dropWhile (· ≠ '\n')).drop 1 := by
  rw [afterService] at h
  split at h
  · next hpre =>
    rw [List.isPrefixOf_iff_prefix] at hpre
    obtain ⟨t, rfl⟩ := hpre
    have hdrop : ("HiddenService".toList ++ t).drop 13 = t := List.drop_left' rfl
    rw [hdrop] at h
    split at h
    · next more hmore =>
      cases h
      refine ⟨t.takeWhile (!isSpace ·), more, ?_, ?_, rfl⟩
      · intro c hc
        have hp := List.mem_takeWhile_imp hc
        rw [Bool.not_eq_true'] at hp
        exact hp
      · rw [← hmore, List.takeWhile_append_dropWhile]
    · cases h
  · cases h

theorem nonBlank_afterService (h : afterService s = some rest) :
    ∃ line, nonBlank s = line :: nonBlank rest := by
  obtain ⟨w, more, hw, rfl, rfl⟩ := afterService_some h
  have hword : '\n' ∉ "HiddenService".toList ++ (w ++ [' ']) := by
    intro hm
    rcases List.mem_append.1 hm with hm | hm
    · revert hm
      decide
    · rcases List.mem_append.1 hm with hm | hm
      · exact absurd (hw _ hm) (by decide)
      · exact absurd (List.mem_singleton.1 hm) (by decide)
  have htake : '\n' ∉ more.takeWhile (· ≠ '\n') := by
    intro hm
    have hp := List.mem_takeWhile_imp hm
    exact absurd rfl (of_decide_eq_true hp)
  have hline : '\n' ∉ ("HiddenService".toList ++ (w ++ [' '])) ++ more.takeWhile (· ≠ '\n') := by
    rw [List.mem_append]
    exact not_or.2 ⟨hword, htake⟩
  have hsplit : "HiddenService".toList ++ (w ++ ' ' :: more) =
      (("HiddenService".toList ++ (w ++ [' '])) ++ more.takeWhile (· ≠ '\n')) ++
        more.dropWhile (· ≠ '\n') := by
    rw [List.append_assoc, List.takeWhile_append_dropWhile, List.append_assoc, List.append_assoc]
    rfl
  have hne : ("HiddenService".toList ++ (w ++ [' '])) ++ more.takeWhile (· ≠ '\n') ≠ [] := by
    intro hnil
    cases hnil
  refine ⟨("HiddenService".toList ++ (w ++ [' '])) ++ more.takeWhile (· ≠ '\n'), ?_⟩
  rw [hsplit]
  cases hd : more.dropWhile (· ≠ '\n') with
  | nil =>
    rw [List.append_nil, nonBlank_line hline hne]
    rfl
  | cons c t =>
    have hc : c = '\n' := by
      have hhead := List.head?_dropWhile_not (· ≠ '\n') more
      rw [hd] at hhead
      exact Decidable.not_not.1 (of_decide_eq_false hhead)
    rw [hc, nonBlank_append, nonBlank_line hline hne]
    rfl

theorem length_afterService (h : afterService s = some rest) : rest.length < s.length := by
  obtain ⟨w, more, -, rfl, rfl⟩ := afterService_some h
  have hle := (List.dropWhile_sublist (· ≠ '\n') (l := more)).length_le
  rw [List.length_drop, List.length_append, List.length_append, List.length_cons]
  omega

theorem afterServices_eq {n : Nat} (h : s.length ≤ n) : afterServices n s = services s := by
  induction n using Nat.strong_induction_on generalizing s with
  | _ n ih =>
    cases n with
    | zero =>
      rw [List.eq_nil_of_length_eq_zero (Nat.le_zero.1 h)]
      rfl
    | succ n =>
      rw [services, afterServices]
      cases ha : afterService s with
      | none =>
        cases s with
        | nil => rfl
        | cons c s =>
          rw [List.length_cons, afterServices, ha]
      | some rest =>
        have hlen := length_afterService ha
        cases s with
        | nil => exact absurd hlen (Nat.not_lt_zero _)
        | cons c s =>
          rw [List.length_cons] at h hlen
          rw [List.length_cons, afterServices, ha]
          have hrest := ih n (Nat.lt_succ_self n) (s := rest) (by omega)
          have hself := ih s.length (by omega) (s := rest) (by omega)
          exact hrest.trans hself.symm

theorem services_none (h : afterService s = none) : services s = s := by
  cases s with
  | nil => rfl
  | cons c s => rw [services, List.length_cons, afterServices, h]

theorem services_some (h : afterService s = some rest) : services s = services rest := by
  have hlen := length_afterService h
  cases s with
  | nil => exact absurd hlen (Nat.not_lt_zero _)
  | cons c s =>
    rw [List.length_cons] at hlen
    rw [services, List.length_cons, afterServices, h]
    exact afterServices_eq (by omega)

theorem length_nonBlank_services (s : Text) :
    (nonBlank (services s)).length ≤ (nonBlank s).length := by
  induction hl : s.length using Nat.strong_induction_on generalizing s with
  | _ l ih =>
    subst hl
    cases h : afterService s with
    | none => rw [services_none h]
    | some rest =>
      obtain ⟨line, hline⟩ := nonBlank_afterService h
      have hrest := ih rest.length (length_afterService h) rest rfl
      rw [services_some h, hline, List.length_cons]
      omega

end Services

section Replacement

variable {before matched after : Text}

theorem expand_cons {c : Char} (h : c ≠ '$') (t : Text) :
    expand before matched after (c :: t) = c :: expand before matched after t := by
  rw [expand]
  exact fun _ _ hc => absurd hc h

theorem expand_plain {x : Text} (h : '$' ∉ x) (y : Text) :
    expand before matched after (x ++ y) = x ++ expand before matched after y := by
  induction x with
  | nil => rfl
  | cons c x ih =>
    rw [List.cons_append, expand_cons (fun hc => h (hc ▸ List.mem_cons_self)),
      ih fun hm => h (List.mem_cons_of_mem c hm)]
    rfl

theorem expand_line (x y : Text) : expand before matched after (x ++ '\n' :: y) =
    expand before matched after x ++ '\n' :: expand before matched after y := by
  induction x using expand.induct with
  | case1 => exact expand_cons (by decide) y
  | case2 t ih =>
    rw [List.cons_append, List.cons_append, expand, if_pos rfl, expand, if_pos rfl, ih]
    rfl
  | case3 t h1 ih =>
    rw [List.cons_append, List.cons_append, expand, if_neg h1, if_pos rfl, expand, if_neg h1,
      if_pos rfl, ih, List.append_assoc]
  | case4 c t h1 h2 h3 ih =>
    rw [List.cons_append, List.cons_append, expand, if_neg h1, if_neg h2, if_pos h3, expand,
      if_neg h1, if_neg h2, if_pos h3, ih, List.append_assoc]
  | case5 c t h1 h2 h3 h4 ih =>
    rw [List.cons_append, List.cons_append, expand, if_neg h1, if_neg h2, if_neg h3, if_pos h4,
      expand, if_neg h1, if_neg h2, if_neg h3, if_pos h4, ih, List.append_assoc]
  | case6 c t h1 h2 h3 h4 ih =>
    rw [List.cons_append, List.cons_append, expand, if_neg h1, if_neg h2, if_neg h3, if_neg h4,
      ← List.cons_append, ih, expand, if_neg h1, if_neg h2, if_neg h3, if_neg h4]
    rfl
  | case7 c t hc ih =>
    by_cases hd : c = '$'
    · subst hd
      cases t with
      | nil => rfl
      | cons d t => exact absurd rfl (hc d t rfl)
    · rw [List.cons_append, expand_cons hd, expand_cons hd, ih]
      rfl

theorem expand_block (hsDir : Text) : expand before matched after (torrcBlock hsDir) =
    torrcMark ++ '\n' :: ("HiddenServiceDir ".toList ++ expand before matched after hsDir ++
      "\nHiddenServicePort 80 127.0.0.1:8080\n".toList) := by
  have hport : expand before matched after "HiddenServicePort 80 127.0.0.1:8080\n".toList =
      "HiddenServicePort 80 127.0.0.1:8080\n".toList := rfl
  have hmark : '$' ∉ torrcMark ++ '\n' :: "HiddenServiceDir ".toList := by decide
  have hsplit : torrcBlock hsDir = (torrcMark ++ '\n' :: "HiddenServiceDir ".toList) ++
      (hsDir ++ '\n' :: "HiddenServicePort 80 127.0.0.1:8080\n".toList) := by
    rw [torrcBlock, List.append_assoc, List.append_assoc]
    rfl
  rw [hsplit, expand_plain hmark, expand_line, hport, List.append_assoc, List.append_assoc]
  rfl

/-- The block stands for itself when its folder does. -/
theorem expand_block_iff (hsDir : Text) :
    expand before matched after (torrcBlock hsDir) = torrcBlock hsDir ↔
      expand before matched after hsDir = hsDir := by
  rw [expand_block, torrcBlock, List.append_cancel_left_eq]
  constructor
  · intro h
    have h2 := (List.cons.inj h).2
    rw [List.append_assoc, List.append_assoc, List.append_cancel_left_eq,
      List.append_cancel_right_eq] at h2
    exact h2
  · intro h
    rw [h]

end Replacement

section Merge

variable {T hsDir R : Text}

/-- The block that is put in is the one that is found again. -/
theorem cut_merged (hT : ¬ torrcMark <:+: T) (found : Text) :
    cut (torrcMark ++ ['\n']) (trimBreaks T ++ ['\n', '\n'] ++ (torrcMark ++ '\n' :: found)) =
      some (trimBreaks T ++ ['\n', '\n'], found) := by
  have hnone : cut torrcMark (trimBreaks T) = none := by
    rw [cut_none_iff (by decide)]
    exact fun h => hT (h.trans (List.rdropWhile_prefix _ _).isInfix)
  have hbefore : cut torrcMark (trimBreaks T ++ '\n' :: ['\n']) = none := by
    rw [cut_append_stop (by decide) (by decide), hnone]
    rfl
  rw [cut_none_iff (by decide)] at hbefore
  have hmark : cut (torrcMark ++ ['\n']) (trimBreaks T ++ ['\n', '\n']) = none := by
    rw [cut_none_iff (by decide)]
    exact fun h => hbefore ((List.prefix_append _ _).isInfix.trans h)
  have hhash : '#' ∉ torrcMark.tail ++ ['\n'] := by
    decide
  have hline := cut_append_line (a := trimBreaks T ++ ['\n', '\n']) (b := found) hhash hmark
  rw [← hline, List.append_assoc _ ('#' :: _)]
  rfl

theorem mergeTorrc_new (hT : ¬ torrcMark <:+: T) (hsDir : Text) :
    mergeTorrc T hsDir = trimBreaks T ++ ['\n', '\n'] ++ torrcBlock hsDir := by
  have hnone : cut (torrcMark ++ ['\n']) T = none := by
    rw [cut_none_iff (by decide)]
    exact fun h => hT ((List.prefix_append _ _).isInfix.trans h)
  rw [mergeTorrc, hnone]

/-- The two lines of the block, and the lines after it that look like them. -/
theorem services_block (hdir : '\n' ∉ hsDir) (R : Text) :
    services ("HiddenServiceDir ".toList ++ hsDir ++
      "\nHiddenServicePort 80 127.0.0.1:8080\n".toList ++ R) = services R := by
  have hport : afterService ("HiddenServicePort 80 127.0.0.1:8080\n".toList ++ R) = some R :=
    afterService_line (w := "Port".toList) (by decide) ("80 127.0.0.1:8080\n".toList ++ R)
  have hfolder : afterService ("HiddenServiceDir ".toList ++ (hsDir ++
      '\n' :: ("HiddenServicePort 80 127.0.0.1:8080\n".toList ++ R))) =
      some ("HiddenServicePort 80 127.0.0.1:8080\n".toList ++ R) := by
    have hline := afterService_line (w := "Dir".toList) (by decide)
      (hsDir ++ '\n' :: ("HiddenServicePort 80 127.0.0.1:8080\n".toList ++ R))
    rw [List.dropWhile_append_of_pos, List.dropWhile_cons_of_neg (by decide)] at hline
    · exact hline
    · intro c hc
      exact decide_eq_true fun h => hdir (h ▸ hc)
  rw [List.append_assoc, List.append_assoc]
  exact (services_some hfolder).trans (services_some hport)

theorem merged_eq (hT : ¬ torrcMark <:+: T) (hsDir R : Text) : mergeTorrc T hsDir ++ R =
    trimBreaks T ++ ['\n', '\n'] ++ (torrcMark ++ '\n' :: ("HiddenServiceDir ".toList ++ hsDir ++
      "\nHiddenServicePort 80 127.0.0.1:8080\n".toList ++ R)) := by
  rw [mergeTorrc_new hT, torrcBlock, List.append_assoc _ _ R, List.append_assoc torrcMark]
  rfl

theorem nonBlank_dropBreaks (s : Text) : nonBlank (s.dropWhile (· = '\n')) = nonBlank s := by
  have hbreaks : ∀ c ∈ s.takeWhile (· = '\n'), c = '\n' := by
    intro c hc
    have hp := List.mem_takeWhile_imp hc
    exact of_decide_eq_true hp
  rw [← nonBlank_breaks hbreaks (s.dropWhile (· = '\n')), List.takeWhile_append_dropWhile]

theorem nonBlank_stripTorrc (hT : ¬ torrcMark <:+: T) (hdir : '\n' ∉ hsDir) (R : Text) :
    nonBlank (stripTorrc (mergeTorrc T hsDir ++ R)).1 = nonBlank T ++ nonBlank (services R) := by
  have hbefore : nonBlank (trimBreaks T ++ ['\n', '\n']) = nonBlank T := by
    rw [nonBlank_append_breaks _ two_breaks, nonBlank_trimBreaks]
  have hall := nonBlank_replaceAll []
    (trimBreaks (trimBreaks T ++ ['\n', '\n']) ++ '\n' :: services R)
  rw [List.nil_append, List.nil_append] at hall
  rw [merged_eq hT, stripTorrc, cut_merged hT]
  dsimp only
  rw [services_block hdir, nonBlank_dropBreaks, hall, nonBlank_append, nonBlank_trimBreaks, hbefore]

/-- The block that is found is put in again. -/
theorem mergeTorrc_again (hT : ¬ torrcMark <:+: T) (hdir : '\n' ∉ hsDir)
    (hR : afterService R = none) : mergeTorrc (mergeTorrc T hsDir ++ R) hsDir =
      trimBreaks T ++ ['\n', '\n'] ++
        expand (trimBreaks T ++ ['\n', '\n']) (torrcBlock hsDir) R (torrcBlock hsDir) ++ R := by
  rw [merged_eq hT, mergeTorrc, cut_merged hT]
  dsimp only
  rw [services_block hdir, services_none hR]
  have hblock (a : Text) : (a ++ R).take ((a ++ R).length - R.length) = a := by
    rw [List.length_append, Nat.add_sub_cancel, List.take_left]
  rw [hblock]
  rfl

/-- The lines around the managed block stay, and the block does too when it is put in again, unless
a line after it looks like one of its own or its folder is a replacement pattern. -/
theorem torrc_framed (hT : ¬ torrcMark <:+: T) (hdir : '\n' ∉ hsDir) (R : Text) :
    (nonBlank (stripTorrc (mergeTorrc T hsDir ++ R)).1 = nonBlank T ++ nonBlank R ∧
      mergeTorrc (mergeTorrc T hsDir ++ R) hsDir = mergeTorrc T hsDir ++ R) ↔
    (afterService R = none ∧
      expand (trimBreaks T ++ ['\n', '\n']) (torrcBlock hsDir) R hsDir = hsDir) := by
  rw [nonBlank_stripTorrc hT hdir]
  constructor
  · rintro ⟨hlines, hsame⟩
    cases hR : afterService R with
    | none =>
      refine ⟨rfl, ?_⟩
      rw [mergeTorrc_again hT hdir hR, mergeTorrc_new hT, List.append_cancel_right_eq,
        List.append_cancel_left_eq, expand_block_iff] at hsame
      exact hsame
    | some rest =>
      -- the line that is taken for one of the block's is gone
      obtain ⟨line, hline⟩ := nonBlank_afterService hR
      have hless := length_nonBlank_services rest
      rw [List.append_cancel_left_eq, services_some hR, hline] at hlines
      rw [hlines, List.length_cons] at hless
      omega
  · rintro ⟨hR, hfolder⟩
    constructor
    · rw [services_none hR]
    · rw [mergeTorrc_again hT hdir hR, (expand_block_iff hsDir).2 hfolder, mergeTorrc_new hT]

def socks : Text := "SocksPort 9050\n".toList

def miseDir : Text := "/var/lib/tor/mise".toList

theorem control_port_framed :
    nonBlank (stripTorrc (mergeTorrc socks miseDir ++ "ControlPort 9051\n".toList)).1 =
      nonBlank socks ++ nonBlank "ControlPort 9051\n".toList ∧
    mergeTorrc (mergeTorrc socks miseDir ++ "ControlPort 9051\n".toList) miseDir =
      mergeTorrc socks miseDir ++ "ControlPort 9051\n".toList :=
  (torrc_framed (by decide +kernel) (by decide) _).2 ⟨by decide, by decide⟩

def otherService : Text := "HiddenServiceDir /var/lib/tor/other\nHiddenServicePort 80 127.0.0.1:9000\n".toList

/-- The operator's next service goes with the block. -/
theorem next_service_taken :
    ¬ torrcMark <:+: socks ∧ '\n' ∉ miseDir ∧ ¬ torrcMark <:+: otherService ∧
    (stripTorrc (mergeTorrc socks miseDir ++ otherService)).1 = socks ∧
    nonBlank (stripTorrc (mergeTorrc socks miseDir ++ otherService)).1 ≠
      nonBlank socks ++ nonBlank otherService := by
  decide +kernel

end Merge

end Mise.System
