import Mise.System.Recover

set_option autoImplicit true

namespace Mise.System

open Js Server

section Recovered

variable {s v x : Text} {c : Char} {start : Bool}

theorem mem_splitOnP_isBreak (h : x ∈ s.splitOnP isBreak) (hc : c ∈ x) : c ∈ s ∧ isBreak c = false := by
  induction s generalizing x with
  | nil =>
    rw [List.splitOnP_nil, List.mem_singleton] at h
    rw [h] at hc
    cases hc
  | cons d s ih =>
    rw [List.splitOnP_cons_eq_if_modifyHead] at h
    split at h
    · rcases List.mem_cons.1 h with rfl | h
      · cases hc
      · exact ⟨List.mem_cons_of_mem d (ih h hc).1, (ih h hc).2⟩
    · next hd =>
      obtain ⟨y, l, hl⟩ := List.exists_cons_of_ne_nil (List.splitOnP_ne_nil isBreak s)
      rw [hl, List.modifyHead_cons] at h
      rw [hl] at ih
      rcases List.mem_cons.1 h with rfl | h
      · rcases List.mem_cons.1 hc with rfl | hc
        · exact ⟨List.mem_cons_self, Bool.eq_false_iff.2 hd⟩
        · have hy := ih List.mem_cons_self hc
          exact ⟨List.mem_cons_of_mem d hy.1, hy.2⟩
      · have hx := ih (List.mem_cons_of_mem y h) hc
        exact ⟨List.mem_cons_of_mem d hx.1, hx.2⟩

theorem mem_first {key : Text} (h : first key s = some v) (hc : c ∈ v) : c ∈ s ∧ isBreak c = false := by
  obtain ⟨l, hl, rfl⟩ := Option.map_eq_some_iff.1 h
  exact mem_splitOnP_isBreak (List.mem_of_find?_eq_some hl) (List.mem_of_mem_drop (mem_trimmed hc))

theorem mem_wordOf (h : wordOf s = some v) (hc : c ∈ v) : c ∈ s ∧ isSpace c = false := by
  have hmem : c ∈ (s.dropWhile isSpace).takeWhile (!isSpace ·) → c ∈ s ∧ isSpace c = false := by
    intro hc
    have hspace := List.mem_takeWhile_imp hc
    rw [Bool.not_eq_true'] at hspace
    exact ⟨(List.dropWhile_suffix _).subset ((List.takeWhile_prefix _).subset hc), hspace⟩
  rw [wordOf] at h
  split at h
  · cases h
  · split at h
    · rw [← Option.some.inj h] at hc
      exact hmem hc
    · cases h

theorem mem_execFrom (h : execFrom start s = some v) (hc : c ∈ v) : c ∈ s ∧ isSpace c = false := by
  induction s generalizing start with
  | nil => cases h
  | cons d s ih =>
    rw [execFrom, Option.orElse_eq_some] at h
    rcases h with h | ⟨-, h⟩
    · split at h
      · obtain ⟨u, y, hs, -, hv⟩ := scriptOf_some h
        have hy := mem_wordOf hv hc
        have hmem : c ∈ (d :: s).drop 10 := by
          rw [hs]
          exact List.mem_append_right u (List.mem_append_right _ hy.1)
        exact ⟨List.mem_of_mem_drop hmem, hy.2⟩
      · cases h
    · have hd := ih h
      exact ⟨List.mem_cons_of_mem d hd.1, hd.2⟩

theorem mem_without {ending : Text} (h : without ending s = some v) (hc : c ∈ v) : c ∈ s := by
  rw [without] at h
  split at h
  · rw [← Option.some.inj h] at hc
    exact List.mem_of_mem_take hc
  · cases h

theorem mem_recovered (h : (recoverUnitValues s).webRoot = some v) (hc : c ∈ v) :
    c ∈ s ∧ isBreak c = false := by
  have hexec : ∀ {ending}, ((execFrom true s).map trimmed).bind (without ending) = some v →
      c ∈ s ∧ isBreak c = false := by
    intro ending h
    obtain ⟨w, hw, hv⟩ := Option.bind_eq_some_iff.1 h
    obtain ⟨x, hx, rfl⟩ := Option.map_eq_some_iff.1 hw
    obtain ⟨hmem, hspace⟩ := mem_execFrom hx (mem_trimmed (mem_without hv hc))
    refine ⟨hmem, ?_⟩
    cases hbreak : isBreak c with
    | false => rfl
    | true => exact absurd (isSpace_of_isBreak hbreak) (Bool.eq_false_iff.1 hspace)
  have hroot := (Option.filter_eq_some_iff.1 h).1
  rw [Option.orElse_eq_some, Option.orElse_eq_some] at hroot
  rcases hroot with hv | ⟨-, hv | ⟨-, hv⟩⟩
  · exact hexec hv
  · exact hexec hv
  · obtain ⟨wd, hwd, rfl⟩ := Option.map_eq_some_iff.1 hv
    have hfirst := (Option.filter_eq_some_iff.1 hwd).1
    apply mem_first hfirst
    cases hw : without "/server".toList wd with
    | none =>
      rw [hw] at hc
      exact hc
    | some x =>
      rw [hw] at hc
      exact mem_without hw hc

end Recovered

section Nginx

variable {new before x y s key : Text} {v w : UnitValues} {c : Char}

theorem subst_fixed (hne : key ≠ []) (hnew : literal new = true) (h : cut key s = some (x, y)) :
    substFrom (fixed key) new before 0 s = x ++ (new ++ substFrom (fixed key) new (before ++ x ++ key) 0 y) := by
  have hs := cut_some h
  rw [hs, List.append_assoc] at h ⊢
  have hbefore : ∀ u v, x = u ++ v → v ≠ [] → fixed key (before ++ u) (v ++ (key ++ y)) = none := by
    intro u v hx hv
    rw [fixed, if_neg]
    rw [List.isPrefixOf_iff_prefix]
    rintro ⟨rest, hrest⟩
    rw [hx, List.append_assoc, ← hrest, ← List.append_assoc] at h
    have hle := cut_le h
    rw [List.length_append] at hle
    exact hv (List.length_eq_zero_iff.1 (by omega))
  have hmatch : fixed key (before ++ x) (key ++ y) = some key.length := by
    rw [fixed, if_pos]
    rw [List.isPrefixOf_iff_prefix]
    exact List.prefix_append _ _
  rw [substFrom_none hbefore, substFrom_match hne hmatch hnew]

theorem subst_fixed_none (hne : key ≠ []) (h : cut key s = none) :
    substFrom (fixed key) new before 0 s = s := by
  have hno := (cut_none_iff hne).1 h
  have hnone : ∀ u v, s = u ++ v → v ≠ [] → fixed key (before ++ u) (v ++ []) = none := by
    intro u v hs _
    rw [fixed, if_neg]
    rw [List.append_nil, List.isPrefixOf_iff_prefix]
    exact fun hp => hno (hp.isInfix.trans (hs ▸ (List.suffix_append u v).isInfix))
  have hkeep : substFrom (fixed key) new before 0 (s ++ []) =
      s ++ substFrom (fixed key) new (before ++ s) 0 [] := substFrom_none hnone
  rw [List.append_nil, substFrom, List.append_nil] at hkeep
  exact hkeep

theorem mem_subst {m : Place} (hnew : literal new = true) (h : c ∈ subst m new s) : c ∈ new ∨ c ∈ s := by
  have hfrom : ∀ {before n}, c ∈ substFrom m new before n s → c ∈ new ∨ c ∈ s := by
    clear h
    induction s with
    | nil => exact fun hc => .inr hc
    | cons d s ih =>
      intro before n hc
      have htail : ∀ {before n}, c ∈ substFrom m new before n s → c ∈ new ∨ c ∈ d :: s := by
        intro before n hc
        rcases ih hc with hc | hc
        · exact .inl hc
        · exact .inr (List.mem_cons_of_mem d hc)
      cases n with
      | succ n => exact htail hc
      | zero =>
        rw [substFrom] at hc
        split at hc
        · rw [expand_literal hnew] at hc
          rcases List.mem_append.1 hc with hc | hc
          · exact .inl hc
          · exact htail hc
        · rcases List.mem_cons.1 hc with rfl | hc
          · exact .inr List.mem_cons_self
          · exact htail hc
  exact hfrom h

/-- A mark that stands once in a text. -/
def once (mark text : Text) : Bool :=
  match cut mark text with
  | some (_, rest) => (cut mark rest).isNone
  | none => false

set_option maxRecDepth 20000 in
theorem nginxSite_once : once "root /var/www/mise;".toList nginxSite = true :=
  of_literal (once "root /var/www/mise;".toList) (by decide +kernel)

/-- The site shows the web root that it serves. -/
theorem renderNginx_inj (hv : '$' ∉ shown v.webRoot) (hw : '$' ∉ shown w.webRoot)
    (h : renderNginx nginxSite v = renderNginx nginxSite w) : shown v.webRoot = shown w.webRoot := by
  have honce := nginxSite_once
  rw [once] at honce
  split at honce
  · next x y hcut =>
    have hne : "root /var/www/mise;".toList ≠ [] := by decide
    rw [Option.isNone_iff_eq_none] at honce
    have hrender : ∀ v : UnitValues, '$' ∉ shown v.webRoot → renderNginx nginxSite v =
        x ++ ("root ".toList ++ shown v.webRoot ++ [';'] ++ y) := by
      intro v hv
      have hliteral : literal ("root ".toList ++ shown v.webRoot ++ [';']) = true := by
        apply literal_of_not_mem
        rw [List.mem_append, List.mem_append]
        exact not_or.2 ⟨not_or.2 ⟨by decide, hv⟩, by decide⟩
      rw [renderNginx, subst, subst_fixed hne hliteral hcut, subst_fixed_none hne honce]
    rw [hrender v hv, hrender w hw] at h
    have htail := List.append_cancel_right (List.append_cancel_left h)
    exact List.append_cancel_left (List.append_cancel_right htail)
  · cases honce

end Nginx

section Accepted

variable {w host adminCode v : Text} {c : Char}

theorem code_char (h : c.isAlphanum = true) : isSpace c = false ∧ c ≠ '$' ∧ c ≠ '=' := by
  have hc := alphanum_all (fun c => !isSpace c && c != '$' && c != '=') (by decide +kernel) h
  simpa [and_assoc] using hc

theorem code_chars (h : isPaymentCode adminCode = true) (hc : c ∈ adminCode) :
    isSpace c = false ∧ c ≠ '$' ∧ c ≠ '=' := by
  rw [isPaymentCode, Bool.and_eq_true] at h
  have hbase := List.all_eq_true.1 h.2 c hc
  simp only [base58, Bool.and_eq_true] at hbase
  exact code_char hbase.1.1.1.1

theorem withoutPath_append (v : Text) : ∃ rest, v = withoutPath v ++ rest ∧ rest.all (!isBreak ·) = true := by
  induction v with
  | nil => exact ⟨[], rfl, rfl⟩
  | cons c v ih =>
    rw [withoutPath]
    split
    · next h =>
      rw [Bool.and_eq_true, decide_eq_true_eq] at h
      refine ⟨c :: v, rfl, ?_⟩
      rw [h.1, List.all_cons, h.2]
      rfl
    · obtain ⟨rest, hrest, hall⟩ := ih
      exact ⟨rest, congrArg (c :: ·) hrest, hall⟩

theorem withoutScheme_append (v : Text) :
    ∃ scheme, v = scheme ++ withoutScheme v ∧ scheme.all (!isBreak ·) = true := by
  rw [withoutScheme]
  split
  · next h =>
    obtain ⟨t, rfl⟩ := List.isPrefixOf_iff_prefix.1 h
    exact ⟨"https://".toList, rfl, by decide⟩
  · split
    · next h =>
      obtain ⟨t, rfl⟩ := List.isPrefixOf_iff_prefix.1 h
      exact ⟨"http://".toList, rfl, by decide⟩
    · exact ⟨[], rfl, rfl⟩

theorem host_line (h : isOnionHost host = true) (htrimmed : trimmed host = host) :
    host.all (!isBreak ·) = true ∧ EndsWord host := by
  rw [isOnionHost, htrimmed, Bool.and_eq_true, decide_eq_true_eq] at h
  constructor
  · obtain ⟨scheme, hscheme, hs⟩ := withoutScheme_append host
    obtain ⟨rest, hrest, hr⟩ := withoutPath_append (withoutScheme host)
    have hhost : (withoutPath (withoutScheme host)).all (!isBreak ·) = true := by
      rw [← List.take_append_drop 56 (withoutPath (withoutScheme host)), List.all_append, h.2,
        Bool.and_eq_true]
      refine ⟨List.all_eq_true.2 fun c hc => ?_, by decide⟩
      have hc' := List.all_eq_true.1 h.1 c hc
      have halnum : c.isAlphanum = true := by
        rw [Bool.or_eq_true] at hc'
        rcases hc' with hc' | hc'
        · change (c.isUpper || c.isLower || c.isDigit) = true
          rw [hc', Bool.or_true, Bool.true_or]
        · rw [Bool.and_eq_true, decide_eq_true_eq, decide_eq_true_eq] at hc'
          have hdigit : c.isDigit = true := by
            rw [Char.isDigit, Bool.and_eq_true, decide_eq_true_eq, decide_eq_true_eq]
            exact ⟨UInt32.le_trans (by decide) hc'.1, UInt32.le_trans hc'.2 (by decide)⟩
          rw [Char.isAlphanum, hdigit, Bool.or_true]
      rw [Bool.not_eq_true']
      cases hbreak : isBreak c with
      | false => rfl
      | true => exact absurd (isSpace_of_isBreak hbreak) (Bool.eq_false_iff.1 (code_char halnum).1)
    rw [hscheme, List.all_append, hs, hrest, List.all_append, hhost, hr]
    rfl
  · intro c hc
    rw [← htrimmed, trimmed, List.getLast?_reverse] at hc
    exact trimStart_head _ c hc

theorem code_line (h : isPaymentCode adminCode = true) : trimmed adminCode = adminCode ∧
    adminCode.all (!isBreak ·) = true := by
  have hword : adminCode.all (!isSpace ·) = true := by
    rw [List.all_eq_true]
    intro c hc
    rw [(code_chars h hc).1]
    rfl
  exact ⟨trimmed_word hword, noBreak_of_noSpace hword⟩

variable {path : Text}

theorem Accepted.settable (h : Accepted w host adminCode) {root : Text} (hfrom : FromRoot root)
    (hliteral : literal root = true) (hunmarked : ∀ key ∈ laterKeys, ¬ key <:+: root)
    (hline : root.all (!isBreak ·) = true) (hhost : literal host = true)
    (hkeys : ∀ key ∈ laterKeys.tail, ¬ key <:+: host) : Settable root host adminCode where
  from_root := hfrom
  root_literal := hliteral
  host_literal := hhost
  code_literal hc := (code_chars h.code hc).2.1 rfl
  root_unmarked := hunmarked
  host_unmarked := hkeys
  code_unmarked hc := (code_chars h.code hc).2.2 rfl
  root_line := hline
  host_line := (host_line h.host_onion h.host_trimmed).1
  code_line := (code_line h.code).2

theorem rendered_unit (h : Settable (rootOf ('/' :: path)) host adminCode) :
    renderServerUnit serverUnit (installedValues ('/' :: path) host adminCode) =
      some (['\n'].intercalate (unitLines (rootOf ('/' :: path)) host adminCode)) := by
  rw [renderServerUnit_eq, rendered_lines h]

theorem Accepted.recovered (h : Accepted w host adminCode) {root : Text}
    (hs : Settable root host adminCode) :
    recoverUnitValues (['\n'].intercalate (unitLines root host adminCode)) =
      { installedValues w host adminCode with
        webRoot := (some (recoveredRoot root)).filter (· ≠ []) } := by
  have hurl : trimmed ("http://".toList ++ host) = "http://".toList ++ host := by
    apply trimmed_self
    · intro c hc
      cases hc
      decide
    · intro c hc
      rw [List.getLast?_append] at hc
      cases hlast : host.getLast? with
      | none =>
        rw [hlast] at hc
        cases hc
        decide
      | some d =>
        rw [hlast] at hc
        cases hc
        exact (host_line h.host_onion h.host_trimmed).2 _ hlast
  exact recover_unit hs hurl (code_line h.code).1

theorem Accepted.recovered_self (h : Accepted w host adminCode) {root : Text}
    (hs : Settable root host adminCode)
    (hrecovered : (recoverUnitValues (['\n'].intercalate (unitLines root host adminCode))).webRoot =
      some w) : recoveredRoot root = w := by
  have hwebRoot : (recoverUnitValues (['\n'].intercalate (unitLines root host adminCode))).webRoot =
      (some (recoveredRoot root)).filter (· ≠ []) := by
    rw [h.recovered hs]
  rw [hwebRoot, Option.filter_eq_some_iff] at hrecovered
  exact Option.some.inj hrecovered.1

theorem Recoverable.root_eq (h : Recoverable ('/' :: path) host) : rootOf ('/' :: path) = '/' :: path := by
  have hjoined := h.joined
  rw [join_server] at hjoined
  exact List.append_cancel_right hjoined

/-- The values of an installation are recovered from its backend unit. -/
theorem recovered_installed (h : Accepted webRoot host adminCode) (hr : Recoverable webRoot host) :
    ∃ unit, renderServerUnit serverUnit (installedValues webRoot host adminCode) = some unit ∧
      recoverUnitValues unit = installedValues webRoot host adminCode := by
  cases webRoot with
  | nil =>
    have habsolute := h.root_absolute
    cases habsolute
  | cons d path =>
    have hd : d = '/' := Option.some.inj h.root_absolute
    subst hd
    have hs : Settable (rootOf ('/' :: path)) host adminCode := by
      rw [hr.root_eq]
      exact h.settable (.inr ⟨path, rfl⟩) hr.root_literal hr.root_unmarked hr.one_line hr.host_literal
        hr.host_unmarked
    have hrecovered := h.recovered hs
    have hroot : recoveredRoot (rootOf ('/' :: path)) = '/' :: path := by
      rw [hr.root_eq, recoveredRoot, if_neg hr.last_word]
    rw [hroot, Option.filter_some, if_pos (decide_eq_true (List.cons_ne_nil '/' path))] at hrecovered
    exact ⟨_, rendered_unit hs, hrecovered⟩

theorem survives_of_recoverable (h : Accepted webRoot host adminCode) (hr : Recoverable webRoot host) :
    Survives (installedValues webRoot host adminCode) := by
  obtain ⟨unit, hunit, hvalues⟩ := recovered_installed h hr
  refine ⟨unit, hunit, ?_, ?_, ?_, ?_⟩
  · rw [hvalues]
    exact hunit
  · rw [hvalues]
  · rw [hvalues]
  · rw [hvalues]

/-- A mark is nowhere in the installed unit, if it is not in the values. -/
theorem not_mem_rendered {settings : List Setting} (h : ∀ s ∈ settings, literal s.line = true ∧ c ∉ s.line)
    {text : Text} (htext : c ∉ text) : c ∉ settings.foldl Setting.apply text := by
  induction settings generalizing text with
  | nil => exact htext
  | cons s settings ih =>
    rw [List.foldl_cons]
    apply ih fun s' hs' => h s' (List.mem_cons_of_mem s hs')
    obtain ⟨hliteral, hs⟩ := h s List.mem_cons_self
    intro hc
    rcases mem_subst hliteral hc with hc | hc
    · exact hs hc
    · exact htext hc

set_option maxRecDepth 20000 in
theorem serverUnit_dollar : '$' ∉ serverUnit := by
  have hall : serverUnit.all (· ≠ '$') = true := of_literal (fun s => s.all (· ≠ '$')) (by decide +kernel)
  intro hc
  exact absurd (List.all_eq_true.1 hall '$' hc) (by decide)

theorem not_mem_settings {root : Text} (hroot : '$' ∉ root) (hhost : '$' ∉ host) (hcode : '$' ∉ adminCode) :
    ∀ s ∈ serverSettings root host adminCode, literal s.line = true ∧ '$' ∉ s.line := by
  have hkeys : serverKeys.all (fun k => k.all (· ≠ '$')) = true := by decide
  have hfixed : '$' ∉ serviceUser ∧ '$' ∉ "/server".toList ∧ '$' ∉ "http://".toList ∧
      '$' ∉ "/usr/bin/env node ".toList ∧ '$' ∉ "/server/index.mjs".toList := by decide
  obtain ⟨huser, hdir, hurl, hnode, hindex⟩ := hfixed
  intro s hs
  have hkey : '$' ∉ s.key := by
    intro hc
    exact absurd (List.all_eq_true.1 (List.all_eq_true.1 hkeys s.key (mem_serverKeys hs)) '$' hc) (by decide)
  have hvalue : '$' ∉ s.value := by
    simp only [serverSettings, List.mem_cons, List.not_mem_nil, or_false] at hs
    rcases hs with rfl | rfl | rfl | rfl | rfl | rfl
    · exact huser
    · exact huser
    · exact fun hc => (List.mem_append.1 hc).elim hroot hdir
    · exact fun hc => (List.mem_append.1 hc).elim hurl hhost
    · exact hcode
    · exact fun hc => (List.mem_append.1 hc).elim hnode fun hc => (List.mem_append.1 hc).elim hroot hindex
  have hline : '$' ∉ s.line := fun hc => (List.mem_append.1 hc).elim hkey hvalue
  exact ⟨literal_of_not_mem hline, hline⟩

theorem unmarked_of_equals {keys : List Text} (hkeys : ∀ k ∈ keys, '=' ∈ k) (h : '=' ∉ v) :
    ∀ k ∈ keys, ¬ k <:+: v :=
  fun k hk hi => h (hi.subset (hkeys k hk))

theorem not_mem_rootOf (hc : c ≠ '/') (h : c ∉ w) : c ∉ rootOf w := by
  intro hm
  rcases mem_rooted_segmentsOf hm with h' | h'
  · exact hc h'
  · exact h h'

theorem recovered_root_eq {unit : Text} (h : Accepted ('/' :: path) host adminCode)
    (hpath : '$' ∉ '/' :: path) (hhost : '$' ∉ host)
    (hunit : renderServerUnit serverUnit (installedValues ('/' :: path) host adminCode) = some unit)
    (hagain : renderServerUnit serverUnit (recoverUnitValues unit) = some unit)
    (hnginx : renderNginx nginxSite (recoverUnitValues unit) =
      renderNginx nginxSite (installedValues ('/' :: path) host adminCode)) :
    (recoverUnitValues unit).webRoot = some ('/' :: path) ∧ ('/' :: path).all (!isBreak ·) = true := by
  rw [renderServerUnit_eq] at hunit
  have hdollar : '$' ∉ unit := by
    rw [← Option.some.inj hunit]
    have hcode : '$' ∉ adminCode := fun hc => (code_chars h.code hc).2.1 rfl
    exact not_mem_rendered (not_mem_settings (not_mem_rootOf (by decide) hpath) hhost hcode)
      serverUnit_dollar
  obtain ⟨v, hv, -⟩ := Option.map_eq_some_iff.1 hagain
  have hshown : shown (recoverUnitValues unit).webRoot = v := by
    rw [hv]
    rfl
  have hvdollar : '$' ∉ shown (recoverUnitValues unit).webRoot := by
    rw [hshown]
    exact fun hc => hdollar (mem_recovered hv hc).1
  have hroot : v = '/' :: path := by
    have hinj := renderNginx_inj hvdollar (w := installedValues ('/' :: path) host adminCode) hpath hnginx
    rw [hshown] at hinj
    exact hinj
  subst hroot
  refine ⟨hv, List.all_eq_true.2 fun c hc => ?_⟩
  rw [(mem_recovered hv hc).2]
  rfl

theorem recoveredRoot_self {root : Text} (hmem : ∀ c ∈ root, c = '/' ∨ c ∈ w) (hw : w ≠ [])
    (h : recoveredRoot root = w) : root = w ∧ ¬ "node".toList <:+ beforeLastWord w := by
  rw [recoveredRoot] at h
  split at h
  · next hnode =>
    have hword : w.all (!isSpace ·) = true := by
      rw [← h]
      exact List.all_eq_true.2 fun d hd => List.mem_rtakeWhile_imp (p := fun c => !isSpace c) hd
    have hroot : root.all (!isSpace ·) = true := by
      rw [List.all_eq_true]
      intro c hc
      rcases hmem c hc with rfl | hc
      · decide
      · exact List.all_eq_true.1 hword c hc
    rw [(words_of_noSpace hroot).1] at hnode
    exact absurd hnode (by decide)
  · next hnode =>
    subst h
    exact ⟨rfl, hnode⟩

theorem Accepted.settable_plain (h : Accepted ('/' :: path) host adminCode)
    (hpath : '$' ∉ '/' :: path ∧ '=' ∉ '/' :: path) (hhost : '$' ∉ host ∧ '=' ∉ host)
    (hline : ('/' :: path).all (!isBreak ·) = true) :
    Settable (rootOf ('/' :: path)) host adminCode := by
  have hkeys : ∀ k ∈ laterKeys, '=' ∈ k := by decide
  apply h.settable (rootOf_cases _)
  · exact literal_of_not_mem (not_mem_rootOf (by decide) hpath.1)
  · exact unmarked_of_equals hkeys (not_mem_rootOf (by decide) hpath.2)
  · rw [List.all_eq_true]
    intro c hc
    rcases mem_rooted_segmentsOf hc with rfl | hc
    · decide
    · exact List.all_eq_true.1 hline c hc
  · exact literal_of_not_mem hhost.1
  · exact unmarked_of_equals (fun k hk => hkeys k (List.mem_of_mem_tail hk)) hhost.2

theorem recoverable_of_survives (h : Accepted ('/' :: path) host adminCode)
    (hpath : '$' ∉ '/' :: path ∧ '=' ∉ '/' :: path) (hhost : '$' ∉ host ∧ '=' ∉ host)
    (hsurvives : Survives (installedValues ('/' :: path) host adminCode)) :
    Recoverable ('/' :: path) host := by
  obtain ⟨unit, hunit, hagain, -, hnginx, -⟩ := hsurvives
  obtain ⟨hrecovered, hline⟩ := recovered_root_eq h hpath.1 hhost.1 hunit hagain hnginx
  have hs := h.settable_plain hpath hhost hline
  have hlines : ['\n'].intercalate (unitLines (rootOf ('/' :: path)) host adminCode) = unit :=
    Option.some.inj ((rendered_unit hs).symm.trans hunit)
  have hself : recoveredRoot (rootOf ('/' :: path)) = '/' :: path := by
    apply h.recovered_self hs
    rw [hlines]
    exact hrecovered
  have hmem : ∀ c ∈ rootOf ('/' :: path), c = '/' ∨ c ∈ '/' :: path := fun c hc => mem_rooted_segmentsOf hc
  obtain ⟨hroot, hlast⟩ := recoveredRoot_self hmem (List.cons_ne_nil '/' path) hself
  have hkeys : ∀ k ∈ laterKeys, '=' ∈ k := by decide
  exact {
    joined := by rw [join_server, hroot]
    one_line := hline
    last_word := hlast
    root_literal := literal_of_not_mem hpath.1
    host_literal := literal_of_not_mem hhost.1
    root_unmarked := unmarked_of_equals hkeys hpath.2
    host_unmarked := unmarked_of_equals (fun k hk => hkeys k (List.mem_of_mem_tail hk)) hhost.2 }

end Accepted

/-- The operator's settings survive a reconciliation where they can be recovered, and only there, if no
replacement pattern or setting is written in them. -/
theorem settings_survive {webRoot host adminCode : Text} (h : Accepted webRoot host adminCode) :
    (Recoverable webRoot host → Survives (installedValues webRoot host adminCode)) ∧
      ('$' ∉ webRoot ∧ '=' ∉ webRoot → '$' ∉ host ∧ '=' ∉ host →
        Survives (installedValues webRoot host adminCode) → Recoverable webRoot host) := by
  cases webRoot with
  | nil =>
    have habsolute := h.root_absolute
    cases habsolute
  | cons d path =>
    have hd : d = '/' := Option.some.inj h.root_absolute
    subst hd
    exact ⟨survives_of_recoverable h, recoverable_of_survives h⟩

def sampleHost : Text := List.replicate 56 '2' ++ ".onion".toList

def sampleCode : Text := "PM8T".toList ++ List.replicate 112 '1'

theorem sample_accepted : Accepted "/var/www/mise".toList sampleHost sampleCode :=
  ⟨by decide, by decide, by decide, by decide +kernel, by decide +kernel, by decide +kernel⟩

theorem sample_recoverable : Recoverable "/var/www/mise".toList sampleHost :=
  ⟨by decide +kernel, by decide, by decide, by decide, by decide +kernel, by decide +kernel, by decide +kernel⟩

theorem settings_survive_sample : Recoverable "/var/www/mise".toList sampleHost ∧
    Survives (installedValues "/var/www/mise".toList sampleHost sampleCode) :=
  ⟨sample_recoverable, (settings_survive sample_accepted).1 sample_recoverable⟩

end Mise.System
