import Mise.System.Reconcile

set_option autoImplicit true

namespace Mise.System

open Js Server

/-- Values that are each set on one line, and are not taken for another key. -/
structure Settable (root host adminCode : Text) : Prop where
  from_root : FromRoot root
  root_literal : literal root = true
  host_literal : literal host = true
  code_literal : '$' ∉ adminCode
  root_unmarked : ∀ key ∈ laterKeys, ¬ key <:+: root
  host_unmarked : ∀ key ∈ laterKeys.tail, ¬ key <:+: host
  code_unmarked : '=' ∉ adminCode
  root_line : root.all (!isBreak ·) = true
  host_line : host.all (!isBreak ·) = true
  code_line : adminCode.all (!isBreak ·) = true

/-- The lines of the backend unit, as it is installed. -/
def unitLines (root host adminCode : Text) : List Text :=
  (serverUnit.splitOn '\n').map (assign (serverSettings root host adminCode))

section Lines

variable {root host adminCode : Text} {s : Setting}

theorem serverKey_ne : ∀ k ∈ serverKeys, k ≠ [] := by decide

theorem mem_serverKeys (hs : s ∈ serverSettings root host adminCode) : s.key ∈ serverKeys :=
  List.mem_map_of_mem (f := Setting.key) hs

theorem rendered_lines (h : Settable root host adminCode) :
    (serverSettings root host adminCode).foldl Setting.apply serverUnit =
      ['\n'].intercalate (unitLines root host adminCode) := by
  have htemplate : ['\n'].intercalate (serverUnit.splitOn '\n') = serverUnit :=
    List.intercalate_splitOn '\n'
  have hlines : ∀ l ∈ serverUnit.splitOn '\n', ∀ s ∈ serverSettings root host adminCode,
      KeyedLine s.key l := by
    intro l hl s hs
    obtain ⟨hbreak, hkey⟩ := checked_line serverUnit_checked hl
    have hk := mem_serverKeys hs
    rcases hkey s.key hk (serverKey_ne s.key hk) with hp | hno
    · exact .inl ⟨hbreak, hp⟩
    · exact .inr hno
  have hfold := foldl_settings
    (serverSettings_sound h.from_root h.root_literal h.host_literal h.code_literal)
    (serverSettings_later h.from_root h.root_unmarked h.host_unmarked h.code_unmarked) _ hlines
  rw [htemplate] at hfold
  exact hfold

theorem setting_line (h : Settable root host adminCode) (hs : s ∈ serverSettings root host adminCode) :
    s.line.all (!isBreak ·) = true := by
  have hkeys : serverKeys.all (fun k => k.all (!isBreak ·)) = true := by decide
  have hfixed : serviceUser.all (!isBreak ·) = true ∧ "/server".toList.all (!isBreak ·) = true ∧
      "http://".toList.all (!isBreak ·) = true ∧ "/usr/bin/env node ".toList.all (!isBreak ·) = true ∧
      "/server/index.mjs".toList.all (!isBreak ·) = true := by decide
  obtain ⟨huser, hdir, hurl, hnode, hindex⟩ := hfixed
  have hvalue : s.value.all (!isBreak ·) = true := by
    simp only [serverSettings, List.mem_cons, List.not_mem_nil, or_false] at hs
    rcases hs with rfl | rfl | rfl | rfl | rfl | rfl
    · exact huser
    · exact huser
    · rw [List.all_append, h.root_line, hdir]
      rfl
    · rw [List.all_append, h.host_line, hurl]
      rfl
    · exact h.code_line
    · rw [List.all_append, List.all_append, h.root_line, hnode, hindex]
      rfl
  rw [Setting.line, List.all_append, List.all_eq_true.1 hkeys s.key (mem_serverKeys hs), hvalue]
  rfl

theorem unitLines_line (h : Settable root host adminCode) :
    ∀ l ∈ unitLines root host adminCode, l.all (!isBreak ·) = true := by
  intro l hl
  rw [unitLines, List.mem_map] at hl
  obtain ⟨l, hl, rfl⟩ := hl
  have hchecked := checked_line serverUnit_checked hl
  rw [assign]
  split
  · next s hs => exact setting_line h (List.mem_of_find?_eq_some hs)
  · exact hchecked.1

theorem first_setting (h : Settable root host adminCode)
    (hs : s ∈ serverSettings root host adminCode) :
    first s.key (['\n'].intercalate (unitLines root host adminCode)) = some (trimmed s.value) := by
  have hne : unitLines root host adminCode ≠ [] := by
    rw [unitLines, Ne, List.map_eq_nil_iff]
    exact List.splitOn_ne_nil '\n' serverUnit
  have hapart : ((serverSettings root host adminCode).map Setting.key).Pairwise Apart :=
    serverKeys_apart
  have hfind := find_setting hapart hs (checked_key serverUnit_checked (mem_serverKeys hs))
  rw [first, splitOnP_lines hne (unitLines_line h), unitLines, hfind, Option.map_some, Setting.line,
    List.drop_left]

theorem exec_getLast (root : Text) : ("/usr/bin/env node ".toList ++
    (root ++ "/server/index.mjs".toList)).getLast? = some 's' := by
  rw [← List.append_assoc, List.getLast?_append_of_ne_nil _ (by decide)]
  rfl

theorem unit_exec (h : Settable root host adminCode) :
    execFrom true (['\n'].intercalate (unitLines root host adminCode)) =
      script ("/usr/bin/env node ".toList ++ (root ++ "/server/index.mjs".toList)) := by
  have hs : (⟨false, "ExecStart=".toList, "/usr/bin/env node ".toList ++
      (root ++ "/server/index.mjs".toList)⟩ : Setting) ∈ serverSettings root host adminCode := by
    simp only [serverSettings, List.mem_cons, true_or, or_true]
  have hapart : ((serverSettings root host adminCode).map Setting.key).Pairwise Apart :=
    serverKeys_apart
  have hline : ∀ l ∈ unitLines root host adminCode, "ExecStart=".toList <+: l →
      l = "ExecStart=".toList ++ ("/usr/bin/env node ".toList ++
        (root ++ "/server/index.mjs".toList)) := by
    intro l hl hp
    obtain ⟨l, hl, rfl⟩ := List.mem_map.1 hl
    exact assign_begun hapart hs hp
  have hany : (unitLines root host adminCode).any "ExecStart=".toList.isPrefixOf = true := by
    obtain ⟨l, hl, hp⟩ := checked_key serverUnit_checked (mem_serverKeys hs)
    refine List.any_eq_true.2 ⟨assign (serverSettings root host adminCode) l, List.mem_map_of_mem hl, ?_⟩
    rw [assign_key hapart hs hp, List.isPrefixOf_iff_prefix]
    exact List.prefix_append _ _
  have hlast := exec_getLast root
  have hword : EndsWord ("/usr/bin/env node ".toList ++ (root ++ "/server/index.mjs".toList)) := by
    intro c hc
    rw [hlast] at hc
    cases hc
    decide
  have hno : ¬ "node".toList <:+ "/usr/bin/env node ".toList ++ (root ++ "/server/index.mjs".toList) := by
    intro hsuffix
    obtain ⟨u, hu⟩ := hsuffix
    rw [← hu, List.getLast?_append_of_ne_nil _ (by decide)] at hlast
    exact absurd hlast (by decide)
  have hne : "/usr/bin/env node ".toList ++ (root ++ "/server/index.mjs".toList) ≠ [] :=
    List.append_ne_nil_of_left_ne_nil (by decide) _
  rw [execFrom_lines (unitLines_line h) hline hword hne hno, hany]
  rfl

end Lines

/-- The web root that is recovered, unless it is empty. -/
def recoveredRoot (root : Text) : Text :=
  if "node".toList <:+ beforeLastWord root then lastWord root else root

section Root

variable {root : Text}

theorem script_word (h : root.all (!isSpace ·) = true) :
    script ("/usr/bin/env node ".toList ++ (root ++ "/server/index.mjs".toList)) =
      some (root ++ "/server/index.mjs".toList) := by
  have hword : (root ++ "/server/index.mjs".toList).all (!isSpace ·) = true := by
    rw [List.all_append, h]
    decide
  have hsplit : "/usr/bin/env node ".toList ++ (root ++ "/server/index.mjs".toList) =
    "/usr/bin/env nod".toList ++ ['e'] ++ ([' '] ++ (root ++ "/server/index.mjs".toList)) := rfl
  have hparts := words_eq (u := "/usr/bin/env nod".toList) (c := 'e') (by decide)
    (List.cons_ne_nil ' ' []) (by decide) hword
  rw [← hsplit] at hparts
  rw [script, hparts.1, hparts.2, if_pos]
  decide

theorem words_of_noSpace (h : root.all (!isSpace ·) = true) :
    beforeLastWord root = [] ∧ lastWord root = root := by
  rw [beforeLastWord, lastWord, List.rdropWhile_eq_nil_iff.2 (List.all_eq_true.1 h),
    List.rtakeWhile_eq_self_iff.2 (List.all_eq_true.1 h)]
  exact ⟨rfl, rfl⟩

theorem FromRoot.head_prefix (h : FromRoot root) {x : Text} (hx : x <+: root) (hne : x ≠ []) :
    ∃ t, x = '/' :: t := by
  rcases h with rfl | ⟨t, rfl⟩
  · exact absurd (List.prefix_nil.1 hx) hne
  · obtain ⟨c, x, rfl⟩ := List.exists_cons_of_ne_nil hne
    exact ⟨x, by rw [(List.cons_prefix_cons.1 hx).1]⟩

/-- A path with white space in it ends with a word, after another. -/
theorem words_of_space (h : FromRoot root) (hspace : root.all (!isSpace ·) = false) :
    ∃ u c ws, beforeLastWord root = u ++ [c] ∧ isSpace c = false ∧ ws ≠ [] ∧ ws.all isSpace = true ∧
      root = u ++ [c] ++ (ws ++ lastWord root) := by
  have hne : root.rdropWhile (!isSpace ·) ≠ [] := by
    intro hnil
    rw [List.rdropWhile_eq_nil_iff] at hnil
    exact absurd (List.all_eq_true.2 hnil) (Bool.eq_false_iff.1 hspace)
  have hlast := List.rdropWhile_last_not _ root hne
  have hhead : '/' ∈ root.rdropWhile (!isSpace ·) := by
    obtain ⟨t, ht⟩ := h.head_prefix (List.rdropWhile_prefix _ root) hne
    rw [ht]
    exact List.mem_cons_self
  have hbefore : beforeLastWord root ≠ [] := by
    intro hnil
    have hall := List.rdropWhile_eq_nil_iff.1 hnil '/' hhead
    exact absurd hall (by decide)
  have hc := List.rdropWhile_last_not _ _ hbefore
  refine ⟨(beforeLastWord root).dropLast, (beforeLastWord root).getLast hbefore,
    (root.rdropWhile (!isSpace ·)).rtakeWhile isSpace, ?_, Bool.eq_false_iff.2 hc, ?_, ?_, ?_⟩
  · rw [List.dropLast_append_getLast]
  · intro hnil
    have hspace' := List.rtakeWhile_eq_nil_iff.1 hnil hne
    rw [Bool.not_eq_true', Bool.not_eq_false] at hlast
    exact hspace' hlast
  · exact List.all_eq_true.2 fun d hd => List.mem_rtakeWhile_imp hd
  · rw [List.dropLast_append_getLast, line_parts]

theorem script_words (h : FromRoot root) (hspace : root.all (!isSpace ·) = false) :
    script ("/usr/bin/env node ".toList ++ (root ++ "/server/index.mjs".toList)) =
      if "node".toList <:+ beforeLastWord root then
        some (lastWord root ++ "/server/index.mjs".toList) else none := by
  obtain ⟨u, c, ws, hbefore, hc, hws, hwsall, hroot⟩ := words_of_space h hspace
  have hword : (lastWord root ++ "/server/index.mjs".toList).all (!isSpace ·) = true := by
    have hall : (lastWord root).all (!isSpace ·) = true :=
      List.all_eq_true.2 fun d hd => List.mem_rtakeWhile_imp (p := fun c => !isSpace c) hd
    rw [List.all_append, hall]
    decide
  have hsplit : "/usr/bin/env node ".toList ++ (root ++ "/server/index.mjs".toList) =
      "/usr/bin/env node ".toList ++ u ++ [c] ++ (ws ++ (lastWord root ++ "/server/index.mjs".toList)) := by
    conv_lhs => rw [hroot]
    simp only [List.append_assoc]
  obtain ⟨hb, hl⟩ := words_eq (u := "/usr/bin/env node ".toList ++ u) hc hws hwsall hword
  rw [script, hsplit, hb, hl]
  have hnode : "node".toList <:+ "/usr/bin/env node ".toList ++ u ++ [c] ↔
      "node".toList <:+ beforeLastWord root := by
    have hb' : "/usr/bin/env node ".toList ++ u ++ [c] = "/usr/bin/env node ".toList ++ beforeLastWord root := by
      rw [hbefore, List.append_assoc]
    rw [hb']
    constructor
    · intro hs
      have hne : beforeLastWord root ≠ [] := by
        rw [hbefore]
        exact List.append_ne_nil_of_right_ne_nil u (List.cons_ne_nil c [])
      have hp : beforeLastWord root <+: root :=
        (List.rdropWhile_prefix _ _).trans (List.rdropWhile_prefix _ _)
      obtain ⟨t, ht⟩ := h.head_prefix hp hne
      rw [ht] at hs ⊢
      exact (suffix_append_stop (by decide) hs).trans (List.suffix_cons '/' t)
    · exact fun hs => hs.trans (List.suffix_append _ _)
  by_cases hn : "node".toList <:+ beforeLastWord root
  · rw [if_pos hn, if_pos (hnode.2 hn)]
  · rw [if_neg hn, if_neg (mt hnode.1 hn)]

theorem without_append (x ending : Text) : without ending (x ++ ending) = some x := by
  rw [without, if_pos (List.isSuffixOf_iff_suffix.2 (List.suffix_append x ending)),
    List.length_append, Nat.add_sub_cancel, List.take_left]

theorem trimmed_self {x : Text} (hhead : ∀ c ∈ x.head?, isSpace c = false) (hlast : EndsWord x) :
    trimmed x = x := by
  rw [trimmed, trimStart_self hhead, trimStart_self, List.reverse_reverse]
  rw [List.head?_reverse]
  exact hlast

theorem trimmed_word {x : Text} (h : x.all (!isSpace ·) = true) : trimmed x = x := by
  have hmem : ∀ c ∈ x, isSpace c = false := by
    intro c hc
    have hs := List.all_eq_true.1 h c hc
    rw [Bool.not_eq_true'] at hs
    exact hs
  exact trimmed_self (fun c hc => hmem c (List.mem_of_head? hc)) fun c hc => hmem c (List.mem_of_getLast? hc)

end Root

section Values

variable {root host adminCode : Text}

theorem trimmed_dir (h : FromRoot root) :
    trimmed (root ++ "/server".toList) = root ++ "/server".toList := by
  apply trimmed_self
  · rcases h with rfl | ⟨t, rfl⟩
    · intro c hc
      cases hc
      decide
    · intro c hc
      cases hc
      decide
  · intro c hc
    rw [List.getLast?_append_of_ne_nil _ (by decide)] at hc
    cases hc
    decide

/-- The web root is recovered from the line that starts the backend, or else from its directory. -/
theorem recovered_webRoot (h : FromRoot root) :
    (((script ("/usr/bin/env node ".toList ++ (root ++ "/server/index.mjs".toList))).map trimmed).bind
      (without "/server/index.mjs".toList) <|>
      ((script ("/usr/bin/env node ".toList ++ (root ++ "/server/index.mjs".toList))).map trimmed).bind
        (without "/scripts/update.mjs".toList) <|> some root) = some (recoveredRoot root) := by
  have hword : ∀ x : Text, x.all (!isSpace ·) = true →
      ((some (x ++ "/server/index.mjs".toList)).map trimmed).bind (without "/server/index.mjs".toList) =
        some x := by
    intro x hx
    have hall : (x ++ "/server/index.mjs".toList).all (!isSpace ·) = true := by
      rw [List.all_append, hx]
      decide
    rw [Option.map_some, trimmed_word hall, Option.bind_some, without_append]
  cases hspace : root.all (!isSpace ·) with
  | true =>
    obtain ⟨hbefore, hlast⟩ := words_of_noSpace hspace
    rw [script_word hspace, hword root hspace, recoveredRoot, hlast, ite_self]
    rfl
  | false =>
    have hall : (lastWord root).all (!isSpace ·) = true :=
      List.all_eq_true.2 fun d hd => List.mem_rtakeWhile_imp (p := fun c => !isSpace c) hd
    rw [script_words h hspace, recoveredRoot]
    split
    · rw [hword _ hall]
      rfl
    · rfl

theorem recover_unit (h : Settable root host adminCode)
    (hhost : trimmed ("http://".toList ++ host) = "http://".toList ++ host)
    (hcode : trimmed adminCode = adminCode) :
    recoverUnitValues (['\n'].intercalate (unitLines root host adminCode)) =
      { user := some serviceUser
        webRoot := (some (recoveredRoot root)).filter (· ≠ [])
        baseUrl := some ("http://".toList ++ host)
        adminCode := some adminCode } := by
  have huser := first_setting (s := ⟨true, "User=".toList, serviceUser⟩) h (.head _)
  have hdir := first_setting (s := ⟨false, "WorkingDirectory=".toList, root ++ "/server".toList⟩) h
    (.tail _ (.tail _ (.head _)))
  have hurl := first_setting (s := ⟨false, "Environment=BASE_URL=".toList, "http://".toList ++ host⟩) h
    (.tail _ (.tail _ (.tail _ (.head _))))
  have hadmin := first_setting (s := ⟨false, "Environment=ADMIN_PAYMENT_CODES=".toList, adminCode⟩) h
    (.tail _ (.tail _ (.tail _ (.tail _ (.head _)))))
  dsimp only at huser hdir hurl hadmin
  rw [trimmed_dir h.from_root] at hdir
  rw [hhost] at hurl
  rw [hcode] at hadmin
  have hwd : ((some (root ++ "/server".toList)).filter (· ≠ [])).map
      (fun wd => (without "/server".toList wd).getD wd) = some root := by
    have hne : root ++ "/server".toList ≠ [] := List.append_ne_nil_of_right_ne_nil root (by decide)
    rw [Option.filter_some, if_pos (decide_eq_true hne), Option.map_some, without_append]
    rfl
  rw [recoverUnitValues, huser, hdir, hurl, hadmin, unit_exec h, hwd, recovered_webRoot h.from_root]
  rfl

end Values

end Mise.System
