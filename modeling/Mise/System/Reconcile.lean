import Mise.System.ExecLine

set_option autoImplicit true

namespace Mise.System

open Js Server

/-- The keys that are set after the web root, and after the host. -/
def laterKeys : List Text :=
  ["Environment=BASE_URL=".toList, "Environment=ADMIN_PAYMENT_CODES=".toList, "ExecStart=".toList]

/-- The web root is written as paths are joined, on one line, and the word before its last white space
does not end in `node`; neither it nor the host has a replacement pattern in it, or a key that is set
after it. -/
structure Recoverable (webRoot host : Text) : Prop where
  joined : join [webRoot, "server".toList] = webRoot ++ "/server".toList
  one_line : webRoot.all (!isBreak ·) = true
  last_word : ¬ "node".toList <:+ beforeLastWord webRoot
  root_literal : literal webRoot = true
  host_literal : literal host = true
  root_unmarked : ∀ key ∈ laterKeys, ¬ key <:+: webRoot
  host_unmarked : ∀ key ∈ laterKeys.tail, ¬ key <:+: host

section Texts

variable {x y k : Text} {c : Char}

theorem of_literal (p : Text → Bool) (h : p x = true) : p (String.ofList x).toList = true := by
  rw [String.toList_ofList]
  exact h

theorem infix_append_stop (hk : k ≠ []) (hc : c ∉ k) :
    k <:+: x ++ c :: y ↔ k <:+: x ∨ k <:+: y := by
  rw [← not_iff_not, not_or, ← cut_none_iff hk, ← cut_none_iff hk, ← cut_none_iff hk,
    cut_append_stop hk hc]
  cases cut k x with
  | some r => simp
  | none => simp

theorem infix_append_last (hc : c ∉ y) (h : k ++ [c] <:+: x ++ y) : k ++ [c] <:+: x := by
  obtain ⟨u, v, huv⟩ := h
  rcases List.append_eq_append_iff.1 huv with ⟨z, hx, -⟩ | ⟨z, hx, hy⟩
  · rw [hx]
    exact (List.suffix_append u _).isInfix.trans (List.prefix_append _ z).isInfix
  · cases z using List.reverseRecOn with
    | nil =>
      rw [List.append_nil] at hx
      rw [← hx]
      exact (List.suffix_append u _).isInfix
    | append_singleton z d =>
      rw [← List.append_assoc, ← List.append_assoc] at hx
      have hd : c = d := by
        have hlast := congrArg List.getLast? hx
        rw [List.getLast?_concat, List.getLast?_concat] at hlast
        exact Option.some.inj hlast
      subst hd
      rw [hy] at hc
      exact absurd (List.mem_append_left _ (List.mem_append_right z List.mem_cons_self)) hc

theorem suffix_append_stop (hc : c ∉ k) (h : k <:+ x ++ c :: y) : k <:+ y := by
  rw [← List.reverse_prefix] at h ⊢
  rw [List.reverse_append, List.reverse_cons, List.append_assoc, List.singleton_append] at h
  exact (prefix_append_stop fun hm => hc (List.mem_reverse.1 hm)).1 h

end Texts

/-- What a path comes to, without a slash at its end. -/
def rootOf (path : Text) : Text := rooted (segmentsOf false path)

theorem rootOf_cases (path : Text) : rootOf path = [] ∨ ∃ t, rootOf path = '/' :: t := by
  rw [rootOf]
  cases segmentsOf false path with
  | nil => exact .inl rfl
  | cons s l => exact .inr ⟨_, rfl⟩

theorem join_server (path : Text) :
    join ['/' :: path, "server".toList] = rootOf ('/' :: path) ++ "/server".toList := by
  have hnone : ∀ s ∈ ([] : List Text), PlainSegment s := fun _ hs => absurd hs List.not_mem_nil
  exact join_absolute (by decide) hnone path

theorem join_index (path : Text) : join ['/' :: path, "server".toList, "index.mjs".toList] =
    rootOf ('/' :: path) ++ "/server/index.mjs".toList := by
  have hsegments : ∀ s ∈ ["server".toList], PlainSegment s :=
    List.forall_mem_singleton.2 (by decide)
  exact join_absolute (by decide) hsegments path

/-- What the installer sets in the backend unit. -/
def serverSettings (root host adminCode : Text) : List Setting :=
  [⟨true, "User=".toList, serviceUser⟩, ⟨true, "Group=".toList, serviceUser⟩,
    ⟨false, "WorkingDirectory=".toList, root ++ "/server".toList⟩,
    ⟨false, "Environment=BASE_URL=".toList, "http://".toList ++ host⟩,
    ⟨false, "Environment=ADMIN_PAYMENT_CODES=".toList, adminCode⟩,
    ⟨false, "ExecStart=".toList, "/usr/bin/env node ".toList ++
      (root ++ "/server/index.mjs".toList)⟩]

theorem renderServerUnit_eq (template path host adminCode : Text) :
    renderServerUnit template (installedValues ('/' :: path) host adminCode) =
      some ((serverSettings (rootOf ('/' :: path)) host adminCode).foldl Setting.apply template) := by
  have hunit : renderServerUnit template (installedValues ('/' :: path) host adminCode) =
    some ([⟨true, "User=".toList, serviceUser⟩, ⟨true, "Group=".toList, serviceUser⟩,
      ⟨false, "WorkingDirectory=".toList, join ['/' :: path, "server".toList]⟩,
      ⟨false, "Environment=BASE_URL=".toList, "http://".toList ++ host⟩,
      ⟨false, "Environment=ADMIN_PAYMENT_CODES=".toList, adminCode⟩,
      ⟨false, "ExecStart=".toList, "/usr/bin/env node ".toList ++
        join ['/' :: path, "server".toList, "index.mjs".toList]⟩].foldl Setting.apply template) := rfl
  rw [hunit, join_server, join_index]
  rfl

def serverKeys : List Text :=
  ["User=".toList, "Group=".toList, "WorkingDirectory=".toList, "Environment=BASE_URL=".toList,
    "Environment=ADMIN_PAYMENT_CODES=".toList, "ExecStart=".toList]

/-- Each key stands at the front of a line of the template, and nowhere else. -/
def checkedLines (keys : List Text) (template : Text) : Bool :=
  let lines := template.splitOn '\n'
  lines.all (fun l => l.all (!isBreak ·) && keys.all fun k => k.isPrefixOf l || (cut k l).isNone) &&
    keys.all fun k => lines.any fun l => k.isPrefixOf l

set_option maxRecDepth 20000 in
theorem serverUnit_checked : checkedLines serverKeys serverUnit = true :=
  of_literal (checkedLines serverKeys) (by decide +kernel)

/-- A path from the root, which may be empty. -/
def FromRoot (root : Text) : Prop := root = [] ∨ ∃ t, root = '/' :: t

section Server

variable {root host adminCode : Text} {k : Text}

theorem head_fromRoot (h : FromRoot root) (t : Text) :
    ∀ d ∈ (root ++ '/' :: t).head?, special d = false := by
  rcases h with rfl | ⟨s, rfl⟩
  · intro d hd
    cases hd
    decide
  · intro d hd
    cases hd
    decide

theorem literal_path (h : FromRoot root) (hroot : literal root = true) {t : Text}
    (ht : literal ('/' :: t) = true) {key : Text} (hkey : '$' ∉ key) :
    literal (key ++ (root ++ '/' :: t)) = true := by
  apply literal_append (literal_of_not_mem hkey)
  · apply literal_append hroot ht
    intro d hd
    cases hd
    decide
  · exact head_fromRoot h t

theorem serverSettings_sound (h : FromRoot root) (hroot : literal root = true)
    (hhost : literal host = true) (hcode : '$' ∉ adminCode) :
    ∀ s ∈ serverSettings root host adminCode, s.Sound := by
  have hdir : literal ("WorkingDirectory=".toList ++ (root ++ "/server".toList)) = true :=
    literal_path h hroot (by decide) (by decide)
  have hurl : literal ("Environment=BASE_URL=".toList ++ ("http://".toList ++ host)) = true := by
    rw [← List.append_assoc]
    cases host with
    | nil => decide
    | cons c t =>
      have hurl : literal ("Environment=BASE_URL=http:/".toList ++ ('/' :: c :: t)) = true := by
        apply literal_append (by decide)
        · rw [literal, decide_eq_false (by decide), Bool.false_and, Bool.not_false, Bool.true_and]
          exact hhost
        · intro d hd
          cases hd
          decide
      exact hurl
  have hadmin : literal ("Environment=ADMIN_PAYMENT_CODES=".toList ++ adminCode) = true := by
    apply literal_of_not_mem
    rw [List.mem_append]
    exact not_or.2 ⟨by decide, hcode⟩
  have hexec : literal ("ExecStart=".toList ++ ("/usr/bin/env node ".toList ++
      (root ++ "/server/index.mjs".toList))) = true := by
    rw [← List.append_assoc]
    exact literal_path h hroot (by decide) (by decide)
  have hliteral : ∀ s ∈ serverSettings root host adminCode, literal s.line = true := by
    intro s hs
    simp only [serverSettings, List.mem_cons, List.not_mem_nil, or_false] at hs
    rcases hs with rfl | rfl | rfl | rfl | rfl | rfl
    · decide
    · decide
    · exact hdir
    · exact hurl
    · exact hadmin
    · exact hexec
  have hkeys : ∀ k ∈ serverKeys, k ≠ [] ∧ '\n' ∉ k := by decide
  intro s hs
  have hk : s.key ∈ serverKeys := List.mem_map_of_mem (f := Setting.key) hs
  exact ⟨(hkeys s.key hk).1, (hkeys s.key hk).2, hliteral s hs⟩

theorem laterKeys_slash : ∀ k ∈ laterKeys, k ≠ [] ∧ '/' ∉ k := by decide

theorem unmarked_dir (h : FromRoot root) (hroot : ∀ k ∈ laterKeys, ¬ k <:+: root) (hk : k ∈ laterKeys) :
    ¬ k <:+: "WorkingDirectory=".toList ++ (root ++ "/server".toList) := by
  obtain ⟨hne, hslash⟩ := laterKeys_slash k hk
  have hdir : ∀ k ∈ laterKeys, ¬ k <:+: "WorkingDirectory=".toList := by decide
  have hserver : ∀ k ∈ laterKeys, ¬ k <:+: "server".toList := by decide
  have hend : "/server".toList = '/' :: "server".toList := rfl
  rw [hend]
  rcases h with rfl | ⟨t, rfl⟩
  · rw [List.nil_append, infix_append_stop hne hslash]
    exact not_or.2 ⟨hdir k hk, hserver k hk⟩
  · have ht : ¬ k <:+: t := fun hi => hroot k hk (hi.trans (List.suffix_cons _ t).isInfix)
    rw [List.cons_append, infix_append_stop hne hslash, infix_append_stop hne hslash]
    exact not_or.2 ⟨hdir k hk, not_or.2 ⟨ht, hserver k hk⟩⟩

theorem unmarked_url (hhost : ∀ k ∈ laterKeys.tail, ¬ k <:+: host) (hk : k ∈ laterKeys.tail) :
    ¬ k <:+: "Environment=BASE_URL=".toList ++ ("http://".toList ++ host) := by
  obtain ⟨hne, hslash⟩ := laterKeys_slash k (List.mem_of_mem_tail hk)
  have hurl : ∀ k ∈ laterKeys.tail, ¬ k <:+: "Environment=BASE_URL=http:/".toList := by decide
  have hsplit : "Environment=BASE_URL=".toList ++ ("http://".toList ++ host) =
    "Environment=BASE_URL=http:/".toList ++ '/' :: host := rfl
  rw [hsplit, infix_append_stop hne hslash]
  exact not_or.2 ⟨hurl k hk, hhost k hk⟩

theorem unmarked_code (hcode : '=' ∉ adminCode) :
    ¬ "ExecStart=".toList <:+: "Environment=ADMIN_PAYMENT_CODES=".toList ++ adminCode := by
  intro hi
  have hkey : "ExecStart".toList ++ ['='] <:+: "Environment=ADMIN_PAYMENT_CODES=".toList :=
    infix_append_last hcode hi
  exact absurd hkey (by decide)

theorem not_infix_line {l : List Setting} {line : Text}
    (h : ∀ k ∈ l.map Setting.key, ¬ k <:+: line) : ∀ s ∈ l, ¬ s.key <:+: line :=
  fun s hs => h s.key (List.mem_map_of_mem hs)

theorem serverSettings_later (h : FromRoot root) (hroot : ∀ k ∈ laterKeys, ¬ k <:+: root)
    (hhost : ∀ k ∈ laterKeys.tail, ¬ k <:+: host) (hcode : '=' ∉ adminCode) :
    (serverSettings root host adminCode).Pairwise fun s s' => ¬ s'.key <:+: s.line := by
  have huser : ∀ k ∈ serverKeys.tail, ¬ k <:+: "User=mise".toList := by decide
  have hgroup : ∀ k ∈ serverKeys.tail.tail, ¬ k <:+: "Group=mise".toList := by decide
  refine .cons (not_infix_line huser) (.cons (not_infix_line hgroup) (.cons (not_infix_line ?_)
    (.cons (not_infix_line ?_) (.cons (not_infix_line ?_) (.cons (not_infix_line ?_) .nil)))))
  · exact fun k hk => unmarked_dir h hroot hk
  · exact fun k hk => unmarked_url hhost hk
  · intro k hk
    rw [List.mem_singleton.1 hk]
    exact unmarked_code hcode
  · exact fun k hk => absurd hk List.not_mem_nil

end Server

section Checked

variable {keys lines : List Text} {template k l : Text}

theorem checked_line (h : checkedLines keys template = true) (hl : l ∈ template.splitOn '\n') :
    l.all (!isBreak ·) = true ∧ ∀ k ∈ keys, k ≠ [] → k <+: l ∨ ¬ k <:+: l := by
  rw [checkedLines, Bool.and_eq_true, List.all_eq_true] at h
  have hline := h.1 l hl
  rw [Bool.and_eq_true] at hline
  refine ⟨hline.1, fun k hk hne => ?_⟩
  have hkey := List.all_eq_true.1 hline.2 k hk
  rw [Bool.or_eq_true, List.isPrefixOf_iff_prefix, Option.isNone_iff_eq_none, cut_none_iff hne] at hkey
  exact hkey

theorem checked_key (h : checkedLines keys template = true) (hk : k ∈ keys) :
    ∃ l ∈ template.splitOn '\n', k <+: l := by
  rw [checkedLines, Bool.and_eq_true, List.all_eq_true (l := keys)] at h
  obtain ⟨l, hl, hp⟩ := List.any_eq_true.1 (h.2 k hk)
  exact ⟨l, hl, List.isPrefixOf_iff_prefix.1 hp⟩

theorem splitOnP_lines (hne : lines ≠ []) (h : ∀ l ∈ lines, l.all (!isBreak ·) = true) :
    (['\n'].intercalate lines).splitOnP isBreak = lines := by
  have hsingle : ∀ l : Text, l.all (!isBreak ·) = true → l.splitOnP isBreak = [l] := by
    intro l hl
    apply List.splitOnP_eq_singleton
    intro c hc
    have hb := List.all_eq_true.1 hl c hc
    rw [Bool.not_eq_true'] at hb
    exact hb
  induction lines with
  | nil => exact absurd rfl hne
  | cons l lines ih =>
    have hl := h l List.mem_cons_self
    cases lines with
    | nil => rw [List.intercalate_singleton, hsingle l hl]
    | cons l' lines =>
      have hbreak : isBreak '\n' = true := by decide
      rw [List.intercalate_cons_cons, List.append_assoc, List.singleton_append,
        List.splitOnP_append_cons _ _ hbreak, hsingle l hl,
        ih (List.cons_ne_nil _ _) fun l hl => h l (List.mem_cons_of_mem _ hl)]
      rfl

/-- Neither key begins with the other. -/
def Apart (k k' : Text) : Prop := ¬ k <+: k' ∧ ¬ k' <+: k

instance (k k' : Text) : Decidable (Apart k k') :=
  inferInstanceAs (Decidable (¬ k <+: k' ∧ ¬ k' <+: k))

theorem serverKeys_apart : serverKeys.Pairwise Apart := by decide

/-- Two keys of settings of which neither begins with the other are the same key. -/
theorem setting_eq {settings : List Setting} (h : (settings.map Setting.key).Pairwise Apart)
    {s s' : Setting} (hs : s ∈ settings) (hs' : s' ∈ settings)
    (hp : s.key <+: s'.key ∨ s'.key <+: s.key) : s = s' := by
  induction settings with
  | nil => cases hs
  | cons t settings ih =>
    rw [List.map_cons, List.pairwise_cons] at h
    rcases List.mem_cons.1 hs with rfl | hmem
    · rcases List.mem_cons.1 hs' with rfl | hmem'
      · rfl
      · have hapart := h.1 s'.key (List.mem_map_of_mem hmem')
        rcases hp with hp | hp
        · exact absurd hp hapart.1
        · exact absurd hp hapart.2
    · rcases List.mem_cons.1 hs' with rfl | hmem'
      · have hapart := h.1 s.key (List.mem_map_of_mem hmem)
        rcases hp with hp | hp
        · exact absurd hp hapart.2
        · exact absurd hp hapart.1
      · exact ih h.2 hmem hmem'

theorem assign_begun {settings : List Setting} {s : Setting}
    (h : (settings.map Setting.key).Pairwise Apart) (hs : s ∈ settings)
    (hp : s.key <+: assign settings l) : assign settings l = s.line := by
  cases hf : settings.find? fun s => s.key.isPrefixOf l with
  | none =>
    have hl : assign settings l = l := by rw [assign, hf]
    rw [hl, ← List.isPrefixOf_iff_prefix] at hp
    exact absurd hp (List.find?_eq_none.1 hf s hs)
  | some s' =>
    have hl : assign settings l = s'.line := by rw [assign, hf]
    have hs' := List.mem_of_find?_eq_some hf
    rw [hl] at hp ⊢
    rw [setting_eq h hs hs' (List.prefix_or_prefix_of_prefix hp (List.prefix_append _ _))]

/-- A key that stands at the front of a line finds the line that has been set for it. -/
theorem assign_key {settings : List Setting} {s : Setting}
    (h : (settings.map Setting.key).Pairwise Apart) (hs : s ∈ settings) (hp : s.key <+: l) :
    assign settings l = s.line := by
  cases hf : settings.find? fun s => s.key.isPrefixOf l with
  | none =>
    rw [← List.isPrefixOf_iff_prefix] at hp
    exact absurd hp (List.find?_eq_none.1 hf s hs)
  | some s' =>
    have hp' : s'.key.isPrefixOf l = true := by
      have hfound := List.find?_some hf
      exact hfound
    rw [List.isPrefixOf_iff_prefix] at hp'
    have hs' := List.mem_of_find?_eq_some hf
    rw [assign, hf, setting_eq h hs hs' (List.prefix_or_prefix_of_prefix hp hp')]

theorem find_setting {settings : List Setting} {s : Setting}
    (h : (settings.map Setting.key).Pairwise Apart) (hs : s ∈ settings)
    (hl : ∃ l ∈ lines, s.key <+: l) :
    (lines.map (assign settings)).find? (fun l => s.key.isPrefixOf l) = some s.line := by
  cases hf : (lines.map (assign settings)).find? fun l => s.key.isPrefixOf l with
  | none =>
    obtain ⟨l, hl, hp⟩ := hl
    have hline := List.find?_eq_none.1 hf _ (List.mem_map_of_mem hl)
    rw [assign_key h hs hp, List.isPrefixOf_iff_prefix] at hline
    exact absurd (List.prefix_append _ _) hline
  | some l' =>
    obtain ⟨l, -, rfl⟩ := List.mem_map.1 (List.mem_of_find?_eq_some hf)
    have hp : s.key.isPrefixOf (assign settings l) = true := by
      have hfound := List.find?_some hf
      exact hfound
    rw [assign_begun h hs (List.isPrefixOf_iff_prefix.1 hp)]

end Checked

end Mise.System
