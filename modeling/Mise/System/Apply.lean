import Mise.System.Survive
import Mise.Update.Replacement

set_option autoImplicit true

namespace Mise.System

open Js Server Files

/-- The files by their paths, below the root that a run is given. -/
abbrev Disk := Text → Option Text

/-- What has to be told of a file once it has been written. -/
inductive After where
  | systemd
  | nginx
  | polkit
  deriving DecidableEq

/-- A file that the installer puts in place, and the template that it comes from. -/
structure SystemFile where
  template : Text
  installed : Text
  render : Text → UnitValues → Option Text
  after : After

def backendUnit : SystemFile where
  template := "scripts/mise-server.service".toList
  installed := "/etc/systemd/system/mise-server.service".toList
  render := renderServerUnit
  after := .systemd

/-- `FILES` -/
def files : List SystemFile :=
  [backendUnit,
    { template := "scripts/mise-gateway.service".toList
      installed := "/etc/systemd/system/mise-gateway.service".toList
      render := fun template _ => some template
      after := .systemd },
    { template := "scripts/mise-update.service".toList
      installed := "/etc/systemd/system/mise-update.service".toList
      render := renderUpdateUnit
      after := .systemd },
    { template := "scripts/mise-update.timer".toList
      installed := "/etc/systemd/system/mise-update.timer".toList
      render := fun template _ => some template
      after := .systemd },
    { template := "deploy/nginx-onion.conf.example".toList
      installed := "/etc/nginx/sites-available/mise".toList
      render := fun template v => some (renderNginx template v)
      after := .nginx },
    { template := "deploy/polkit-restart.rules.example".toList
      installed := "/etc/polkit-1/rules.d/49-mise-restart.rules".toList
      render := fun template v => some (renderPolkitRule template v)
      after := .polkit }]

inductive FileState where
  | noTemplate
  | absent
  | same
  | differs
  deriving DecidableEq

def planSystemFile (installed : Option Text) (shipped : Text) : FileState :=
  match installed with
  | none => .absent
  | some text => if text = shipped then .same else .differs

/-- What is concluded of a file, with the text that the checkout has for it. -/
structure Result where
  file : SystemFile
  state : FileState
  shipped : Text

def result (checkout machine : Disk) (v : UnitValues) (f : SystemFile) : Option Result :=
  match checkout f.template with
  | none => some ⟨f, .noTemplate, []⟩
  | some template => do
    let shipped ← f.render template v
    return ⟨f, planSystemFile (machine f.installed) shipped, shipped⟩

/-- How the tool is started and answered. A prompt has no answer where there is no terminal. -/
structure Invocation where
  apply : Bool
  yes : Bool
  answer : Option Text
  rooted : Bool
  stamp : Text

def confirm (q : Invocation) : Bool :=
  q.yes || q.answer.any fun a => (trimmed a).map Char.toLower ∈ [['y'], "yes".toList]

/-- `path.basename` -/
def basename (path : Text) : Text := path.rtakeWhile (· ≠ '/')

/-- The folder that a run keeps the earlier files in, which its time names. -/
def backupDir (stamp : Text) : Text := "/var/backups/mise/system-".toList ++ stamp

def backupOf (stamp path : Text) : Text := backupDir stamp ++ '/' :: basename path

def Result.replacement (stamp : Text) (r : Result) : Replacement Text Text where
  path := r.file.installed
  backup := backupOf stamp r.file.installed
  content := r.shipped

inductive Command where
  | daemonReload
  | restart (unit : Text)
  | testNginx
  | reloadNginx
  deriving DecidableEq

/-- The commands that follow the writes, and the exit code. What only `systemd` refuses is reported. -/
def afterWrites (succeeds : Command → Bool) (changed : List Result) : List Command × Nat :=
  let timers := (changed.map fun r => basename r.file.installed).filter fun u => ".timer".toList.isSuffixOf u
  let systemd := if changed.any (·.file.after = .systemd) then
    Command.daemonReload :: timers.map Command.restart else []
  if changed.any (·.file.after = .nginx) then
    if succeeds .testNginx then
      (systemd ++ [.testNginx, .reloadNginx], if succeeds .reloadNginx then 0 else 2)
    else (systemd ++ [.testNginx], 2)
  else (systemd, 0)

/-- What a run sets out to overwrite, what it starts then, and the code that it exits with. -/
structure Outcome where
  exit : Nat
  written : List (Replacement Text Text)
  commands : List Command

/-- What is done about the files that differ. -/
def conclude (succeeds : Command → Bool) (q : Invocation) (changed : List Result) : Outcome :=
  if changed.isEmpty then ⟨0, [], []⟩
  else if !q.apply || !confirm q then ⟨1, [], []⟩
  else
    let written := changed.map (Result.replacement q.stamp)
    if q.rooted then ⟨0, written, []⟩
    else
      let after := afterWrites succeeds changed
      ⟨after.2, written, after.1⟩

/-- `main`. Nothing comes of it if a file cannot be rendered. -/
def main (succeeds : Command → Bool) (checkout machine : Disk) (q : Invocation) : Option Outcome :=
  match (machine backendUnit.installed).filter (· ≠ []) with
  | none => some ⟨0, [], []⟩
  | some backend =>
    let values := recoverUnitValues backend
    if values.webRoot = none ∨ values.user = none then some ⟨2, [], []⟩
    else do
      let results ← files.mapM (result checkout machine values)
      return conclude succeeds q (results.filter (·.state = .differs))

section Results

variable {checkout machine : Disk} {v : UnitValues} {f : SystemFile} {r : Result} {path : Text}

/-- What the checkout has for a file. -/
def shippedText (checkout : Disk) (v : UnitValues) (f : SystemFile) : Option Text :=
  (checkout f.template).bind fun template => f.render template v

theorem render_isSome (hv : v.webRoot.isSome) : ∀ f ∈ files, ∀ template, (f.render template v).isSome := by
  have hserver : ∀ template, (renderServerUnit template v).isSome := by
    intro template
    rw [renderServerUnit, Option.isSome_map]
    exact hv
  have hupdate : ∀ template, (renderUpdateUnit template v).isSome := by
    intro template
    rw [renderUpdateUnit, Option.isSome_map]
    exact hv
  simp only [files, List.forall_mem_cons]
  exact ⟨hserver, fun _ => rfl, hupdate, fun _ => rfl, fun _ => rfl, fun _ => rfl,
    fun _ h => absurd h List.not_mem_nil⟩

theorem result_isSome (hv : v.webRoot.isSome) (hf : f ∈ files) : (result checkout machine v f).isSome := by
  rw [result]
  split
  · rfl
  · next template _ =>
    obtain ⟨shipped, hshipped⟩ := Option.isSome_iff_exists.1 (render_isSome hv f hf template)
    rw [hshipped]
    rfl

theorem result_file (h : result checkout machine v f = some r) : r.file = f := by
  rw [result] at h
  split at h
  · cases h
    rfl
  · obtain ⟨shipped, -, h⟩ := Option.bind_eq_some_iff.1 h
    cases h
    rfl

theorem planSystemFile_differs {installed : Option Text} {shipped : Text} :
    planSystemFile installed shipped = .differs ↔ ∃ text, installed = some text ∧ text ≠ shipped := by
  cases installed with
  | none => simp [planSystemFile]
  | some text =>
    by_cases h : text = shipped
    · simp [planSystemFile, h]
    · simp [planSystemFile, h]

theorem result_differs (h : result checkout machine v f = some r) :
    r.state = .differs ↔ ∃ text, machine f.installed = some text ∧
      shippedText checkout v f = some r.shipped ∧ text ≠ r.shipped := by
  rw [result] at h
  rw [shippedText]
  split at h
  · next hnone =>
    cases h
    simp [hnone]
  · next template htemplate =>
    obtain ⟨shipped, hshipped, h⟩ := Option.bind_eq_some_iff.1 h
    cases h
    simp only [planSystemFile_differs, htemplate, Option.bind_some, hshipped, true_and]

end Results

section Plan

variable {checkout machine : Disk} {v : UnitValues} {f : SystemFile} {r : Result}

theorem mapM_filterMap {g : α → Option β} {l : List α} (h : ∀ x ∈ l, (g x).isSome) :
    l.mapM g = some (l.filterMap g) := by
  induction l with
  | nil => rfl
  | cons x l ih =>
    obtain ⟨y, hy⟩ := Option.isSome_iff_exists.1 (h x List.mem_cons_self)
    rw [List.mapM_cons, hy, ih fun z hz => h z (List.mem_cons_of_mem x hz), List.filterMap_cons_some hy]
    rfl

/-- What is concluded of the files that differ. -/
def changedFiles (checkout machine : Disk) (v : UnitValues) : List Result :=
  (files.filterMap (result checkout machine v)).filter (·.state = .differs)

theorem changed_spec (h : r ∈ changedFiles checkout machine v) : r.file ∈ files ∧
    ∃ text, machine r.file.installed = some text ∧ shippedText checkout v r.file = some r.shipped ∧
      text ≠ r.shipped := by
  obtain ⟨h, hstate⟩ := List.mem_filter.1 h
  obtain ⟨f, hf, hr⟩ := List.mem_filterMap.1 h
  have hfile := result_file hr
  subst hfile
  exact ⟨hf, (result_differs hr).1 (of_decide_eq_true hstate)⟩

theorem mem_changed (hf : f ∈ files) (hm : machine f.installed = some text)
    (hs : shippedText checkout v f = some shipped) (hne : text ≠ shipped) :
    ⟨f, .differs, shipped⟩ ∈ changedFiles checkout machine v := by
  obtain ⟨template, htemplate, hrender⟩ := Option.bind_eq_some_iff.1 hs
  have hresult : result checkout machine v f = some ⟨f, .differs, shipped⟩ := by
    rw [result, htemplate]
    simp [hrender, hm, planSystemFile, hne]
  exact List.mem_filter.2 ⟨List.mem_filterMap.2 ⟨f, hf, hresult⟩, rfl⟩

theorem changed_sublist : ((changedFiles checkout machine v).map (·.file)).Sublist files := by
  have hall : ∀ l : List SystemFile, ((l.filterMap (result checkout machine v)).map (·.file)).Sublist l := by
    intro l
    induction l with
    | nil => exact .slnil
    | cons f l ih =>
      cases hr : result checkout machine v f with
      | none =>
        rw [List.filterMap_cons_none hr]
        exact ih.cons f
      | some r =>
        rw [List.filterMap_cons_some hr, List.map_cons, result_file hr]
        exact ih.cons_cons f
  exact (List.filter_sublist.map _).trans (hall files)

/-- Where each file is that a run overwrites. -/
def places : List Text := files.map (·.installed)

theorem places_nodup : places.Nodup := by decide +kernel

theorem basenames_nodup : (places.map basename).Nodup := by decide +kernel

theorem place_etc (h : p ∈ places) : ∃ t, p = '/' :: 'e' :: t := by
  have hall : places.all (fun p => "/e".toList.isPrefixOf p) = true := by decide +kernel
  obtain ⟨t, ht⟩ := List.isPrefixOf_iff_prefix.1 (List.all_eq_true.1 hall p h)
  exact ⟨t, ht.symm⟩

theorem backupOf_not_place (stamp p : Text) : backupOf stamp p ∉ places := by
  intro h
  obtain ⟨t, ht⟩ := place_etc h
  cases ht

theorem place_outside (stamp : Text) (h : p ∈ places) : ¬ backupDir stamp ++ ['/'] <+: p := by
  rintro ⟨t, ht⟩
  obtain ⟨t', ht'⟩ := place_etc h
  rw [ht'] at ht
  cases ht

/-- The files that a run overwrites. -/
def replacements (checkout machine : Disk) (v : UnitValues) (stamp : Text) : List (Replacement Text Text) :=
  (changedFiles checkout machine v).map (Result.replacement stamp)

theorem separate (stamp : Text) : Separate (replacements checkout machine v stamp) := by
  have hsub : ((changedFiles checkout machine v).map fun r => r.file.installed).Sublist places := by
    have hfiles : ((changedFiles checkout machine v).map (·.file)).Sublist files := changed_sublist
    have hplaces := hfiles.map (·.installed)
    rw [List.map_map] at hplaces
    exact hplaces
  constructor
  · rw [replacements, List.map_map]
    exact places_nodup.sublist hsub
  · have hnames := basenames_nodup.sublist (hsub.map basename)
    have hinjective : Function.Injective fun name : Text => backupDir stamp ++ '/' :: name := by
      intro a b hab
      exact (List.cons.inj (List.append_cancel_left hab)).2
    have hbackups := hnames.map hinjective
    rw [List.map_map, List.map_map] at hbackups
    rw [replacements, List.map_map]
    exact hbackups
  · intro r hr s hs he
    obtain ⟨a, -, rfl⟩ := List.mem_map.1 hr
    obtain ⟨b, hb, rfl⟩ := List.mem_map.1 hs
    have hplace : backupOf stamp a.file.installed = b.file.installed := he
    apply backupOf_not_place stamp a.file.installed
    rw [hplace]
    exact hsub.subset (List.mem_map_of_mem hb)

theorem files_inj (hf : f ∈ files) (hg : g ∈ files) (h : f.installed = g.installed) : f = g :=
  List.inj_on_of_nodup_map places_nodup hf hg h

/-- After the writes, each installed file is what the checkout has for it. -/
theorem written_shipped (stamp : Text) (hf : f ∈ files) (hm : machine f.installed = some text)
    (hs : shippedText checkout v f = some shipped) :
    runAll (replacements checkout machine v stamp) machine f.installed = some shipped := by
  have hplace : f.installed ∈ places := List.mem_map_of_mem hf
  by_cases hsame : text = shipped
  · have hother : ∀ r ∈ replacements checkout machine v stamp,
        f.installed ≠ r.path ∧ f.installed ≠ r.backup := by
      intro r hr
      obtain ⟨a, ha, rfl⟩ := List.mem_map.1 hr
      constructor
      · intro hpath
        obtain ⟨hfile, text', hm', hs', hne⟩ := changed_spec ha
        have hfa : f = a.file := files_inj hf hfile hpath
        subst hfa
        rw [hm] at hm'
        rw [hs] at hs'
        cases hm'
        cases hs'
        exact hne hsame
      · intro hbackup
        apply backupOf_not_place stamp a.file.installed
        rw [show backupOf stamp a.file.installed = f.installed from hbackup.symm]
        exact hplace
    rw [(replacing_runAll _ machine).frame hother, hm, hsame]
  · have hmem := List.mem_map_of_mem (f := Result.replacement stamp) (mem_changed hf hm hs hsame)
    exact runAll_path (separate stamp) hmem

end Plan

section Runs

variable {succeeds : Command → Bool} {checkout machine now : Disk} {v : UnitValues} {q : Invocation}
  {o : Outcome} {stamp backend : Text}

/-- Outside the folder of the run, a file is as it was, or it is one of those that the installer has
put in place and what it had is in the folder. Nothing is put where nothing was. -/
structure Spared (stamp : Text) (machine now : Disk) : Prop where
  kept : ∀ path text, machine path = some text → ¬ backupDir stamp ++ ['/'] <+: path →
    now path = some text ∨ path ∈ places ∧ now (backupOf stamp path) = some text
  absent : ∀ path, machine path = none → ¬ backupDir stamp ++ ['/'] <+: path → now path = none

theorem Spared.refl (stamp : Text) (machine : Disk) : Spared stamp machine machine :=
  ⟨fun _ _ h _ => .inl h, fun _ h _ => h⟩

theorem spared (h : Replacing (replacements checkout machine v stamp) machine now) :
    Spared stamp machine now := by
  have hframe : ∀ path, ¬ backupDir stamp ++ ['/'] <+: path →
      (∀ r ∈ changedFiles checkout machine v, path ≠ r.file.installed) → now path = machine path := by
    intro path hfolder hpath
    apply h.frame
    intro r hr
    obtain ⟨a, ha, rfl⟩ := List.mem_map.1 hr
    refine ⟨hpath a ha, ?_⟩
    rintro rfl
    apply hfolder
    exact ⟨basename a.file.installed, by simp [Result.replacement, backupOf]⟩
  constructor
  · intro path text hm hfolder
    by_cases hpath : ∃ r ∈ changedFiles checkout machine v, path = r.file.installed
    · obtain ⟨r, hr, rfl⟩ := hpath
      have hkept := h.spared (separate stamp) (List.mem_map_of_mem hr)
      rw [show machine (Result.replacement stamp r).path = some text from hm] at hkept
      exact hkept.imp id fun hb => ⟨List.mem_map_of_mem (changed_spec hr).1, hb⟩
    · left
      rw [hframe path hfolder fun r hr he => hpath ⟨r, hr, he⟩, hm]
  · intro path hm hfolder
    rw [hframe path hfolder, hm]
    rintro r hr rfl
    obtain ⟨-, text, htext, -⟩ := changed_spec hr
    rw [hm] at htext
    cases htext

theorem conclude_cases (succeeds : Command → Bool) (q : Invocation) (changed : List Result) :
    (conclude succeeds q changed).written = [] ∧ (conclude succeeds q changed).commands = [] ∨
      q.apply = true ∧ confirm q = true ∧
        (conclude succeeds q changed).written = changed.map (Result.replacement q.stamp) ∧
        ((conclude succeeds q changed).commands = [] ∨
          (conclude succeeds q changed).commands = (afterWrites succeeds changed).1) := by
  rw [conclude]
  split
  · exact .inl ⟨rfl, rfl⟩
  · split
    · exact .inl ⟨rfl, rfl⟩
    · next hconfirmed =>
      have happly : q.apply = true ∧ confirm q = true := by simpa using hconfirmed
      dsimp only
      split
      · exact .inr ⟨happly.1, happly.2, rfl, .inl rfl⟩
      · exact .inr ⟨happly.1, happly.2, rfl, .inr rfl⟩

theorem conclude_written (happly : q.apply = true) (hconfirm : confirm q = true) (changed : List Result) :
    (conclude succeeds q changed).written = changed.map (Result.replacement q.stamp) := by
  rw [conclude, happly, hconfirm]
  cases changed with
  | nil => rfl
  | cons r changed =>
    cases hrooted : q.rooted with
    | true => rfl
    | false => rfl

theorem main_eq (hbackend : machine backendUnit.installed = some backend) (hne : backend ≠ [])
    (hroot : (recoverUnitValues backend).webRoot ≠ none) (huser : (recoverUnitValues backend).user ≠ none) :
    main succeeds checkout machine q =
      some (conclude succeeds q (changedFiles checkout machine (recoverUnitValues backend))) := by
  rw [main, hbackend, Option.filter_some, if_pos (decide_eq_true hne)]
  dsimp only
  rw [if_neg fun h => h.elim hroot huser,
    mapM_filterMap fun f hf => result_isSome (Option.isSome_iff_ne_none.2 hroot) hf]
  rfl

/-- A run stops before it has written anything, or it overwrites the files that differ. -/
theorem main_cases (succeeds : Command → Bool) (checkout machine : Disk) (q : Invocation) :
    ∃ o, main succeeds checkout machine q = some o ∧ (o.written = [] ∧ o.commands = [] ∨
      q.apply = true ∧ confirm q = true ∧ ∃ backend, machine backendUnit.installed = some backend ∧
        o.written = replacements checkout machine (recoverUnitValues backend) q.stamp ∧
        (o.commands = [] ∨ o.commands =
          (afterWrites succeeds (changedFiles checkout machine (recoverUnitValues backend))).1)) := by
  cases hbackend : (machine backendUnit.installed).filter (· ≠ []) with
  | none =>
    rw [main, hbackend]
    exact ⟨_, rfl, .inl ⟨rfl, rfl⟩⟩
  | some backend =>
    obtain ⟨hmachine, hne⟩ := Option.filter_eq_some_iff.1 hbackend
    by_cases hvalues : (recoverUnitValues backend).webRoot = none ∨ (recoverUnitValues backend).user = none
    · rw [main, hbackend]
      dsimp only
      rw [if_pos hvalues]
      exact ⟨_, rfl, .inl ⟨rfl, rfl⟩⟩
    · rw [not_or] at hvalues
      refine ⟨_, main_eq hmachine (of_decide_eq_true hne) hvalues.1 hvalues.2, ?_⟩
      have hcases := conclude_cases succeeds q (changedFiles checkout machine (recoverUnitValues backend))
      exact hcases.imp id fun h => ⟨h.1, h.2.1, backend, hmachine, h.2.2⟩

theorem reload_tested {changed : List Result} (h : .reloadNginx ∈ (afterWrites succeeds changed).1) :
    succeeds .testNginx = true ∧ ∃ r ∈ changed, r.file.after = .nginx := by
  have hsystemd : Command.reloadNginx ∉ if changed.any (·.file.after = .systemd) then
      Command.daemonReload :: ((changed.map fun r => basename r.file.installed).filter
        fun u => ".timer".toList.isSuffixOf u).map Command.restart else [] := by
    split
    · simp
    · exact List.not_mem_nil
  rw [afterWrites] at h
  split at h
  · next hnginx =>
    obtain ⟨r, hr, hafter⟩ := List.any_eq_true.1 hnginx
    refine ⟨?_, r, hr, of_decide_eq_true hafter⟩
    split at h
    · next htested => exact htested
    · rcases List.mem_append.1 h with h | h
      · exact absurd h hsystemd
      · simp at h
  · exact absurd h hsystemd

/-- The reconciler loses nothing, however far it gets: it writes only what it has been told to, keeps
what it overwrites, and leaves every installed file as the checkout has it. -/
theorem reconcile_spares (succeeds : Command → Bool) (checkout machine : Disk) (q : Invocation) :
    ∃ o, main succeeds checkout machine q = some o ∧
      (q.apply = false ∨ confirm q = false → o.written = []) ∧
      (∀ now, Replacing o.written machine now → Spared q.stamp machine now) ∧
      (o.written ≠ [] → ∀ backend, machine backendUnit.installed = some backend → ∀ f ∈ files,
        ∀ text shipped, machine f.installed = some text →
          shippedText checkout (recoverUnitValues backend) f = some shipped →
            runAll o.written machine f.installed = some shipped) ∧
      (.reloadNginx ∈ o.commands → succeeds .testNginx = true ∧
        ∃ r ∈ o.written, r.path = "/etc/nginx/sites-available/mise".toList) := by
  obtain ⟨o, ho, hcases⟩ := main_cases succeeds checkout machine q
  refine ⟨o, ho, ?_⟩
  rcases hcases with ⟨hwritten, hcommands⟩ | ⟨happly, hconfirm, backend, hbackend, hwritten, hcommands⟩
  · rw [hwritten, hcommands]
    refine ⟨fun _ => rfl, ?_, fun h => absurd rfl h, fun h => absurd h List.not_mem_nil⟩
    intro now hnow
    cases hnow
    exact .refl q.stamp machine
  · rw [hwritten]
    refine ⟨?_, fun now hnow => spared hnow, ?_, ?_⟩
    · rintro (h | h)
      · rw [happly] at h
        cases h
      · rw [hconfirm] at h
        cases h
    · intro _ backend' hbackend' f hf text shipped hm hs
      rw [hbackend] at hbackend'
      cases hbackend'
      exact written_shipped q.stamp hf hm hs
    · intro hreload
      rcases hcommands with hcommands | hcommands
      · rw [hcommands] at hreload
        cases hreload
      · rw [hcommands] at hreload
        obtain ⟨htested, r, hr, hafter⟩ := reload_tested hreload
        refine ⟨htested, _, List.mem_map_of_mem hr, ?_⟩
        have hall : ∀ f ∈ files, f.after = .nginx →
            f.installed = "/etc/nginx/sites-available/mise".toList := by
          decide +kernel
        exact hall r.file (changed_spec hr).1 hafter

end Runs

section Settled

variable {succeeds : Command → Bool} {checkout machine : Disk} {q : Invocation}
  {webRoot host adminCode backend : Text}

/-- A unit that shows the values of an installation is one that a run can go by. -/
theorem main_installed (hbackend : machine backendUnit.installed = some backend)
    (hvalues : recoverUnitValues backend = installedValues webRoot host adminCode) :
    main succeeds checkout machine q =
      some (conclude succeeds q (changedFiles checkout machine (installedValues webRoot host adminCode))) := by
  have hne : backend ≠ [] := by
    rintro rfl
    have huser := congrArg UnitValues.user hvalues
    have hnone : (recoverUnitValues []).user = none := by decide
    rw [hnone] at huser
    cases huser
  rw [main_eq hbackend hne, hvalues]
  · rw [hvalues]
    exact Option.some_ne_none webRoot
  · rw [hvalues]
    exact Option.some_ne_none serviceUser

/-- Nothing is done about a machine whose files are what the checkout has for them. -/
theorem changed_none {v : UnitValues} (h : ∀ f ∈ files, ∀ text shipped, machine f.installed = some text →
    shippedText checkout v f = some shipped → text = shipped) : changedFiles checkout machine v = [] := by
  rw [List.eq_nil_iff_forall_not_mem]
  intro r hr
  obtain ⟨hf, text, hm, hs, hdiffers⟩ := changed_spec hr
  exact hdiffers (h r.file hf text r.shipped hm hs)

/-- Where the installed backend unit still shows the values of the installation, one confirmed run
restores every installed file, and no run after it finds anything to do. -/
theorem reconcile_settles (h : Accepted webRoot host adminCode) (hr : Recoverable webRoot host)
    (htemplate : checkout backendUnit.template = some serverUnit)
    (hbackend : machine backendUnit.installed = some backend)
    (hvalues : recoverUnitValues backend = installedValues webRoot host adminCode)
    (happly : q.apply = true) (hconfirm : confirm q = true) :
    ∃ o, main succeeds checkout machine q = some o ∧
      (∀ f ∈ files, ∀ text shipped, machine f.installed = some text →
        shippedText checkout (installedValues webRoot host adminCode) f = some shipped →
          runAll o.written machine f.installed = some shipped) ∧
      ∀ q', main succeeds checkout (runAll o.written machine) q' = some ⟨0, [], []⟩ := by
  refine ⟨_, main_installed hbackend hvalues, ?_⟩
  have hwritten : (conclude succeeds q (changedFiles checkout machine
      (installedValues webRoot host adminCode))).written =
        replacements checkout machine (installedValues webRoot host adminCode) q.stamp :=
    conclude_written happly hconfirm _
  rw [hwritten]
  generalize hv : installedValues webRoot host adminCode = v at *
  have hshipped : ∀ f ∈ files, ∀ text shipped, machine f.installed = some text →
      shippedText checkout v f = some shipped →
        runAll (replacements checkout machine v q.stamp) machine f.installed = some shipped :=
    fun f hf text shipped hm hs => written_shipped q.stamp hf hm hs
  refine ⟨hshipped, fun q' => ?_⟩
  have hfiles : ∀ f ∈ files, ∀ text shipped,
      runAll (replacements checkout machine v q.stamp) machine f.installed = some text →
        shippedText checkout v f = some shipped → text = shipped := by
    intro f hf text shipped hnow hs
    cases hm : machine f.installed with
    | none =>
      have hspared := spared (replacing_runAll (replacements checkout machine v q.stamp) machine)
      have hplace : f.installed ∈ places := List.mem_map_of_mem hf
      rw [hspared.absent f.installed hm (place_outside q.stamp hplace)] at hnow
      cases hnow
    | some earlier =>
      rw [hshipped f hf earlier shipped hm hs] at hnow
      exact (Option.some.inj hnow).symm
  obtain ⟨unit, hunit, hrecovered⟩ := recovered_installed h hr
  have hbackendNow : runAll (replacements checkout machine v q.stamp) machine backendUnit.installed =
      some unit := by
    apply hshipped backendUnit List.mem_cons_self backend unit hbackend
    rw [shippedText, htemplate, Option.bind_some, ← hv]
    exact hunit
  rw [main_installed hbackendNow hrecovered, hv, changed_none hfiles]
  rfl

/-- The backend unit of an older installation, which has been edited. -/
def sampleUnit : Text :=
  "User=mise\nWorkingDirectory=/var/www/mise/server\nEnvironment=BASE_URL=http://".toList ++ sampleHost ++
    "\nEnvironment=ADMIN_PAYMENT_CODES=".toList ++ sampleCode ++ "\n".toList

def sampleCheckout : Disk := fun p => if p = backendUnit.template then some serverUnit else none

def sampleMachine : Disk := fun p => if p = backendUnit.installed then some sampleUnit else none

def sampleRun : Invocation where
  apply := true
  yes := true
  answer := none
  rooted := false
  stamp := "2026-11-19".toList

theorem sampleUnit_values : recoverUnitValues sampleUnit =
    installedValues "/var/www/mise".toList sampleHost sampleCode := by
  have huser : (recoverUnitValues sampleUnit).user = some serviceUser := by decide +kernel
  have hroot : (recoverUnitValues sampleUnit).webRoot = some "/var/www/mise".toList := by decide +kernel
  have hurl : (recoverUnitValues sampleUnit).baseUrl = some ("http://".toList ++ sampleHost) := by
    decide +kernel
  have hcode : (recoverUnitValues sampleUnit).adminCode = some sampleCode := by decide +kernel
  rw [installedValues, ← huser, ← hroot, ← hurl, ← hcode]

theorem reconcile_settles_sample : ∃ o, main (fun _ => true) sampleCheckout sampleMachine sampleRun = some o ∧
    (∀ shipped, shippedText sampleCheckout (installedValues "/var/www/mise".toList sampleHost sampleCode)
        backendUnit = some shipped → runAll o.written sampleMachine backendUnit.installed = some shipped) ∧
    ∀ q', main (fun _ => true) sampleCheckout (runAll o.written sampleMachine) q' = some ⟨0, [], []⟩ := by
  have hunit : sampleMachine backendUnit.installed = some sampleUnit := if_pos rfl
  obtain ⟨o, ho, hshipped, hagain⟩ := @reconcile_settles (fun _ => true) sampleCheckout sampleMachine sampleRun
    _ _ _ _ sample_accepted sample_recoverable (if_pos rfl) hunit sampleUnit_values rfl rfl
  exact ⟨o, ho, fun shipped hs => hshipped backendUnit List.mem_cons_self sampleUnit shipped hunit hs, hagain⟩

end Settled

end Mise.System
