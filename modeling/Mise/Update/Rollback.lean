import Mise.Update.Overlay

set_option autoImplicit true

namespace Mise.Update

open Files

/-- The version marker, and what dependencies are installed into. -/
def Exempt (p : List String) : Prop := p = ["data", "version.json"] ∨ "node_modules" ∈ p

/-- The name is in the list of the backup, and nothing on the way is called `data`. -/
def Covered (p : List String) : Prop := p.head?.any (· ∈ backupNames) ∧ "data" ∉ p

instance (p : List String) : Decidable (Exempt p) := inferInstanceAs (Decidable (_ ∨ _))

/-- An update whose overlay of `staged` onto `root` its backup can undo. -/
def BacksUpOverlay (a : Applied) (staged root : FileTree) (h : Tree.Compatible staged root) : Prop :=
  (∀ p c, root.content p = some c → (staged.content p).isSome → ¬ Exempt p →
    a.backup.content p = some c) ∧
  (∀ p, InstanceData p → a.backup.content p = none) ∧
  ∃ hb : Tree.Compatible a.backup (Tree.overlay staged root h), ∀ p c, root.content p = some c →
    (staged.content p).isSome → ¬ Exempt p → (Tree.overlay a.backup (Tree.overlay staged root h) hb).content p = some c

section Backup

variable {R : ZipRuntime} {S : Site} {bytes : List UInt8} {a : Applied} {t staged : FileTree}

/-- The filter looks at the whole path, so a path passes with all that is above it. -/
theorem kept_backsUp {p : List String} (hp : p ≠ []) : Tree.Kept backsUp p ↔ backsUp p := by
  constructor
  · intro h
    exact h p ((List.mem_inits p p).2 List.prefix_rfl) hp
  · intro h q hq hne
    obtain ⟨r, rfl⟩ := (List.mem_inits q p).1 hq
    unfold backsUp at h ⊢
    rw [Bool.and_eq_true, Bool.not_eq_true', List.any_append, Bool.or_eq_false_iff,
      List.head?_append_of_ne_nil _ hne] at h
    rw [Bool.and_eq_true, Bool.not_eq_true']
    exact ⟨h.1, h.2.1⟩

theorem content_backup (t : FileTree) (p : List String) :
    (backup t).content p = if backsUp p then t.content p else none := by
  by_cases hp : p = []
  · rw [hp, Tree.content_root, Tree.content_root, ite_self]
  · rw [backup, Tree.content_select]
    simp only [kept_backsUp hp]

theorem backsUp_iff (hp : ¬ Exempt p) : backsUp p = true ↔ Covered p := by
  have hmodules : "node_modules" ∉ p := fun h => hp (.inr h)
  unfold backsUp Covered
  rw [Bool.and_eq_true, Bool.not_eq_true', List.any_eq_false]
  refine and_congr_right fun _ => ⟨fun h hdata => ?_, fun hdata x hx => ?_⟩
  · exact h "data" hdata (by decide)
  · rw [decide_eq_true_eq]
    intro he
    obtain rfl | he := List.mem_cons.1 he
    · exact hmodules hx
    · cases List.mem_singleton.1 he
      exact hdata hx

theorem backsUp_instance (h : InstanceData p) : backsUp p = false := by
  have hdata : "data" ∈ p := by
    obtain ⟨r, rfl⟩ | ⟨r, rfl⟩ := h
    · simp
    · simp
  have hany : p.any (· ∈ excluded) = true := List.any_eq_true.2 ⟨"data", hdata, by decide⟩
  rw [backsUp, hany, Bool.not_true, Bool.and_false]

theorem backup_compatible (h : Tree.Compatible staged t) :
    Tree.Compatible (backup t) (Tree.overlay staged t h) := by
  intro p
  constructor
  · intro hfolder
    have ht : t.node p = some .folder := by
      have hnode : (backup t).node p = if Tree.Kept backsUp p then t.node p else none := rfl
      rw [hnode] at hfolder
      split at hfolder
      · exact hfolder
      · cases hfolder
    rw [Tree.content_over, (h p).2 ht, Option.none_or, Tree.content, ht]
    rfl
  · intro hfolder
    have ht : t.content p = none := by
      have hnode : (Tree.overlay staged t h).node p = (staged.node p).or (t.node p) := rfl
      rw [hnode] at hfolder
      cases hs : staged.node p with
      | none =>
        rw [hs, Option.none_or] at hfolder
        rw [Tree.content, hfolder]
        rfl
      | some n =>
        rw [hs, Option.some_or] at hfolder
        exact (h p).1 (hs.trans hfolder)
    rw [content_backup, ht, ite_self]

/-- The backup of an update covers its overlay if and only if each file that the archive has in
common with the web root is below a name of the list, and nothing above it is called `data`. -/
theorem backup_covers_overlay (h : applyUpdate R S bytes = .ok a)
    (hi : Installed a.staging staged) (hc : Tree.Compatible staged S.tree) :
    BacksUpOverlay a staged S.tree hc ↔
      ∀ entries, unzip R bytes = .ok entries → ∀ f ∈ entries, ∀ rel, Stages f.1 rel →
        (S.tree.content (segments rel)).isSome → ¬ Exempt (segments rel) → Covered (segments rel) := by
  obtain ⟨entries, files, ha⟩ := applyUpdate_ok h
  have hstaged : ∀ p, ¬ Exempt p → staged.content p = a.staging.content p := by
    intro p hp
    apply hi
    rintro ⟨r, rfl⟩
    exact hp (.inr (by simp))
  constructor
  · rintro ⟨hcopied, _⟩ entries' hentries f hf rel hrel hroot hexempt
    cases ha.unzip.symm.trans hentries
    obtain ⟨c, hcontent⟩ := Option.isSome_iff_exists.1 hroot
    have hin : (staged.content (segments rel)).isSome := by
      rw [hstaged _ hexempt]
      exact (ha.content _).2 ⟨f, hf, rel, hrel, rfl⟩
    have hbackup := hcopied _ c hcontent hin hexempt
    rw [ha.backup, content_backup] at hbackup
    split at hbackup
    · next hb => exact (backsUp_iff hexempt).1 hb
    · cases hbackup
  · intro hcovered
    have hcopied : ∀ p c, S.tree.content p = some c → (staged.content p).isSome → ¬ Exempt p →
        a.backup.content p = some c := by
      intro p c hcontent hin hexempt
      rw [hstaged p hexempt] at hin
      obtain ⟨f, hf, rel, hrel, rfl⟩ := (ha.content p).1 hin
      have hb := hcovered entries ha.unzip f hf rel hrel (by rw [hcontent]; rfl) hexempt
      rw [ha.backup, content_backup, (backsUp_iff hexempt).2 hb, if_pos rfl, hcontent]
    have hb : Tree.Compatible a.backup (Tree.overlay staged S.tree hc) := by
      rw [ha.backup]
      exact backup_compatible hc
    refine ⟨hcopied, fun p hp => ?_, hb, fun p c hcontent hin hexempt => ?_⟩
    · rw [ha.backup, content_backup, backsUp_instance hp]
      rfl
    · rw [Tree.content_over, hcopied p c hcontent hin hexempt, Option.some_or]

end Backup

section Sample

/-- An archive with a file that no list of the backup has. -/
def licenseArchive : List ZipEntry := sampleSource ++ [{ name := "mise/LICENSE", data := [] }]

def samplePaths : List (List String) :=
  [["server", "index.mjs"], ["assets", "js", "app.js"], ["LICENSE"]]

theorem unzip_licenseArchive : unzip sampleRuntime (buildZip sampleRuntime licenseArchive) =
    .ok (licenseArchive.map fun e => (e.name, e.data)) :=
  unzip_buildZip sampleRuntime licenseArchive (by decide)
    (fits_sample (by decide +kernel) (by decide +kernel) (by decide)) (by decide)

theorem apply_licenseArchive :
    ((applyUpdate sampleRuntime sampleSite (buildZip sampleRuntime licenseArchive)).toOption.map
      fun a => samplePaths.all fun p => a.staging.node p ≠ some .folder) = some true := by
  unfold applyUpdate
  rw [unzip_licenseArchive]
  decide +kernel

theorem content_treeOf (files : List ArchiveFile) (h : ((treeOf files).content p).isSome) :
    p ∈ files.map fun f => segments f.1 := by
  unfold treeOf at h
  split at h
  · next t ht =>
    rw [content_stage ht p, Tree.content_empty] at h
    exact h.resolve_left nofun
  · rw [Tree.content_empty] at h
    cases h

theorem paths_licenseArchive : ∀ f ∈ licenseArchive.map fun e => (e.name, e.data),
    ∀ rel ∈ afterSlash f.1, segments rel ∈ samplePaths := by
  decide +kernel

theorem overlay_licenseArchive :
    ∃ a, applyUpdate sampleRuntime sampleSite (buildZip sampleRuntime licenseArchive) = .ok a ∧
      Tree.Compatible a.staging sampleSite.tree ∧ (a.staging.content ["LICENSE"]).isSome := by
  have happly := apply_licenseArchive
  cases ha : applyUpdate sampleRuntime sampleSite (buildZip sampleRuntime licenseArchive) with
  | error fault =>
    rw [ha] at happly
    cases happly
  | ok a =>
    rw [ha] at happly
    have hfolders := List.all_eq_true.1 (Option.some.inj happly)
    obtain ⟨entries, files, hacc⟩ := applyUpdate_ok ha
    cases hacc.unzip.symm.trans unzip_licenseArchive
    refine ⟨a, rfl, Tree.compatible_of_files (fun p hp => ?_) (fun p hp => ?_), ?_⟩
    · obtain ⟨f, hf, rel, hrel, rfl⟩ := (hacc.content p).1 hp
      have hmem := paths_licenseArchive f hf rel hrel.1
      have hroot : ∀ p ∈ samplePaths, sampleSite.tree.node p ≠ some .folder := by decide +kernel
      exact hroot _ hmem
    · have hpaths : sampleFiles.map (fun f => segments f.1) = samplePaths := by decide +kernel
      have hmem : p ∈ samplePaths := hpaths ▸ content_treeOf sampleFiles hp
      exact of_decide_eq_true (hfolders p hmem)
    · exact (hacc.content ["LICENSE"]).2
        ⟨("mise/LICENSE", []), by decide, "LICENSE", by decide +kernel, by decide +kernel⟩

/-- The license of the instance is overwritten, and its backup does not have it. -/
theorem overlay_loses_license :
    ¬ ∀ R S bytes a staged (hc : Tree.Compatible staged S.tree), applyUpdate R S bytes = .ok a →
      Installed a.staging staged → BacksUpOverlay a staged S.tree hc := by
  intro h
  obtain ⟨a, ha, hc, hin⟩ := overlay_licenseArchive
  have hbacksUp := h _ _ _ a a.staging hc ha fun _ _ => rfl
  have hcontent : sampleSite.tree.content ["LICENSE"] = some [97] := by decide +kernel
  have hbackup := hbacksUp.1 ["LICENSE"] [97] hcontent hin (by decide +kernel)
  obtain ⟨entries, files, hacc⟩ := applyUpdate_ok ha
  rw [hacc.backup, content_backup] at hbackup
  cases hbackup

theorem backup_covers_overlay_sample :
    ∃ a, ∃ hc : Tree.Compatible a.staging sampleSite.tree,
      (BacksUpOverlay a a.staging sampleSite.tree hc ↔
        ∀ entries, unzip sampleRuntime (buildZip sampleRuntime licenseArchive) = .ok entries →
          ∀ f ∈ entries, ∀ rel, Stages f.1 rel → (sampleSite.tree.content (segments rel)).isSome →
            ¬ Exempt (segments rel) → Covered (segments rel)) := by
  obtain ⟨a, ha, hc, _⟩ := overlay_licenseArchive
  exact ⟨a, hc, backup_covers_overlay ha (fun _ _ => rfl) hc⟩

end Sample

end Mise.Update
