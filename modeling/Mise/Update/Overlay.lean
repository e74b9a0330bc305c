import Mise.Update.SelfUpdate

set_option autoImplicit true

namespace Mise.Update

open Files

/-- Where the seed, the operator binding, the histories and the published list are, or the
submission store. -/
def InstanceData (p : List String) : Prop := ["data"] <+: p ∨ ["server", "data"] <+: p

instance (p : List String) : Decidable (InstanceData p) := inferInstanceAs (Decidable (_ ∨ _))

/-- The entry is staged as instance data, in a spelling that is not skipped. -/
def NamesData (name : String) : Prop := ∃ rel, Stages name rel ∧ InstanceData (segments rel)

/-- The overlay cannot write instance data. -/
def SparesData (a : Applied) : Prop :=
  (∀ p, (a.staging.content p).isSome → p ≠ [] ∧ ¬ InstanceData p) ∧
    ∀ staged root after, Installed a.staging staged → Tree.Copying staged root after →
      ∀ p, InstanceData p → after.content p = root.content p

section Overlay

variable {R : ZipRuntime} {S : Site} {bytes : List UInt8} {a : Applied}

theorem InstanceData.not_modules (h : InstanceData p) : ¬ ["server", "node_modules"] <+: p := by
  intro hm
  obtain h | h := h
  · obtain ⟨r, rfl⟩ := h
    simp at hm
  · obtain ⟨r, rfl⟩ := h
    simp at hm

theorem overlay_frame {staging staged root after : FileTree} (hi : Installed staging staged)
    (hc : Tree.Copying staged root after) (hp : InstanceData p) (hs : staging.content p = none) :
    after.content p = root.content p := by
  obtain h | ⟨h, _⟩ := hc p
  · exact h
  · rw [hi p hp.not_modules, hs] at h
    cases h

/-- An update spares the instance's data if and only if no entry of its archive names them in
another spelling. -/
theorem update_spares_data (h : applyUpdate R S bytes = .ok a) :
    SparesData a ↔ ∀ entries, unzip R bytes = .ok entries → ∀ f ∈ entries, ¬ NamesData f.1 := by
  obtain ⟨entries, files, ha⟩ := applyUpdate_ok h
  constructor
  · rintro ⟨hstaged, _⟩ entries' hentries f hf ⟨rel, hrel, hdata⟩
    cases ha.unzip.symm.trans hentries
    have hcontent := (ha.content (segments rel)).2 ⟨f, hf, rel, hrel, rfl⟩
    exact (hstaged _ hcontent).2 hdata
  · intro hnames
    have hstaged : ∀ p, (a.staging.content p).isSome → p ≠ [] ∧ ¬ InstanceData p := by
      intro p hp
      refine ⟨?_, fun hdata => ?_⟩
      · rintro rfl
        rw [Tree.content_root] at hp
        cases hp
      · obtain ⟨f, hf, rel, hrel, rfl⟩ := (ha.content p).1 hp
        exact hnames entries ha.unzip f hf ⟨rel, hrel, hdata⟩
    refine ⟨hstaged, fun staged root after hi hc p hp => overlay_frame hi hc hp ?_⟩
    cases hs : a.staging.content p with
    | none => rfl
    | some c => exact absurd hp (hstaged p (by rw [hs]; rfl)).2

end Overlay

section Sample

def sampleSource : List ZipEntry :=
  [{ name := "mise/server/index.mjs", data := [] }, { name := "mise/assets/js/app.js", data := [97] }]

/-- An archive that has the submission store of another instance. -/
def storeArchive : List ZipEntry :=
  sampleSource ++ [{ name := "mise/server/data/store.json", data := [97] }]

/-- The tree that has these files, where they can be written one after the other. -/
def treeOf (files : List ArchiveFile) : FileTree :=
  match stage (fun _ => true) files .empty with
  | .ok t => t
  | .error _ => .empty

def sampleFiles : List ArchiveFile :=
  [("server/index.mjs", [97]), ("assets/js/app.js", [97]), ("LICENSE", [97])]

def sampleSite : Site where
  webRoot := "/var/www/mise"
  tree := treeOf sampleFiles
  takes _ := true

theorem apply_storeArchive :
    ((applyUpdate sampleRuntime sampleSite (buildZip sampleRuntime storeArchive)).toOption.map
      fun a => a.staging.content ["server", "data", "store.json"]) = some (some [97]) := by
  unfold applyUpdate
  rw [unzip_buildZip sampleRuntime storeArchive (by decide)
    (fits_sample (by decide +kernel) (by decide +kernel) (by decide)) (by decide)]
  decide +kernel

/-- The store of an archive is staged over the store of the instance. -/
theorem update_stages_store :
    ¬ ∀ R S bytes a, applyUpdate R S bytes = .ok a → SparesData a := by
  intro h
  have happly := apply_storeArchive
  cases ha : applyUpdate sampleRuntime sampleSite (buildZip sampleRuntime storeArchive) with
  | error fault =>
    rw [ha] at happly
    cases happly
  | ok a =>
    rw [ha] at happly
    have hstore : a.staging.content ["server", "data", "store.json"] = some [97] :=
      Option.some.inj happly
    have hspares := (h _ _ _ a ha).1 ["server", "data", "store.json"] (by rw [hstore]; rfl)
    exact hspares.2 (by decide)

theorem apply_sampleSource :
    (applyUpdate sampleRuntime sampleSite (buildZip sampleRuntime sampleSource)).toOption.isSome := by
  unfold applyUpdate
  rw [unzip_buildZip sampleRuntime sampleSource (by decide)
    (fits_sample (by decide +kernel) (by decide +kernel) (by decide)) (by decide)]
  decide +kernel

theorem update_spares_data_sample :
    ∃ a, applyUpdate sampleRuntime sampleSite (buildZip sampleRuntime sampleSource) = .ok a ∧
      (SparesData a ↔ ∀ entries, unzip sampleRuntime (buildZip sampleRuntime sampleSource) = .ok entries →
        ∀ f ∈ entries, ¬ NamesData f.1) := by
  have happly := apply_sampleSource
  cases ha : applyUpdate sampleRuntime sampleSite (buildZip sampleRuntime sampleSource) with
  | error fault =>
    rw [ha] at happly
    cases happly
  | ok a => exact ⟨a, rfl, update_spares_data ha⟩

end Sample

end Mise.Update
