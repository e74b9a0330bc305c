import Mise.Update.Archive
import Mise.Update.Tree

set_option autoImplicit true

namespace Mise.Update

open Files

abbrev FileTree := Tree String (List UInt8)

/-- The names on the way to `path.join(dir, rel)` below `dir`, for a path without `..`. -/
def segments (rel : String) : List String :=
  ((rel.toList.splitOn '/').map String.ofList).filter fun s => s ≠ "" ∧ s ≠ "."

example : segments "./server//data/store.json" = ["server", "data", "store.json"] := by decide +kernel

inductive UpdateFault where
  | archive (fault : ArchiveFault)
  | refused (message : String)
  | notWritten (rel : String)
  deriving DecidableEq

/-- What an update finds. -/
structure Site where
  webRoot : String
  tree : FileTree
  /-- The file system can have a file under these names. -/
  takes : List String → Bool

/-- What an update has done when it hands over to the helper. -/
structure Applied where
  staging : FileTree
  backup : FileTree
  entries : Nat

def isSourceTree (files : List ArchiveFile) : Bool :=
  files.any (·.1 = "server/index.mjs") && files.any (·.1 = "assets/js/app.js")

/-- Each file of the archive is written below the staging folder. -/
def stage (takes : List String → Bool) : List ArchiveFile → FileTree → Except UpdateFault FileTree
  | [], t => .ok t
  | (rel, data) :: files, t =>
    match if takes (segments rel) then t.write (segments rel) data else none with
    | none => .error (.notWritten rel)
    | some t => stage takes files t

section Backup

def backupNames : List String :=
  ["assets", "content", "deploy", "scripts", "server", ".github",
    "index.html", "manifest.json", "sw.js", "package.json", "README.md", "CONTRIBUTING.md",
    "install.sh"]

def excluded : List String := ["node_modules", "data"]

/-- A path that the backup copies: it is below a name of the list, and passes the filter. -/
def backsUp (p : List String) : Bool :=
  p.head?.any (· ∈ backupNames) && !p.any (· ∈ excluded)

/-- The names of the list that the web root has. -/
def backedUp (webRoot : FileTree) : List String :=
  backupNames.filter fun rel => (webRoot.node [rel]).isSome

def backup (webRoot : FileTree) : FileTree := webRoot.select backsUp

end Backup

def applyUpdate (R : ZipRuntime) (S : Site) (bytes : List UInt8) : Except UpdateFault Applied :=
  match (unzip R bytes).bind stripTopLevel with
  | .error fault => .error (.archive fault)
  | .ok files =>
    if isSourceTree files then
      match stage S.takes files .empty with
      | .error fault => .error fault
      | .ok staging =>
        let n := (backedUp S.tree).length
        if n < 2 then
          .error (.refused ("backup produced only " ++ toString n ++ " entr" ++
            (if n = 1 then "y" else "ies") ++ " from " ++ S.webRoot ++
            "; refusing to update without one"))
        else .ok { staging, backup := backup S.tree, entries := files.length }
    else .error (.refused "archive does not look like a mise source tree")

/-- What `npm ci` leaves of the staging folder. -/
def Installed (staging staged : FileTree) : Prop :=
  ∀ p, ¬ ["server", "node_modules"] <+: p → staged.content p = staging.content p

/-- The entry is a file that is staged, under the path after its top-level folder. -/
def Stages (name rel : String) : Prop :=
  afterSlash name = some rel ∧ isFolder rel = false ∧ spelledData rel = false

instance (name rel : String) : Decidable (Stages name rel) := inferInstanceAs (Decidable (_ ∧ _ ∧ _))

section Staging

variable {R : ZipRuntime} {S : Site} {bytes : List UInt8} {a : Applied}

/-- The files below the top-level folder are those that the entries stage. -/
theorem mem_stripTopLevel {files out : List ArchiveFile} (h : stripTopLevel files = .ok out)
    (rel : String) : rel ∈ out.map Prod.fst ↔ ∃ f ∈ files, Stages f.1 rel := by
  induction files generalizing out with
  | nil =>
    cases h
    simp
  | cons f files ih =>
    rw [stripTopLevel] at h
    simp only [List.exists_mem_cons_iff]
    cases hrel : afterSlash f.1 with
    | none =>
      have hf : ¬ Stages f.1 rel := fun hs => by cases hrel.symm.trans hs.1
      rw [hrel] at h
      rw [ih h, or_iff_right hf]
    | some r =>
      rw [hrel] at h
      dsimp only at h
      split at h
      · cases h
      · by_cases hskip : isFolder r = true ∨ spelledData r = true
        · have hf : ¬ Stages f.1 rel := by
            rintro ⟨hr, hfolder, hdata⟩
            cases hrel.symm.trans hr
            obtain hs | hs := hskip
            · cases hfolder.symm.trans hs
            · cases hdata.symm.trans hs
          rw [if_pos (Bool.or_eq_true_iff.2 hskip)] at h
          rw [ih h, or_iff_right hf]
        · have hf : Stages f.1 rel ↔ rel = r := by
            rw [not_or, Bool.not_eq_true, Bool.not_eq_true] at hskip
            constructor
            · intro hs
              exact Option.some.inj (hs.1.symm.trans hrel)
            · rintro rfl
              exact ⟨hrel, hskip⟩
          rw [if_neg (fun e => hskip (Bool.or_eq_true_iff.1 e))] at h
          obtain ⟨rest, hrest, rfl⟩ : ∃ rest, stripTopLevel files = .ok rest ∧ (r, f.2) :: rest = out := by
            cases hs : stripTopLevel files with
            | error e =>
              rw [hs] at h
              cases h
            | ok rest =>
              rw [hs] at h
              cases h
              exact ⟨rest, rfl, rfl⟩
          rw [List.map_cons, List.mem_cons, ih hrest, hf]

theorem content_stage {takes : List String → Bool} {files : List ArchiveFile} {t u : FileTree}
    (h : stage takes files t = .ok u) (p : List String) :
    (u.content p).isSome ↔ (t.content p).isSome ∨ p ∈ files.map fun f => segments f.1 := by
  induction files generalizing t with
  | nil =>
    cases h
    simp
  | cons f files ih =>
    obtain ⟨rel, data⟩ := f
    rw [stage] at h
    split at h
    · cases h
    · next t' ht =>
      rw [ih h, List.map_cons, List.mem_cons, ← or_assoc]
      have hwrite : t.write (segments rel) data = some t' := by
        split at ht
        · exact ht
        · cases ht
      rw [Tree.content_write hwrite]
      by_cases hp : p = segments rel
      · simp [hp]
      · simp [hp]

/-- What has happened when an update has been accepted. -/
structure Accepted (R : ZipRuntime) (S : Site) (bytes : List UInt8) (a : Applied)
    (entries files : List ArchiveFile) : Prop where
  unzip : unzip R bytes = .ok entries
  strip : stripTopLevel entries = .ok files
  source : isSourceTree files
  staged : stage S.takes files .empty = .ok a.staging
  backup : a.backup = backup S.tree
  enough : 2 ≤ (backedUp S.tree).length

theorem applyUpdate_ok (h : applyUpdate R S bytes = .ok a) :
    ∃ entries files, Accepted R S bytes a entries files := by
  unfold applyUpdate at h
  split at h
  · cases h
  · next files hfiles =>
    split at h
    · next hsource =>
      split at h
      · cases h
      · next staging hstaging =>
        dsimp only at h
        split at h
        · cases h
        · next hn =>
          cases h
          cases hunzip : unzip R bytes with
          | error e =>
            rw [hunzip] at hfiles
            cases hfiles
          | ok entries =>
            rw [hunzip] at hfiles
            exact ⟨entries, files, ⟨hunzip, hfiles, hsource, hstaging, rfl, Nat.le_of_not_lt hn⟩⟩
    · cases h

theorem Accepted.content (h : Accepted R S bytes a entries files) (p : List String) :
    (a.staging.content p).isSome ↔ ∃ f ∈ entries, ∃ rel, Stages f.1 rel ∧ segments rel = p := by
  have hpaths : p ∈ files.map (fun f => segments f.1) ↔ ∃ rel ∈ files.map Prod.fst, segments rel = p := by
    simp
  rw [content_stage h.staged p, Tree.content_empty, hpaths]
  constructor
  · rintro (hnone | ⟨rel, hrel, hp⟩)
    · cases hnone
    · obtain ⟨f, hf, hstages⟩ := (mem_stripTopLevel h.strip rel).1 hrel
      exact ⟨f, hf, rel, hstages, hp⟩
  · rintro ⟨f, hf, rel, hstages, hp⟩
    exact .inr ⟨rel, (mem_stripTopLevel h.strip rel).2 ⟨f, hf, hstages⟩, hp⟩

end Staging

end Mise.Update
