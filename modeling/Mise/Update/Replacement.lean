import Mathlib.Data.List.Nodup
import Mathlib.Logic.Function.Basic

set_option autoImplicit true

namespace Mise.Files

/-- A file that is copied to another place before it is overwritten. -/
structure Replacement (κ β : Type) where
  path : κ
  backup : κ
  content : β

/-- No file is overwritten or copied to twice, and none is copied to where another is overwritten. -/
structure Separate (l : List (Replacement κ β)) : Prop where
  paths : (l.map (·.path)).Nodup
  backups : (l.map (·.backup)).Nodup
  disjoint : ∀ r ∈ l, ∀ s ∈ l, r.backup ≠ s.path

section Apart

variable {κ β : Type} {r s : Replacement κ β} {l : List (Replacement κ β)}

theorem Separate.tail (h : Separate (r :: l)) : Separate l where
  paths := (List.nodup_cons.1 h.paths).2
  backups := (List.nodup_cons.1 h.backups).2
  disjoint s hs t ht := h.disjoint s (List.mem_cons_of_mem r hs) t (List.mem_cons_of_mem r ht)

theorem Separate.path_ne (h : Separate (r :: l)) (hs : s ∈ l) : s.path ≠ r.path := by
  intro he
  exact (List.nodup_cons.1 h.paths).1 (List.mem_map.2 ⟨s, hs, he⟩)

theorem Separate.backup_ne (h : Separate (r :: l)) (hs : s ∈ l) : r.backup ≠ s.backup := by
  intro he
  exact (List.nodup_cons.1 h.backups).1 (List.mem_map.2 ⟨s, hs, he.symm⟩)

theorem Separate.path_ne_backup (h : Separate (r :: l)) (hs : s ∈ l) : s.path ≠ r.backup :=
  (h.disjoint r List.mem_cons_self s (List.mem_cons_of_mem r hs)).symm

end Apart

section Runs

variable {κ β : Type} [DecidableEq κ]

def Replacement.copy (r : Replacement κ β) (d : κ → Option β) : κ → Option β :=
  Function.update d r.backup (d r.path)

def Replacement.run (r : Replacement κ β) (d : κ → Option β) : κ → Option β :=
  Function.update (r.copy d) r.path (some r.content)

def runAll (l : List (Replacement κ β)) (d : κ → Option β) : κ → Option β :=
  l.foldl (fun d r => r.run d) d

/-- How far the replacements have come when they stop. Of the file that is being written, anything
may be there. -/
inductive Replacing : List (Replacement κ β) → (κ → Option β) → (κ → Option β) → Prop
  | start : Replacing l d d
  | copying (h : ∀ p, p ≠ r.backup → d' p = d p) : Replacing (r :: l) d d'
  | writing (h : ∀ p, p ≠ r.path → d' p = r.copy d p) : Replacing (r :: l) d d'
  | next (h : Replacing l (r.run d) d') : Replacing (r :: l) d d'

variable {d d' : κ → Option β} {r : Replacement κ β} {l : List (Replacement κ β)}

theorem replacing_runAll (l : List (Replacement κ β)) (d : κ → Option β) : Replacing l d (runAll l d) := by
  induction l generalizing d with
  | nil => exact .start
  | cons r l ih => exact .next (ih (r.run d))

theorem copy_other (h : p ≠ r.backup) : r.copy d p = d p := Function.update_of_ne h _ _

theorem run_other (hp : p ≠ r.path) (hb : p ≠ r.backup) : r.run d p = d p := by
  rw [Replacement.run, Function.update_of_ne hp, copy_other hb]

theorem run_path : r.run d r.path = some r.content := Function.update_self _ _ _

theorem run_backup (h : r.backup ≠ r.path) : r.run d r.backup = d r.path := by
  rw [Replacement.run, Function.update_of_ne h, Replacement.copy, Function.update_self]

/-- A place that is neither overwritten nor copied to stays as it was. -/
theorem Replacing.frame (h : Replacing l d d') (hp : ∀ r ∈ l, p ≠ r.path ∧ p ≠ r.backup) : d' p = d p := by
  induction h with
  | start => rfl
  | copying h => exact h p (hp _ List.mem_cons_self).2
  | writing h =>
    obtain ⟨hpath, hbackup⟩ := hp _ List.mem_cons_self
    rw [h p hpath, copy_other hbackup]
  | next _ ih =>
    obtain ⟨hpath, hbackup⟩ := hp _ List.mem_cons_self
    rw [ih fun s hs => hp s (List.mem_cons_of_mem _ hs), run_other hpath hbackup]

/-- Wherever the replacements stop, what a file had is at its place or has been copied. -/
theorem Replacing.spared (h : Replacing l d d') (hl : Separate l) (hs : s ∈ l) :
    d' s.path = d s.path ∨ d' s.backup = d s.path := by
  induction h with
  | start => exact .inl rfl
  | copying h => exact .inl (h _ (hl.disjoint _ List.mem_cons_self s hs).symm)
  | writing h =>
    rcases List.mem_cons.1 hs with rfl | hs
    · right
      rw [h _ (hl.disjoint s List.mem_cons_self s List.mem_cons_self), Replacement.copy,
        Function.update_self]
    · left
      rw [h _ (hl.path_ne hs), copy_other (hl.path_ne_backup hs)]
  | @next l d' r d h ih =>
    rcases List.mem_cons.1 hs with rfl | hs
    · right
      have hrest : d' s.backup = s.run d s.backup := h.frame fun t ht =>
        ⟨hl.disjoint s List.mem_cons_self t (List.mem_cons_of_mem s ht), hl.backup_ne ht⟩
      rw [hrest, run_backup (hl.disjoint s List.mem_cons_self s List.mem_cons_self)]
    · have hrun : r.run d s.path = d s.path := run_other (hl.path_ne hs) (hl.path_ne_backup hs)
      rw [← hrun]
      exact ih hl.tail hs

theorem runAll_path (hl : Separate l) (hs : s ∈ l) : runAll l d s.path = some s.content := by
  induction l generalizing d with
  | nil => cases hs
  | cons r l ih =>
    rcases List.mem_cons.1 hs with rfl | hs
    · have hrest : runAll l (s.run d) s.path = s.run d s.path :=
        (replacing_runAll l _).frame fun t ht => ⟨(hl.path_ne ht).symm,
          (hl.disjoint t (List.mem_cons_of_mem s ht) s List.mem_cons_self).symm⟩
      exact hrest.trans run_path
    · exact ih hl.tail hs

end Runs

end Mise.Files
