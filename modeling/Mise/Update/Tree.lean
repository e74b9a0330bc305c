import Mathlib.Data.List.Infix

set_option autoImplicit true

namespace Mise.Files

/-- What a file system has at a path. -/
inductive Node (β : Type) where
  | folder
  | file (content : β)
  deriving DecidableEq

def Node.content : Node β → Option β
  | .folder => none
  | .file c => some c

/-- Folders and files by their paths. What exists lies in a folder. -/
structure Tree (κ β : Type) where
  node : List κ → Option (Node β)
  root : node [] = some .folder
  parent : ∀ p k, (node (p ++ [k])).isSome → node p = some .folder

namespace Tree

variable {κ β : Type} {s t u : Tree κ β}

/-- The content of the file at a path. -/
def content (t : Tree κ β) (p : List κ) : Option β := (t.node p).bind Node.content

def empty [DecidableEq κ] : Tree κ β where
  node p := if p = [] then some .folder else none
  root := rfl
  parent p k h := by simp at h

@[simp] theorem content_root (t : Tree κ β) : t.content [] = none := by
  rw [content, t.root]
  rfl

@[simp] theorem content_empty [DecidableEq κ] (p : List κ) : (empty : Tree κ β).content p = none := by
  by_cases hp : p = []
  · rw [hp, content_root]
  · simp [content, empty, hp]

section Write

variable [DecidableEq κ] [DecidableEq β]

/-- A file can be written: there is no folder at the path, and no file above it. -/
def Open (t : Tree κ β) (p : List κ) : Prop :=
  t.node p ≠ some .folder ∧ ∀ q ∈ p.inits, q ≠ p → t.content q = none

instance (t : Tree κ β) (p : List κ) : Decidable (t.Open p) :=
  inferInstanceAs (Decidable (_ ∧ _))

omit [DecidableEq κ] [DecidableEq β] in
theorem Open.above (h : t.Open p) (hq : q <+: p) (hne : q ≠ p) : t.content q = none :=
  h.2 q ((List.mem_inits q p).2 hq) hne

/-- The tree with a file written, and the folders above it made. -/
def put (t : Tree κ β) (p : List κ) (c : β) (h : t.Open p) : Tree κ β where
  node q := if q = p then some (.file c) else if q <+: p then some .folder else t.node q
  root := by
    have hp : [] ≠ p := fun e => h.1 (e ▸ t.root)
    rw [if_neg hp, if_pos (List.nil_prefix)]
  parent r k hk := by
    have hr : r <+: r ++ [k] := List.prefix_append r [k]
    have hrne : r ≠ r ++ [k] := by simp
    by_cases hp : r ++ [k] = p
    · rw [if_neg (hp ▸ hrne), if_pos (hp ▸ hr)]
    · rw [if_neg hp] at hk
      by_cases hbelow : r ++ [k] <+: p
      · have hne : r ≠ p := fun e => hp (hbelow.eq_of_length_le (by rw [e]; simp))
        rw [if_neg hne, if_pos (hr.trans hbelow)]
      · rw [if_neg hbelow] at hk
        have hfolder := t.parent r k hk
        have hne : r ≠ p := fun e => h.1 (e ▸ hfolder)
        rw [if_neg hne, hfolder, ite_self]

omit [DecidableEq β] in
theorem content_put {h : t.Open p} : (t.put p c h).content q = if q = p then some c else t.content q := by
  by_cases hq : q = p
  · simp [content, put, hq, Node.content]
  · by_cases hbelow : q <+: p
    · rw [if_neg hq, h.above hbelow hq]
      simp [content, put, hq, hbelow, Node.content]
    · simp [content, put, hq, hbelow]

def write (t : Tree κ β) (p : List κ) (c : β) : Option (Tree κ β) :=
  if h : t.Open p then some (t.put p c h) else none

theorem content_write (h : t.write p c = some u) (q : List κ) :
    u.content q = if q = p then some c else t.content q := by
  unfold write at h
  split at h
  · cases h
    exact content_put
  · cases h

end Write

section Select

/-- The path is reached from the root over paths that are kept. -/
def Kept (keep : List κ → Bool) (p : List κ) : Prop := ∀ q ∈ p.inits, q ≠ [] → keep q

instance [DecidableEq κ] (keep : List κ → Bool) (p : List κ) : Decidable (Kept keep p) :=
  inferInstanceAs (Decidable (∀ q ∈ p.inits, q ≠ [] → keep q))

variable {keep : List κ → Bool}

theorem Kept.below (h : Kept keep (p ++ r)) : Kept keep p := by
  intro q hq
  have hpre : q <+: p ++ r := ((List.mem_inits q p).1 hq).trans (List.prefix_append p r)
  exact h q ((List.mem_inits q _).2 hpre)

variable [DecidableEq κ]

/-- The part of a tree that is kept. -/
def select (keep : List κ → Bool) (t : Tree κ β) : Tree κ β where
  node p := if Kept keep p then t.node p else none
  root := by
    have hroot : Kept keep [] := by
      intro q hq hne
      exact absurd (List.prefix_nil.1 ((List.mem_inits q []).1 hq)) hne
    rw [if_pos hroot, t.root]
  parent p k h := by
    by_cases hk : Kept keep (p ++ [k])
    · rw [if_pos hk] at h
      rw [if_pos hk.below, t.parent p k h]
    · rw [if_neg hk] at h
      cases h

theorem content_select (t : Tree κ β) (p : List κ) :
    (t.select keep).content p = if Kept keep p then t.content p else none := by
  unfold content select
  dsimp only
  split
  · rfl
  · rfl

end Select

section Copy

/-- No folder of the one is a file of the other. -/
def Compatible (s t : Tree κ β) : Prop :=
  ∀ p, (s.node p = some .folder → t.content p = none) ∧ (t.node p = some .folder → s.content p = none)

theorem folder_of_no_content (h : (t.node p).isSome) (hc : t.content p = none) :
    t.node p = some .folder := by
  unfold content at hc
  cases hn : t.node p with
  | none =>
    rw [hn] at h
    cases h
  | some n =>
    cases n with
    | folder => rfl
    | file c =>
      rw [hn] at hc
      cases hc

theorem compatible_of_files (hs : ∀ p, (s.content p).isSome → t.node p ≠ some .folder)
    (ht : ∀ p, (t.content p).isSome → s.node p ≠ some .folder) : Compatible s t := by
  intro p
  constructor
  · intro hfolder
    exact Option.not_isSome_iff_eq_none.1 fun hc => ht p hc hfolder
  · intro hfolder
    exact Option.not_isSome_iff_eq_none.1 fun hc => hs p hc hfolder

/-- What the copy of a tree onto another one leaves. -/
def overlay (s t : Tree κ β) (h : Compatible s t) : Tree κ β where
  node p := (s.node p).or (t.node p)
  root := by rw [s.root]; rfl
  parent p k hk := by
    cases hs : s.node (p ++ [k]) with
    | some n => rw [s.parent p k (by rw [hs]; rfl), Option.some_or]
    | none =>
      rw [hs, Option.none_or] at hk
      have hfolder := t.parent p k hk
      cases hp : s.node p with
      | none => rw [Option.none_or, hfolder]
      | some n => rw [← hp, folder_of_no_content (by rw [hp]; rfl) ((h p).2 hfolder), Option.some_or]

theorem content_over (h : Compatible s t) (p : List κ) :
    (overlay s t h).content p = (s.content p).or (t.content p) := by
  have hnode : (overlay s t h).node p = (s.node p).or (t.node p) := rfl
  have hs := (h p).1
  unfold content at hs ⊢
  rw [hnode]
  cases hp : s.node p with
  | none => rfl
  | some n =>
    cases n with
    | folder => simp only [Option.some_or, Option.bind_some, Node.content, Option.none_or, hs hp]
    | file c => rfl

/-- A moment of the copy of `s` onto `t`: a file is as it was, or it has been copied. -/
def Copying (s t u : Tree κ β) : Prop :=
  ∀ p, u.content p = t.content p ∨ (s.content p).isSome ∧ u.content p = s.content p

end Copy

end Tree

end Mise.Files
