import Mise.Async.Pool

set_option autoImplicit true

namespace Mise.Cached

/-- What an operation does to the state in memory, and to what the process shares besides it. -/
structure Effect (γ σ ρ : Type) where
  reply : ρ
  persists : Bool
  shared : γ
  state : σ

/-- A state that is read from a file on first use, changed in memory and written back whole. The
guard of an operation comes before it loads the state: it throws, or gives a reply that needs no
state. `io` is what a failed file operation throws. -/
structure Program (κ γ σ φ ε ρ : Type) where
  save : σ → φ
  load : Option φ → σ
  guard : κ → Except ε (Option ρ)
  body : κ → γ → σ → Effect γ σ ρ
  io : ε

/-- What a file held, numbered by the moment of its serialisation. The number is history: it is not
part of the file. -/
structure Snapshot (φ : Type) where
  content : Option φ
  stamp : Nat

/-- What happened, by which call. -/
inductive Note (κ φ : Type) where
  | called (i : Nat) (c : κ)
  /-- A load put what it had read in the cache, over `old` where there was something. -/
  | loaded (old : Option φ) (new : φ)
  /-- The call changed the state it had loaded; `current` says that this still was the cache. -/
  | applied (i : Nat) (c : κ) (current : Bool)
  | serialised (i : Nat) (stamp : Nat)
  /-- A temporary file was renamed over the shared one. `inOrder` says that it held what its own
  call had written, and that no later snapshot was in place. -/
  | renamed (inOrder : Bool)
  | failed

/-- One process and its directory. `objects` are the states its loads have made, `temps` the
temporary files by the number in their names, and `log` the history, newest first. -/
structure World (κ γ σ φ : Type) where
  file : Snapshot φ := ⟨none, 0⟩
  temps : List (Nat × Snapshot φ) := []
  objects : List σ := []
  cache : Option Nat := none
  shared : γ
  tmpSeq : Nat := 0
  stamp : Nat := 0
  log : List (Note κ φ) := []

namespace World

/-- A process that has just started. -/
def opened (shared : γ) (file : Option φ) : World κ γ σ φ := { file := ⟨file, 0⟩, shared }

def emit (e : Note κ φ) (w : World κ γ σ φ) : World κ γ σ φ := { w with log := e :: w.log }

/-- The state in the cache. -/
def held (w : World κ γ σ φ) : Option σ := w.cache.bind (w.objects[·]?)

def writeFile (tmp : Nat) (d : Snapshot φ) (w : World κ γ σ φ) : World κ γ σ φ :=
  { w with temps := (tmp, d) :: w.temps.filter (·.1 ≠ tmp) }

def replace (tmp : Nat) (d : Snapshot φ) (inOrder : Bool) (w : World κ γ σ φ) : World κ γ σ φ :=
  { w with
    file := d
    temps := w.temps.filter (·.1 ≠ tmp)
    log := .renamed inOrder :: w.log }

/-- `rename` takes whatever the temporary file holds, and fails when it is gone. -/
def rename (tmp stamp : Nat) (w : World κ γ σ φ) : Bool × World κ γ σ φ :=
  match w.temps.lookup tmp with
  | none => (false, w.emit .failed)
  | some d => (true, w.replace tmp d (d.stamp = stamp ∧ w.file.stamp ≤ stamp))

theorem rename_cases (tmp stamp : Nat) (w : World κ γ σ φ) :
    (w.rename tmp stamp = (false, w.emit .failed)) ∨
    ∃ d, (tmp, d) ∈ w.temps ∧
      w.rename tmp stamp = (true, w.replace tmp d (d.stamp = stamp ∧ w.file.stamp ≤ stamp)) := by
  unfold rename
  cases hs : w.temps.lookup tmp with
  | none => exact .inl rfl
  | some s =>
    obtain ⟨l₁, l₂, he, -⟩ := List.lookup_eq_some_iff.1 hs
    exact .inr ⟨s, by simp [he], rfl⟩

/-- Every operation worked on the state in the cache, and a load that found a state there had read
the same. -/
structure Steady (w : World κ γ σ φ) : Prop where
  loads : ∀ f g, .loaded (some f) g ∈ w.log → f = g
  bodies : ∀ i c, .applied i c false ∉ w.log

/-- Every rename put in place what its own call had written, over nothing later. -/
def InOrder (w : World κ γ σ φ) : Prop := .renamed false ∉ w.log

/-- No file operation failed. -/
def Clean (w : World κ γ σ φ) : Prop := .failed ∉ w.log

theorem Steady.of_suffix {w w' : World κ γ σ φ} (h : w'.Steady) (hl : w.log <:+ w'.log) : w.Steady :=
  ⟨fun f g hm => h.loads f g (hl.subset hm), fun i c hm => h.bodies i c (hl.subset hm)⟩

theorem InOrder.of_suffix {w w' : World κ γ σ φ} (h : w'.InOrder) (hl : w.log <:+ w'.log) :
    w.InOrder := fun hm => h (hl.subset hm)

end World

/-- The operations that were applied, newest first. -/
def applied : List (Note κ φ) → List (Nat × κ)
  | [] => []
  | .applied i c _ :: l => (i, c) :: applied l
  | _ :: l => applied l

theorem mem_applied {l : List (Note κ φ)} : (i, c) ∈ applied l ↔ ∃ b, .applied i c b ∈ l := by
  induction l with
  | nil => simp [applied]
  | cons e l ih =>
    cases e with
    | applied j d b => simp [applied, ih, Prod.ext_iff, exists_or]
    | _ => simp [applied, ih]

section Calls

variable (P : Program κ γ σ φ ε ρ)

namespace World

def publish (f : Option φ) (w : World κ γ σ φ) : World κ γ σ φ :=
  { w with objects := w.objects ++ [P.load f], cache := some w.objects.length }.emit
    (.loaded (w.held.map P.save) (P.save (P.load f)))

/-- The synchronous body of an operation, on the state `r` that its load gave it. -/
def apply (i r : Nat) (c : κ) (w : World κ γ σ φ) : Effect γ σ ρ × World κ γ σ φ :=
  let e := P.body c w.shared (w.objects[r]?.getD (P.load none))
  (e, { w with
    objects := w.objects.set r e.state
    shared := e.shared
    log := .applied i c (w.cache = some r) :: w.log })

/-- The synchronous start of `persist`: the temporary name and the text are those of this moment. -/
def serialise (i : Nat) (w : World κ γ σ φ) : (Nat × Snapshot φ) × World κ γ σ φ :=
  let tmp := (w.tmpSeq + 1) % 1000000
  ((tmp, ⟨w.held.map P.save, w.stamp + 1⟩), { w with
    tmpSeq := tmp
    stamp := w.stamp + 1
    log := .serialised i (w.stamp + 1) :: w.log })

end World

abbrev Action (κ γ σ φ ε α : Type) := Async (World κ γ σ φ) Bool ε α

/-- A file operation takes place at one moment and is reported to its call at a later one. -/
def fileOp (f : World κ γ σ φ → Bool × World κ γ σ φ) : Action κ γ σ φ ε Unit := do
  let ok ← Async.wait
  let done ← Async.updateGet fun w => if ok then f w else (false, w.emit .failed)
  let _ ← Async.wait
  if done then pure () else throw P.io

def load : Action κ γ σ φ ε Nat := do
  match (← Async.read).cache with
  | some r => pure r
  | none =>
    fileOp P fun w => (true, w)                  -- mkdir
    let ok ← Async.wait                          -- readFile
    let w ← Async.read
    if ok then
      let _ ← Async.wait
      Async.updateGet fun w' => (w'.objects.length, w'.publish P w.file.content)
    else
      Async.update (·.emit .failed)
      throw P.io

def persist (i : Nat) : Action κ γ σ φ ε Unit := do
  let (tmp, d) ← Async.updateGet (World.serialise P i)
  fileOp P fun w => (true, w.writeFile tmp d)
  fileOp P fun w => w.rename tmp d.stamp

/-- An operation: load, change the state, and persist it where the operation does. -/
def call (i : Nat) (c : κ) : Action κ γ σ φ ε ρ := do
  Async.update (·.emit (.called i c))
  match P.guard c with
  | .error e => throw e
  | .ok (some a) => pure a
  | .ok none =>
    let r ← load P
    let _ ← Async.wait
    let e ← Async.updateGet (World.apply P i r c)
    if e.persists then persist P i
    pure e.reply

/-- Every schedule of operations and file operations on one process. -/
def run (w : World κ γ σ φ) (moves : List (Move κ Bool)) : Pool (World κ γ σ φ) Bool ε ρ :=
  Pool.run (call P) ⟨w, []⟩ moves

end Calls

end Mise.Cached
