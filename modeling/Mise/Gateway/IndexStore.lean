import Mise.Async.Pool
import Mise.Gateway.Chain

set_option autoImplicit true

namespace Mise.Gateway

/-- What an await resumes with: whether the file operation succeeded, and the time. -/
structure Answer where
  ok : Bool := true
  clock : Int := 0

/-- A serialised state, numbered in the order of serialisation. The number is history: it is
not part of the file. -/
structure Snapshot where
  state : IndexState
  stamp : Nat
  deriving DecidableEq

/-- What happened to the shared state, by which call. -/
inductive Trace where
  /-- `load` assigned `this.state`; `again` says that a state was there already. -/
  | loaded (again : Bool)
  | issued (i : Nat) (index now : Int) (stamp : Nat)
  | released (i : Nat) (index now : Int)
  /-- The state was serialised into the temporary file that `persist` is about to write. -/
  | serialised (i : Nat) (stamp : Nat)
  /-- A temporary file was renamed over the shared one. `inOrder` says that it held what its own
  call had written, and that no later snapshot was in place. -/
  | renamed (inOrder : Bool)
  | failed (f : Fault)
  deriving DecidableEq

/-- The trace that call `i` leaves when it has changed the state object. -/
def Trace.ofCall (i : Nat) (stamp : Nat) : Call → Except Fault Reply → List Trace
  | .allocate now, .ok (.index index) => [.issued i index now stamp]
  | .release index now, .ok (.bool true) => [.released i index now]
  | _, .error f => [.failed f]
  | _, _ => []

/-- One `IndexStore` object and its directory. `objects` are the state objects its loads have
made, `temps` the temporary files by the sequence number in their names, and `log` the history,
newest first. -/
structure World where
  file : Option Snapshot := none
  temps : List (Nat × Snapshot) := []
  objects : List IndexState := []
  state : Option Nat := none
  tmpSeq : Nat := 0
  stamp : Nat := 0
  log : List Trace := []
  deriving DecidableEq

abbrev Store := Async World Answer Fault

namespace World

/-- A store object that has just been made over a file, with no call begun. -/
def opened (file : Option IndexState) : World := { file := file.map (⟨·, 0⟩) }

def emit (e : Trace) (w : World) : World := { w with log := e :: w.log }

/-- The snapshot in the file. -/
def saved (w : World) : Snapshot := w.file.getD ⟨.empty, 0⟩

/-- What a load finds: the parsed file, or an empty state where there is none (`ENOENT`). -/
def onDisk (w : World) : IndexState := w.saved.state

/-- The object `this.state` refers to. -/
def held (w : World) : IndexState := (w.state.bind (w.objects[·]?)).getD .empty

/-- `load` publishes the object it has made of what it read. -/
def publish (s : IndexState) (w : World) : World :=
  { w with objects := w.objects ++ [s], state := some w.objects.length }.emit
    (.loaded w.state.isSome)

/-- A store object whose load has finished before any call changes the state. -/
def loaded (file : Option IndexState) : World := (opened file).publish (opened file).onDisk

/-- What a new process finds after a crash: the file, and no temporary file under a name that it
uses itself. -/
def reopened (w : World) : World := opened (w.file.map Snapshot.state)

/-- The synchronous body of a call, on the object `r` that its load gave it. -/
def mutate (q : Int) (i r : Nat) (k : Call) (w : World) : Except Fault Reply × World :=
  let a := (w.objects[r]?.getD .empty).apply q k
  (a.1, { w with
    objects := w.objects.set r a.2
    log := Trace.ofCall i (w.stamp + 1) k a.1 ++ w.log })

/-- The synchronous start of `persist`: the temporary name, the time stamp and the text are those
of `this.state` at this moment. -/
def serialise (i : Nat) (clock : Int) (w : World) : (Nat × Snapshot) × World :=
  let tmp := (w.tmpSeq + 1) % 1000000
  let s := { w.held with updatedAt := some clock }
  ((tmp, ⟨s, w.stamp + 1⟩), { w with
    tmpSeq := tmp
    stamp := w.stamp + 1
    objects := w.objects.set (w.state.getD w.objects.length) s
    log := .serialised i (w.stamp + 1) :: w.log })

def writeFile (tmp : Nat) (s : Snapshot) (w : World) : World :=
  { w with temps := (tmp, s) :: w.temps.filter (·.1 ≠ tmp) }

/-- The temporary file `tmp`, which holds `s`, takes the place of the shared one. -/
def replace (tmp : Nat) (s : Snapshot) (inOrder : Bool) (w : World) : World :=
  { w with
    file := some s
    temps := w.temps.filter (·.1 ≠ tmp)
    log := .renamed inOrder :: w.log }

/-- `rename` takes whatever the temporary file holds, and fails when it is gone. -/
def rename (tmp stamp : Nat) (w : World) : Bool × World :=
  match w.temps.lookup tmp with
  | none => (false, w.emit (.failed .io))
  | some s => (true, w.replace tmp s (s.stamp = stamp ∧ w.saved.stamp ≤ stamp))

theorem rename_cases (tmp stamp : Nat) (w : World) :
    (w.rename tmp stamp = (false, w.emit (.failed .io))) ∨
    ∃ s, (tmp, s) ∈ w.temps ∧
      w.rename tmp stamp = (true, w.replace tmp s (s.stamp = stamp ∧ w.saved.stamp ≤ stamp)) := by
  unfold rename
  cases hs : w.temps.lookup tmp with
  | none => exact .inl rfl
  | some s =>
    obtain ⟨l₁, l₂, he, -⟩ := List.lookup_eq_some_iff.1 hs
    exact .inr ⟨s, by simp [he], rfl⟩

end World

namespace IndexStore

/-- A file operation: it takes place at one moment and is reported to its call at a later one. -/
def fileOp (f : World → Bool × World) : Store Unit := do
  let a ← Async.wait
  let done ← Async.updateGet fun w => if a.ok then f w else (false, w.emit (.failed .io))
  let _ ← Async.wait
  if done then pure () else throw .io

def load : Store Nat := do
  match (← Async.read).state with
  | some r => pure r
  | none =>
    fileOp fun w => (true, w)                    -- mkdir
    let a ← Async.wait                           -- readFile
    let w ← Async.read
    if a.ok then
      let _ ← Async.wait
      Async.updateGet fun w' => (w'.objects.length, w'.publish w.onDisk)
    else
      Async.update (·.emit (.failed .io))
      throw .io

def persist (i : Nat) (clock : Int) : Store Unit := do
  let (tmp, s) ← Async.updateGet (World.serialise i clock)
  fileOp fun w => (true, w.writeFile tmp s)
  fileOp fun w => w.rename tmp s.stamp

/-- `allocate`, `release` and `settle`: load, change the state, and persist it where the call
does not return or throw before. -/
def call (q : Int) (i : Nat) (k : Call) : Store Reply := do
  let r ← load
  let a ← Async.wait
  match ← Async.updateGet (World.mutate q i r k) with
  | .ok reply =>
    if persists (.ok reply) then persist i a.clock
    pure reply
  | .error f => throw f

/-- Every schedule of calls and file operations on one store object. -/
def run (q : Int) (w : World) (moves : List (Move Call Answer)) : Pool World Answer Fault Reply :=
  Pool.run (call q) ⟨w, []⟩ moves

open Async in
theorem fileOp_sat {R G : World → World → Prop} {K K' F : World → Prop}
    {Q : Unit → World → World → Prop} {E : Fault → World → World → Prop}
    (hK : ∀ {w w'}, K w → R w w' → K w') (hK' : ∀ {w w'}, K' w → R w w' → K' w')
    (hF : ∀ {w w'}, F w → R w w' → F w')
    (hf : ∀ w, K w → G w (f w).2 ∧ ((f w).1 = true → K' (f w).2) ∧ ((f w).1 = false → F (f w).2))
    (hfail : ∀ w, K w → G w (w.emit (.failed .io)) ∧ F (w.emit (.failed .io)))
    (hG : G w₀ w) (hk : K w) (hQ : ∀ w, K' w → Q () w w) (hE : ∀ w, F w → E .io w w) :
    Sat R G Q E (fileOp f) w₀ w := by
  simp only [fileOp, sat_bind, sat_wait, sat_updateGet]
  refine ⟨hG, fun t ht a => ?_⟩
  have hkt := hK hk ht
  cases ha : a.ok with
  | false =>
    obtain ⟨hstep, hf'⟩ := hfail t hkt
    exact ⟨hstep, fun u hu b => hE u (hF hf' hu)⟩
  | true =>
    obtain ⟨hstep, hdone, hfailed⟩ := hf t hkt
    refine ⟨hstep, fun u hu b => ?_⟩
    simp only [if_true]
    cases hd : (f t).1 with
    | true => exact hQ u (hK' (hdone hd) hu)
    | false => exact hE u (hF (hfailed hd) hu)

end IndexStore

end Mise.Gateway
