import Mise.Async.Owned
import Mise.Gateway.ShopRuns

set_option autoImplicit true

namespace Mise.Gateway.Start

open Js Shop

structure SeedDoc where
  mnemonic : String
  passphrase : Option String := none
  createdAt : String

/-- What an await resumes with: whether the file operation succeeded, and what `newMnemonic` and the
clock give next. -/
structure Answer where
  ok : Bool := true
  mnemonic : String := ""
  now : String := ""

inductive Failure where
  | refused (f : Shop.Fault)
  | io

inductive Trace where
  /-- Start `i` has read the seed. -/
  | found (i : Nat) (seed : SeedDoc)
  /-- Start `i` has put a new seed in place. `fits` says that there was none, and that the new one
  derives the codes in the state file. -/
  | seeded (i : Nat) (seed : SeedDoc) (fits : Bool)
  /-- Start `i`, which goes by `seed`, has read the state file. -/
  | checked (i : Nat) (seed : SeedDoc) (file : Option IdentityState)
  | saved (i : Nat) (s : IdentityState)

def Trace.owner : Trace → Option Nat
  | .found i _ | .seeded i _ _ | .checked i _ _ | .saved i _ => some i

/-- The data directory: the seed, and the state of which the state file is the text. -/
structure World where
  seed : Option SeedDoc := none
  state : Option IdentityState := none
  log : List Trace := []

structure Loaded where
  identities : Wallet
  state : IdentityState
  created : Bool

abbrev Process := Async World Answer Failure

section Program

-- The identities of a seed, where it has any.
variable (derive : SeedDoc → Except Shop.Fault Wallet)

/-- The seed derives every payment code that the state file has. -/
def agrees (seed : SeedDoc) (file : Option IdentityState) : Bool :=
  match derive seed, file with
  | .ok W, some s => !networkNames.any (disagrees W s)
  | _, _ => true

/-- A block that the state lacks, or whose deposit address it lacks. -/
def lacks (t : Table NetworkIdentity) (n : String) : Bool :=
  match t.get n with
  | none => true
  | some b => !given b.depositAddress

/-- The state is new, or it grew. -/
def grew : Option IdentityState → Bool
  | none => true
  | some s => networkNames.any (lacks s.networks)

namespace World

/-- What the state file reads as. -/
def file (w : World) : Option IdentityState := w.state.map reread

def readSeed (i : Nat) (w : World) : Option SeedDoc × World :=
  match w.seed with
  | none => (none, w)
  | some seed => (some seed, { w with log := .found i seed :: w.log })

def putSeed (i : Nat) (seed : SeedDoc) (w : World) : World :=
  { w with seed := some seed, log := .seeded i seed (w.seed.isNone && agrees derive seed w.file) :: w.log }

def readState (i : Nat) (seed : SeedDoc) (w : World) : Option IdentityState × World :=
  (w.file, { w with log := .checked i seed w.file :: w.log })

def putState (i : Nat) (s : IdentityState) (w : World) : World :=
  { w with state := some s, log := .saved i s :: w.log }

end World

/-- Also a text that is not JSON throws. -/
def readJSON (f : World → α × World) : Process (α × Answer) := do
  let a ← Async.wait
  let x ← Async.updateGet fun w => if a.ok then (some (f w).1, (f w).2) else (none, w)
  let b ← Async.wait
  match x with
  | some x => return (x, b)
  | none => throw .io

/-- A file operation takes place at one moment and is reported at a later one. -/
def fileOp (f : World → World) : Process Unit := do
  let a ← Async.wait
  Async.update fun w => if a.ok then f w else w
  let _ ← Async.wait
  unless a.ok do throw .io

/-- The temporary file is the process's own, as its name has the process number. -/
def writeAtomic (rename : World → World) : Process Unit := do
  fileOp id        -- mkdir
  fileOp id        -- writeFile
  fileOp id        -- chmod
  fileOp rename

/-- What `loadOrCreate` does by the seed that it has read or made. -/
def load (i : Nat) (seed : SeedDoc) (created : Bool) : Process Loaded := do
  match derive seed with
  | .error f => throw (.refused f)
  | .ok W =>
    let (file, _) ← readJSON (World.readState i seed)
    match Shop.loadOrCreate W file with
    | .error f => throw (.refused f)
    | .ok state =>
      if grew file then writeAtomic (World.putState i state)
      return ⟨W, state, created⟩

/-- A process that starts. -/
def loadOrCreate (i : Nat) (_ : Unit) : Process Loaded := do
  let (found, a) ← readJSON (World.readSeed i)
  match found with
  | some seed => load derive i seed false
  | none =>
    let seed : SeedDoc := { mnemonic := a.mnemonic, createdAt := a.now }
    writeAtomic (World.putSeed derive i seed)
    load derive i seed true

/-- Every schedule of starts on one directory. A start that crashes gets no more answers. -/
def run (seed : Option SeedDoc) (state : Option IdentityState) (moves : List (Move Unit Answer)) :
    Pool World Answer Failure Loaded := Pool.run (loadOrCreate derive) ⟨{ seed, state }, []⟩ moves

end Program

end Mise.Gateway.Start
