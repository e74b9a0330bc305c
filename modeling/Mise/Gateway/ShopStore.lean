import Mise.Async.Owned
import Mise.Gateway.Shop

set_option autoImplicit true

namespace Mise.Gateway.Shop

open Js

/-- A request that updates the shop. -/
inductive Operation where
  | bindReceiver (network code : Option Json)
  | setActive (network : Option Json)
  | setDojo (network dojo : Option Json)

/-- What an await resumes with: whether the file operation succeeded; and where a write failed, whether
it has left a part of the text. -/
structure Answer where
  ok : Bool := true
  torn : Bool := false

inductive Failure where
  | refused (f : Fault)
  | io
  deriving DecidableEq

/-- A call has replaced the state in memory. -/
structure Update where
  call : Nat
  operation : Operation
  before : IdentityState
  after : IdentityState

/-- A state as text. Which call has made it, and how many updates it has, is history: it is not part of
the text. -/
structure Snapshot where
  state : IdentityState
  call : Option Nat := none
  stamp : Nat := 0

inductive Content where
  | text (d : Snapshot)
  | torn

inductive Trace where
  | updated (c : Update)
  /-- The temporary file was renamed over the state file. `inOrder` says that it held the text of this
  very call, and that no later text was in place. -/
  | renamed (call : Nat) (inOrder : Bool)
  | failed (call : Nat)

/-- What a successful operation answers. -/
inductive Reply where
  | receiver (network : Option Json) (block : NetworkIdentity)
  | active (network : Json)
  | dojo (network dojo : Option Json)

namespace Operation

def apply (W : Wallet) (s : IdentityState) : Operation → Except Fault IdentityState
  | .bindReceiver network code => Shop.bindReceiver W s network code
  | .setActive network => Shop.setActive s network
  | .setDojo network dojo => Shop.setDojo s network dojo

/-- The answer reads `current` again. -/
def reply (s : IdentityState) : Operation → Except Fault Reply
  | .bindReceiver network _ => do
    let key ← ofThrow (propertyKey network)
    return .receiver network (block (s.networks.find [] key))
  | .setActive _ => return .active s.active
  | .setDojo network _ => do
    let key ← ofThrow (propertyKey network)
    match s.networks.find [] key with
    | .absent => throw .typeError
    | found => return .dojo network (block found).dojo

end Operation

def Trace.owner : Trace → Option Nat
  | .updated c => some c.call
  | .renamed i _ | .failed i => some i

def Trace.update : Trace → Option Update
  | .updated c => some c
  | _ => none

/-- The updates of the state in memory, newest first. -/
def updates (log : List Trace) : List Update := log.filterMap Trace.update

/-- The shop of a process and its directory: the state in memory, the state file, and the one temporary
file `${file}.${process.pid}.tmp`, the same for every write. -/
structure World where
  current : IdentityState
  file : Content
  tmp : Option Content := none
  log : List Trace := []

namespace World

def emit (e : Trace) (w : World) : World := { w with log := e :: w.log }

/-- A shop that has just been made over its file. An earlier process of the same number may have left a
temporary file. -/
def opened (s : IdentityState) (left : Bool) : World where
  current := s
  file := .text { state := s }
  tmp := if left then some .torn else none

/-- `current = op(current, …)`, and the text that `saveState` is about to write. -/
def assign (W : Wallet) (i : Nat) (op : Operation) (w : World) : Except Fault Snapshot × World :=
  match op.apply W w.current with
  | .error f => (.error f, w)
  | .ok s =>
    (.ok ⟨s, some i, (updates w.log).length + 1⟩,
      { w with current := s, log := .updated ⟨i, op, w.current, s⟩ :: w.log })

def writeFile (d : Snapshot) (a : Answer) (w : World) : Bool × World :=
  if a.ok then (true, { w with tmp := some (.text d) })
  else (false, if a.torn then { w with tmp := some .torn } else w)

def inOrder (i : Nat) (c file : Content) : Bool :=
  match c, file with
  | .text d, .text e => d.call = some i && e.stamp ≤ d.stamp
  | _, _ => false

/-- `rename` takes whatever the temporary file holds, and fails when it is gone. -/
def rename (i : Nat) (a : Answer) (w : World) : Bool × World :=
  match a.ok, w.tmp with
  | true, some c =>
    (true, { w with file := c, tmp := none, log := .renamed i (inOrder i c w.file) :: w.log })
  | _, _ => (false, w)

end World

abbrev Store := Async World Answer Failure

/-- A file operation: it takes place at one moment and is reported to its call at a later one. -/
def fileOp (i : Nat) (f : Answer → World → Bool × World) : Store Unit := do
  let a ← Async.wait
  let done ← Async.updateGet fun w =>
    let r := f a w
    (r.1, if r.1 then r.2 else r.2.emit (.failed i))
  let _ ← Async.wait
  unless done do throw .io

def writeAtomic (i : Nat) (d : Snapshot) : Store Unit := do
  fileOp i fun a w => (a.ok, w)                        -- mkdir
  fileOp i (World.writeFile d)
  fileOp i fun a w => (a.ok && w.tmp.isSome, w)        -- chmod
  fileOp i (World.rename i)

def saveState (i : Nat) (d : Snapshot) : Store Unit := do
  writeAtomic i d
  let _ ← Async.wait

/-- `shop.bindReceiver`, `shop.setActive` and `shop.setDojo` -/
def operate (W : Wallet) (i : Nat) (op : Operation) : Store Reply := do
  match ← Async.updateGet (World.assign W i op) with
  | .error f => throw (.refused f)
  | .ok d =>
    saveState i d
    let _ ← Async.wait
    let w ← Async.read
    match op.reply w.current with
    | .error f => throw (.refused f)
    | .ok r => return r

/-- Every schedule of the requests to a shop, and of their file operations. -/
def run (W : Wallet) (w : World) (moves : List (Move Operation Answer)) :
    Pool World Answer Failure Reply := Pool.run (operate W) ⟨w, []⟩ moves

end Mise.Gateway.Shop
