import Mathlib.Algebra.GroupWithZero.Nat
import Mise.Async.Owned
import Mise.Js.Value
import Mise.Server.World

set_option autoImplicit true

namespace Mise.Server.Jobs

open Js

/-- A background job, which the moment it was started at identifies. -/
structure Job (δ : Type) where
  startedAt : Int
  phase : String := "starting"
  log : List String := []
  done : Bool := false
  ok : Bool := false
  error : Option String := none
  details : δ

/-- What has happened, as the history has it. -/
inductive Event where
  /-- Request `i` has found no unfinished job, and reads its body. -/
  | passed (i : Nat)
  | started (i j : Nat)
  | finished (j : Nat)
  | answered (i : Nat) (r : Response)
  /-- The status route has answered request `i` with a job. -/
  | reported (i : Nat) (job : Option Nat)

/-- The jobs of one kind in the order they were started, the one that the variable of the routes
has, and the history, newest first. -/
structure World (δ : Type) where
  jobs : List (Job δ) := []
  current : Option Nat := none
  log : List Event := []

/-- How `adminFrom` refuses a session. -/
inductive Refusal where
  | unauthenticated
  | notAuthorised

def Refusal.response : Refusal → Response
  | .unauthenticated => ⟨401, some "not authenticated"⟩
  | .notAuthorised => ⟨403, some "not authorised"⟩

/-- What an await resumes with: how `adminFrom` refuses, the body of the request where it is JSON
and not too large, the time; and for a job what the operation has logged, why it failed, and what
it found. -/
structure Input where
  refused : Option Refusal := none
  body : Option Json := none
  clock : Int := 0
  lines : List String := []
  failed : Option String := none
  version : Option String := none
  sourceLabel : String := ""
  imported : Nat := 0
  running : Bool := false

abbrev Task (δ : Type) := Async (World δ) Input String

namespace World

variable {δ : Type}

def emit (e : Event) (w : World δ) : World δ := { w with log := e :: w.log }

def onJob (j : Nat) (f : Job δ → Job δ) (w : World δ) : World δ :=
  { w with jobs := w.jobs.modify j f }

/-- The variable has a job that is not done. -/
def busy (w : World δ) : Bool := (w.current.bind (w.jobs[·]?)).any fun job => !job.done

/-- The job that a request starts. -/
def create (i : Nat) (clock : Int) (details : δ) (w : World δ) : Nat × World δ :=
  let j := w.jobs.length
  (j, { jobs := w.jobs ++ [{ startedAt := clock, details }], current := some j,
        log := .started i j :: w.log })

def finish (j : Nat) (w : World δ) : World δ :=
  (w.onJob j fun job => { job with done := true }).emit (.finished j)

end World

/-- What one of the two routes does with its jobs. -/
structure Kind (δ : Type) where
  /-- The text for a request that finds an unfinished job. -/
  busy : String
  /-- The answer to a body that starts no job, or the job's details. -/
  accept : Json → Except Response δ
  /-- What the job does before its first await. -/
  begins : Job δ → Job δ := id
  work : Nat → δ → Json → Task δ Unit
  /-- The status route reads the result that the helper of an update has left. -/
  readsResult : Bool := false

section Routes

variable {δ : Type} (K : Kind δ)

def answer (i : Nat) (r : Response) : Task δ Unit := Async.update (World.emit (.answered i r))

/-- `POST /api/admin/update` and `POST /api/admin/import`, with the job that is started. -/
def post (i : Nat) : Task δ Unit := do
  let a ← Async.wait                                   -- adminFrom
  match a.refused with
  | some r => answer i r.response
  | none =>
    if (← Async.read).busy then answer i ⟨409, some K.busy⟩
    else
      Async.update (World.emit (.passed i))
      let b ← Async.wait                               -- readBody
      let body := b.body.getD (.obj [])
      match K.accept body with
      | .error r => answer i r
      | .ok details =>
        let j ← Async.updateGet (World.create i b.clock details)
        Async.update (World.onJob j K.begins)
        answer i ⟨202, none⟩
        K.work j details body

def status (i : Nat) : Task δ Unit := do
  let a ← Async.wait                                   -- adminFrom
  match a.refused with
  | some r => answer i r.response
  | none =>
    if K.readsResult then
      let _ ← Async.wait                               -- readFile
    Async.update fun w => w.emit (.reported i w.current)

inductive Call where
  | post
  | status

def program (i : Nat) : Call → Task δ Unit
  | .post => post K i
  | .status => status K i

def run (moves : List (Move Call Input)) : Pool (World δ) Input String Unit :=
  Pool.run (program K) ⟨{}, []⟩ moves

end Routes

section Bodies

/-- `v.replace(/^https?:\/\//, "")` -/
def stripScheme (v : List Char) : List Char :=
  if "http://".toList <+: v then v.drop 7 else if "https://".toList <+: v then v.drop 8 else v

def isLineTerminator (c : Char) : Bool := c = '\n' || c = '\r' || c = '\u2028' || c = '\u2029'

/-- `v.replace(/\/.*$/, "")` -/
def stripPath : List Char → List Char
  | [] => []
  | c :: cs => if c = '/' && !cs.any isLineTerminator then [] else c :: stripPath cs

def onionHost (body : Json) : Except Throw String := do
  let t ← (orEmpty (← body.get "onion")).text
  return String.ofList (stripPath (stripScheme t.toList))

/-- `/^[a-z2-7]{56}\.onion$/` -/
def isOnion (host : String) : Bool :=
  (host.toList.take 56).all (fun c => ('a' ≤ c && c ≤ 'z') || ('2' ≤ c && c ≤ '7')) &&
    host.toList.drop 56 = ".onion".toList && 56 ≤ host.toList.length

/-- What the handler's caller answers when it throws. -/
def serverError : Response := ⟨500, some "server error"⟩

def ofThrow : Except Throw α → Except Response α
  | .ok a => .ok a
  | .error _ => .error serverError

end Bodies

section Work

variable {δ : Type}

/-- `log` keeps the last `keep` lines. -/
def say (keep j : Nat) (line : String) : Task δ Unit :=
  Async.update (World.onJob j fun job =>
    let log := job.log ++ [line]
    { job with log := if keep < log.length then log.tail else log })

def sayAll (keep j : Nat) : List String → Task δ Unit
  | [] => return
  | line :: lines => do
    say keep j line
    sayAll keep j lines

/-- An operation of the job, with what it logs. -/
def stage (keep j : Nat) : Task δ Input := do
  let a ← Async.wait
  sayAll keep j a.lines
  match a.failed with
  | some message => throw message
  | none => return a

def setPhase (j : Nat) (phase : String) : Task δ Unit :=
  Async.update (World.onJob j fun job => { job with phase })

def failed (keep j : Nat) (message : String) : Task δ Unit := do
  Async.update (World.onJob j fun job => { job with error := some message, ok := false })
  Async.update (World.finish j)
  setPhase j "failed"
  say keep j ("✗ " ++ message)

end Work

section Update

structure UpdateDetails where
  source : String
  version : Option String := none
  needsRefresh : Bool := false

def updateDetails (body : Json) : Except Response UpdateDetails := do
  let source ← ofThrow (body.get "source")
  return { source := if source matches some (.str "peer") then "peer" else "github" }

/-- The address of the peer, where the update is from one. -/
def checkPeer (details : UpdateDetails) (body : Json) : Task UpdateDetails Unit :=
  if details.source = "peer" then
    match onionHost body with
    | .error _ => throw "TypeError"
    | .ok host => if isOnion host then return else throw "a valid peer .onion is required"
  else return

def updateWork (j : Nat) (details : UpdateDetails) (body : Json) : Task UpdateDetails Unit :=
  tryCatch (do
      let _ ← stage 200 j                              -- import("./self-update.mjs")
      setPhase j "fetching"
      checkPeer details body
      let fetched ← stage 200 j                        -- fetchFromPeer or fetchFromGitHub
      Async.update (World.onJob j fun job =>
        { job with phase := "applying", details := { job.details with version := fetched.version } })
      let _ ← stage 200 j                              -- applyUpdate
      Async.update (World.onJob j fun job =>
        { job with phase := "restarting", ok := true, details := { job.details with needsRefresh := true } })
      Async.update (World.finish j)
      say 200 j ("update staged from " ++ fetched.sourceLabel ++ "; service is restarting."))
    (failed 200 j)

def updateKind : Kind UpdateDetails where
  busy := "an update is already in progress"
  accept := updateDetails
  work := updateWork
  readsResult := true

end Update

section Import

structure ImportDetails where
  apply : Bool
  onion : String
  imported : Option Nat := none

/-- `/^(PM8T|PM8[A-Za-z0-9])/` -/
def looksLikeCode (code : String) : Bool :=
  match code.toList with
  | 'P' :: 'M' :: '8' :: c :: _ => c.isAlphanum
  | _ => false

def importDetails (body : Json) : Except Response ImportDetails := do
  let onion ← ofThrow (onionHost body)
  unless isOnion onion do throw ⟨400, some "a valid .onion address is required"⟩
  let code ← ofThrow (body.get "code")
  let trustedCode := trim (← ofThrow (orEmpty code).text)
  unless looksLikeCode trustedCode ∧ 100 ≤ (trustedCode.toList.map units).sum do
    throw ⟨400, some "the payment code of the instance you are importing from is required"⟩
  let apply ← ofThrow (body.get "apply")
  return { apply := apply matches some (.bool true), onion }

def rebuildImported (j : Nat) (details : ImportDetails) : Task ImportDetails Unit := do
  if details.apply then
    setPhase j "rebuilding"
    let _ ← Async.wait                                 -- tryRebuild

/-- A cycle of the updater, unless one is running. -/
def probeImported (j : Nat) : Task ImportDetails Unit := do
  setPhase j "probing"
  let a ← Async.wait                                   -- systemctl is-active
  if a.running then
    say 400 j "a probe cycle is already running; the imported nodes will get their status from it"
  else
    say 400 j "probing the imported nodes over Tor (this takes a minute)"
    let b ← Async.wait                                 -- update.mjs
    match b.failed with
    | none => say 400 j "probe cycle complete: the imported nodes show their own status"
    | some message =>
      say 400 j ("! probe cycle failed: " ++ message)
      say 400 j "  the import is complete; the update timer will fill in statuses within ten minutes"

def importWork (j : Nat) (details : ImportDetails) (_ : Json) : Task ImportDetails Unit :=
  tryCatch (do
      let _ ← stage 400 j                              -- import("../scripts/bootstrap-import.mjs")
      let result ← stage 400 j                         -- bootstrapImport
      Async.update (World.onJob j fun job =>
        { job with details := { job.details with imported := some result.imported } })
      rebuildImported j details
      if details.apply ∧ 0 < result.imported then probeImported j
      Async.update (World.onJob j fun job => { job with ok := true, phase := "done" })
      Async.update (World.finish j))
    (failed 400 j)

def importKind : Kind ImportDetails where
  busy := "an import is already in progress"
  accept := importDetails
  begins job := { job with phase := if job.details.apply then "importing" else "planning" }
  work := importWork

end Import

end Mise.Server.Jobs
