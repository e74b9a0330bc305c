import Mise.Async.Drive
import Mise.Async.Logged
import Mise.Server.Jobs

set_option autoImplicit true

namespace Mise.Server.Updates

open Js

/-- What the machine and the language's library give. -/
structure Host where
  repo : String := "linkinparkrulz/mise"
  ruleSource : String := "/var/www/mise/deploy/polkit-restart.rules.example"
  toLowerCase : String → String
  parseDate : String → Option Int
  toISOString : Int → String

/-- What GitHub has replied: the status, and the body or why it is no JSON. -/
structure Reply where
  status : Nat
  body : Except String Json

section Report

def githubRefusal (what : String) (status : Nat) : String :=
  if status = 403 ∨ status = 429 then
    "GitHub is rate-limiting this Tor exit (HTTP " ++ toString status ++ "). " ++
      "The limit is per exit address and shared with every other user of it, so it clears on its " ++
      "own within the hour, usually sooner on a new circuit. Updating from a peer .onion does not " ++
      "touch GitHub and works meanwhile."
  else what ++ ": HTTP " ++ toString status

/-- `v?.k` -/
def getOptional (k : String) : Option Json → Option Json
  | some (.obj fields) => fields.lookup k
  | _ => none

/-- Whether a `Map` takes two keys for the same. Each object is only itself. -/
def sameKey : Json → Json → Bool
  | .null, .null => true
  | .bool a, .bool b => a = b
  | .num a, .num b => a = b
  | .str a, .str b => a = b
  | _, _ => false

/-- The commits of the tags, the last one set first. -/
abbrev TagSha := List (Json × String)

def TagSha.get (tagSha : TagSha) (name : Option Json) : Option String :=
  name.bind fun k => (tagSha.find? fun e => sameKey e.1 k).map Prod.snd

/-- Reads the tags up to the first one whose commit has no text. -/
def setTags (tagSha : TagSha) : List Json → TagSha × Option String
  | [] => (tagSha, none)
  | t :: ts =>
    match getOptional "name" t, getOptional "sha" (getOptional "commit" t) with
    | some name, some sha =>
      if name.truthy && sha.truthy then
        match sha.text with
        | .ok commit => setTags ((name, commit) :: tagSha) ts
        | .error _ => (tagSha, some "tag lookup: TypeError")
      else setTags tagSha ts
    | _, _ => setTags tagSha ts

/-- The commits of the tags that could be read, and why not all of them could. `tag lookup: TypeError`
stands for the message of the engine where something is not as it is read. -/
def readTags : Except String Reply → TagSha × Option String
  | .error message => ([], some ("tag lookup: " ++ if message = "" then "failed" else message))
  | .ok ⟨200, .error message⟩ => ([], some ("tag lookup: " ++ if message = "" then "failed" else message))
  | .ok ⟨200, .ok (.arr ts)⟩ => setTags [] ts
  | .ok ⟨200, .ok (.str _)⟩ => ([], none)              -- a text is iterable, and none of its characters a tag
  | .ok ⟨200, .ok _⟩ => ([], some "tag lookup: TypeError")
  | .ok ⟨status, _⟩ => ([], some (githubRefusal "tag lookup" status))

variable (h : Host)

def sameCommit (a : Option String) (b : String) : Bool :=
  match a with
  | none | some "" => false
  | some a =>
    let x := h.toLowerCase a
    let y := h.toLowerCase b
    startsWith x y || startsWith y x

def runningIndex (tagSha : TagSha) (commit : String) : List Json → Except Throw (Option Nat)
  | [] => return none
  | r :: rs => do
    if sameCommit h (tagSha.get (← r.get "tag_name")) commit then return some 0
    return (← runningIndex tagSha commit rs).map (· + 1)

/-- `Date.parse(v || 0)` -/
def dateOf (v : Option Json) : Except Throw (Option Int) := do
  let text ← if truthy v then (v.getD .null).text else .ok "0"
  return h.parseDate text

/-- How many of the releases were published after the build. -/
def publishedAfter (builtAt : Int) : List Json → Except Throw Nat
  | [] => return 0
  | r :: rs => do
    let publishedAt ← dateOf h (← r.get "published_at")
    let n ← publishedAfter builtAt rs
    return if publishedAt.any (builtAt < ·) then n + 1 else n

/-- What `checkUpdates` returns; `none` stands for `undefined` where the rest of the value is GitHub's. -/
structure Report where
  commit : Json
  built : Json
  commitsBehind : Json
  status : Json
  latestRelease : Option Json
  currentRelease : Option Json
  releasesBehind : Option Nat
  releasesBehindApprox : Bool
  releasesNote : Option String
  repo : String
  checkedAt : String

/-- `v || w` -/
def orElse (v : Option Json) (w : Json) : Json :=
  if truthy v then v.getD w else w

def report (version compare releases : Json) (commit : String) (tags : TagSha × Option String)
    (now : Int) : Except Throw Report := do
  let list ← match releases with
    | .arr list => .ok list
    | _ => throw .typeError
  let index ← runningIndex h tags.1 commit list
  let builtAt := (← dateOf h (← version.get "built")).getD 0
  let releasesBehind ← match index, tags.2 with
    | some n, _ => .ok (some n)
    | none, some _ => .ok none
    | none, none => (publishedAfter h builtAt list).map some
  let aheadBy ← compare.get "ahead_by"
  return {
    commit := (← version.get "commit").getD .null
    built := orElse (← version.get "built") .null
    commitsBehind := match aheadBy with
      | none | some .null => .num "0"
      | some n => n
    status := orElse (← compare.get "status") (.str "unknown")
    latestRelease := match list with
      | r :: _ => if r.truthy then getOptional "tag_name" r else some .null
      | [] => some .null
    currentRelease := match index with
      | some n => getOptional "tag_name" list[n]?
      | none => some .null
    releasesBehind
    releasesBehindApprox := index.isNone
    releasesNote := tags.2
    repo := h.repo
    checkedAt := h.toISOString now }

end Report

structure Decision where
  serveCached : Bool
  waitS : Int
  deriving DecidableEq

def updateCacheDecision (cachedAt : Option Int) (now : Int) (forced : Bool) (forcedAt ttlMs floorMs : Int) :
    Decision :=
  match cachedAt with
  | none => ⟨false, 0⟩
  | some cachedAt =>
    if now - cachedAt < ttlMs then
      if forced then
        if forcedAt ≠ 0 ∧ now - forcedAt < floorMs then
          ⟨true, (floorMs - (now - forcedAt) + 999) / 1000⟩   -- rounded up to whole seconds
        else ⟨false, 0⟩
      else ⟨true, 0⟩
    else ⟨false, 0⟩

def ttlMs : Int := 6 * 3600 * 1000

/-- `FORCED_UPDATE_FLOOR` -/
def forcedUpdateFloor : Int := 60 * 1000

/-- What the route answers where GitHub could be asked. -/
structure Result where
  available : Bool := true
  serviceUser : Option String
  ruleSource : String
  rulePath : String := "/etc/polkit-1/rules.d/49-mise-restart.rules"
  report : Report

/-- `UPDATES_CACHE` -/
structure Cached where
  /-- `at` -/
  time : Int
  result : Result

/-- What has happened, as the history has it. -/
inductive Event where
  /-- A sign-in has discarded the cache. -/
  | signedIn (i : Nat)
  /-- Request `i` was refused, or answered with what the cache has. -/
  | refused (i : Nat) (r : Jobs.Refusal)
  | served (i : Nat) (now : Int) (forced : Bool) (waitS : Int) (result : Result)
  /-- Request `i` goes out to GitHub; `forcedAt` is what the variable then has. -/
  | sent (i : Nat) (now : Int) (forced : Bool) (forcedAt : Int)
  /-- What request `i` has found at a time, which the cache then has, or why it has failed. -/
  | checked (i : Nat) (time : Int) (result : Result)
  | failed (i : Nat) (error : String)

/-- The two variables of the route, and the history, newest first. -/
structure World where
  cache : Option Cached := none
  forcedAt : Int := 0
  log : List Event := []

/-- What an await resumes with: how `adminFrom` refuses; whether a step of the sign-in succeeds; the
time, and the time when the same segment asks again; `version.json`; and what GitHub has replied. -/
structure Input where
  refused : Option Jobs.Refusal := none
  ok : Bool := true
  clock : Int := 0
  later : Int := 0
  version : Except String Json := .ok .null
  reply : Except String Reply := .error "timeout"
  serviceUser : Option String := none

abbrev Check := Async World Input String

namespace World

def emit (e : Event) (w : World) : World := { w with log := e :: w.log }

def signIn (i : Nat) (w : World) : World := { w with cache := none }.emit (.signedIn i)

/-- What request `i` does before it asks GitHub: it is answered from the cache, or goes out. -/
def enter (i : Nat) (forced : Bool) (now later : Int) (w : World) : Bool × World :=
  let decision := updateCacheDecision (w.cache.map Cached.time) now forced w.forcedAt ttlMs forcedUpdateFloor
  match decision.serveCached, w.cache with
  | true, some cached => (true, w.emit (.served i now forced decision.waitS cached.result))
  | _, _ =>
    let forcedAt := if forced then later else w.forcedAt
    (false, { w with forcedAt }.emit (.sent i now forced forcedAt))

def store (i : Nat) (time : Int) (result : Result) (w : World) : World :=
  { w with cache := some ⟨time, result⟩ }.emit (.checked i time result)

end World

section Routes

variable (h : Host)

/-- A request to GitHub, and the JSON of its reply. -/
def github (what : String) : Check Json := do
  let a ← Async.wait                                   -- transport
  let reply ← Async.ofExcept a.reply
  if reply.status ≠ 200 then throw (githubRefusal what reply.status)
  Async.ofExcept reply.body

def checked (x : Except Throw α) : Check α := Async.ofExcept (x.mapError fun _ => "TypeError")

/-- `!version.commit || version.commit === "dev"` -/
def undeployed (commit : Option Json) : Bool := !truthy commit || commit matches some (.str "dev")

def checkUpdates : Check Report := do
  let a ← Async.wait                                   -- readFile
  let version ← Async.ofExcept a.version
  let deployed ← checked (version.get "commit")
  if undeployed deployed then throw "local version.json has no deployed commit"
  let commit ← checked (deployed.getD .null).text      -- encodeURIComponent
  let compare ← github "compare"
  let releases ← github "releases"
  let b ← Async.wait                                   -- transport, of the tags
  checked (report h version compare releases commit (readTags b.reply) b.clock)

/-- `GET /api/admin/updates`, with `?refresh=1` where it is forced. -/
def updates (i : Nat) (forced : Bool) : Check Unit := do
  let a ← Async.wait                                   -- adminFrom
  match a.refused with
  | some r => Async.update (World.emit (.refused i r))
  | none =>
    let answered ← Async.updateGet (World.enter i forced a.clock a.later)
    if !answered then
      let outcome ← tryCatch (Except.ok <$> checkUpdates h) fun e => return .error e
      let b ← Async.wait                               -- the await of checkUpdates
      match outcome with
      | .ok report =>
        Async.update (World.store i b.clock { serviceUser := a.serviceUser, ruleSource := h.ruleSource, report })
      | .error e => Async.update (World.emit (.failed i e))

/-- `POST /api/auth47/callback`, as far as it concerns the cache. -/
def callback (i : Nat) : Check Unit := do
  let a ← Async.wait                                   -- readBody
  if a.ok then
    let b ← Async.wait                                 -- takeNonce
    if b.ok then
      let c ← Async.wait                               -- putSession
      if c.ok then
        Async.update (World.signIn i)
        let _ ← Async.wait                             -- putNonce

inductive Call where
  | updates (forced : Bool)
  | callback

def program (i : Nat) : Call → Check Unit
  | .updates forced => updates h i forced
  | .callback => callback i

def run (moves : List (Move Call Input)) : Pool World Input String Unit :=
  Pool.run (program h) ⟨{}, []⟩ moves

end Routes

end Mise.Server.Updates
