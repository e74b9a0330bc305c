import Mise.Js.JsonText
import Mise.Net.Chunked

set_option autoImplicit true

namespace Mise.Net
open Js

/-- `MAX_RESPONSE_BYTES` and `MAX_STATUS_LINE_BYTES` -/
def maxResponseBytes : Nat := 2 * 1024 * 1024

def maxStatusLineBytes : Nat := 64 * 1024

/-- How a connection ends; where nothing else happens the timer does. -/
inductive Closing where
  | error (message : String)
  | close
  | timeout

/-- A connection through the proxy: it is not made, or it gives these data events and ends. -/
inductive Exchange where
  | refused (message : String)
  | opened (events : List Bytes) (closing : Closing)

structure HttpReply where
  status : Nat
  body : Text
  rawHead : Text

/-- What the bytes of a whole reply say. -/
def httpReply (buf : Bytes) : HttpReply where
  status := match statusText (latin1 buf) with
    | some digits => digits.foldl (fun n c => 10 * n + (c.toNat - 48)) 0
    | none => 0
  body := match headEnd buf with
    | some i => latin1 (buf.drop (i + 4))
    | none => []
  rawHead := match headEnd buf with
    | some i => latin1 (buf.take (i + 2))
    | none => latin1 buf

/-- A data event of `httpOverTor`: it goes on with all bytes so far, or has been rejected. -/
def httpData : Except String Bytes → Bytes → Except String Bytes
  | .error e, _ => .error e
  | .ok buf, d =>
    if maxResponseBytes < (buf ++ d).length then
      .error ("response exceeded " ++ toString maxResponseBytes ++ " bytes")
    else .ok (buf ++ d)

def httpOverTor : Exchange → Except String HttpReply
  | .refused e => .error e
  | .opened events closing =>
    match events.foldl httpData (.ok []), closing with
    | .error e, _ => .error e
    | .ok _, .error e => .error e
    | .ok _, .timeout => .error "read-timeout"
    | .ok buf, .close => .ok (httpReply buf)

section Header

def isVersionChar (c : Char) : Bool := c.isAlphanum || c = '.'

/-- `/^\d+(\.\d+){0,3}([-+][0-9A-Za-z.]+)?$/` -/
def isVersion (v : Text) : Bool :=
  let numbers := (v.takeWhile fun c => c.isDigit || c = '.').splitOn '.'
  numbers.length ≤ 4 && numbers.all (· ≠ []) &&
    match v.dropWhile fun c => c.isDigit || c = '.' with
    | [] => true
    | c :: suffix => (c = '-' || c = '+') && suffix ≠ [] && suffix.all isVersionChar

def normaliseVersion (raw : Text) : Option Text :=
  let v := trimmed raw
  let v := trimmed (if v.head? = some 'v' ∨ v.head? = some 'V' then v.tail else v)
  if v = [] ∨ 32 < v.length then none else if isVersion v then some v else none

/-- A line without the carriage return at its end. -/
def withoutReturn (line : Text) : Text := if line.getLast? = some '\r' then line.dropLast else line

/-- `s.split(/\r?\n/)` -/
def headLines (s : Text) : List Text :=
  (s.splitOn '\n').dropLast.map withoutReturn ++ (s.splitOn '\n').getLast?.toList

/-- A line of the header with this name, in small letters. -/
def isHeader (name line : Text) : Bool :=
  line.contains ':' && lowered (trimmed (line.takeWhile (· ≠ ':'))) = name

def parseDojoVersion (name rawHead : Text) : Option Text :=
  ((headLines rawHead).find? (isHeader name)).bind fun line =>
    normaliseVersion ((line.dropWhile (· ≠ ':')).tail)

example : parseDojoVersion "x-dojo-version".toList "HTTP/1.1 200\r\nX-Dojo-Version: v1.27.0\r\n".toList =
    some "1.27.0".toList := by decide +kernel

end Header

section Indexer

variable (numberText : String → String)

/-- `v?.k` -/
def member (k : String) : Option Json → Option Json
  | some (.obj fields) => fields.lookup k
  | _ => none

/-- `/^(tcp|ssl):\/\/[a-z2-7]{56}\.onion:\d{2,5}$/i` -/
def isIndexerUrl (u : Text) : Bool :=
  let rest := u.drop 6
  let port := rest.drop 63
  (lowered (u.take 6) = "tcp://".toList || lowered (u.take 6) = "ssl://".toList) &&
    (rest.take 56).length = 56 &&
    (rest.take 56).all (fun c => c.isAlpha || ('2' ≤ c && c ≤ '7')) &&
    lowered ((rest.drop 56).take 7) = ".onion:".toList &&
    2 ≤ port.length && port.length ≤ 5 && port.all Char.isDigit

def normaliseIndexerUrl (raw : String) : Option Text :=
  let u := trimmed raw.toList
  if u = [] ∨ 120 < u.length then none else if isIndexerUrl u then some u else none

def isIndexer (s : Json) : Bool :=
  match member "type" (some s), member "url" (some s) with
  | some (.str t), some (.str _) => t == "indexer"
  | _, _ => false

def parseIndexerUrl (body : Text) : Option Text :=
  match member "services" (parse numberText (String.ofList body)) with
  | some (.arr services) =>
    match (services.find? isIndexer).bind fun s => member "url" (some s) with
    | some (.str url) => normaliseIndexerUrl url
    | _ => none
  | _ => none

end Indexer

/-- What a probe asks for: the front page, or a token, the wallet and the services of a node. -/
inductive Asked where
  | head
  | login
  | wallet (token : String)
  | services (token : String)

structure ProbeReply where
  up : Bool := false
  reason : String
  height : Option String := none
  blockTime : Option Json := none
  detectedVersion : Option Text := none
  detectedIndexer : Option Text := none

/-- How a node is probed, and how numbers are read and errors of `JSON.parse` worded. -/
structure ProbeCfg where
  apikey : Bool
  connectOnly : Bool
  https : Bool
  dojoVersionHeader : Text
  numberText : String → String
  syntaxError : Text → String

namespace ProbeCfg

variable (cfg : ProbeCfg)

def httpStatus (n : Nat) : String := if n = 0 then "no-response" else toString n

/-- What the services say, which is never held against a node: the version, where none is known yet,
and the indexer. -/
def services (version : Option Text) (e : Exchange) : Option Text × Option Text :=
  match httpOverTor e with
  | .error _ => (version, none)
  | .ok res =>
    (version <|> parseDojoVersion cfg.dojoVersionHeader res.rawHead,
      if res.status = 200 then parseIndexerUrl cfg.numberText res.body else none)

/-- The chain tip of a node, once its token is known. -/
def wallet (token : String) (version : Option Text) (exchange : Asked → Exchange) : ProbeReply :=
  match httpOverTor (exchange (.wallet token)) with
  | .error e => { reason := "wallet: " ++ e, detectedVersion := version }
  | .ok res =>
    let version := version <|> parseDojoVersion cfg.dojoVersionHeader res.rawHead
    if res.status ≠ 200 then { reason := "wallet HTTP " ++ httpStatus res.status, detectedVersion := version }
    else
      match parse cfg.numberText (String.ofList res.body) with
      | none => { reason := "wallet: " ++ cfg.syntaxError res.body, detectedVersion := version }
      | some doc =>
        let info := member "latest_block" (member "info" (some doc))
        match member "height" info with
        | some (.num height) =>
          let found := cfg.services version (exchange (.services token))
          { up := true
            reason := "height"
            height := some height
            blockTime := member "time" info
            detectedVersion := found.1
            detectedIndexer := found.2 }
        | _ => { reason := "wallet: no block height", detectedVersion := version }

def probeHeight (exchange : Asked → Exchange) : ProbeReply :=
  match httpOverTor (exchange .login) with
  | .error e => { reason := "login: " ++ e }
  | .ok res =>
    let version := parseDojoVersion cfg.dojoVersionHeader res.rawHead
    if res.status ≠ 200 then { reason := "login HTTP " ++ httpStatus res.status, detectedVersion := version }
    else
      match parse cfg.numberText (String.ofList res.body) with
      | none => { reason := "login: " ++ cfg.syntaxError res.body, detectedVersion := version }
      | some doc =>
        match member "access_token" (member "authorizations" (some doc)) with
        | none => { reason := "login: no token", detectedVersion := version }
        | some token =>
          if !token.truthy then { reason := "login: no token", detectedVersion := version }
          else
            match token.text with
            | .error _ => { reason := "wallet: Cannot convert object to primitive value", detectedVersion := version }
            | .ok token => cfg.wallet token version exchange

end ProbeCfg

/-- `/^HTTP\//i` -/
def isHttp (got : Text) : Bool := lowered (got.take 5) = "http/".toList

/-- The plain probe: it goes on with all that it has got, or has finished. -/
structure Reading where
  got : Text := []
  finished : Option (Bool × String) := none

namespace Reading

def data (r : Reading) (d : Bytes) : Reading :=
  if r.finished.isSome then r
  else
    let got := r.got ++ latin1 d
    if isHttp got then ⟨got, some (true, "http")⟩
    else if maxStatusLineBytes < got.length then ⟨got, some (false, "no-http-response")⟩
    else ⟨got, none⟩

def ended (got : Text) : Closing → Bool × String
  | .error _ => (got ≠ [], "socket-error")
  | .close => (got ≠ [], "closed")
  | .timeout => (got ≠ [], if got = [] then "read-timeout" else "partial")

def finish (r : Reading) (closing : Closing) : Bool × String := r.finished.getD (ended r.got closing)

end Reading

def probe (cfg : ProbeCfg) (exchange : Asked → Exchange) : ProbeReply :=
  if cfg.apikey then cfg.probeHeight exchange
  else
    match exchange .head with
    | .refused e => { reason := e }
    | .opened events closing =>
      if cfg.connectOnly || cfg.https then
        { up := true, reason := if cfg.https then "tls-connect" else "connect" }
      else
        let r := events.foldl Reading.data {}
        { up := (r.finish closing).1
          reason := (r.finish closing).2
          detectedVersion := parseDojoVersion cfg.dojoVersionHeader r.got }

section Split

variable {cfg : ProbeCfg} {exchange : Asked → Exchange} {events : List Bytes} {closing : Closing} {bs : Bytes}

/-- The connection on which everything arrives at once. -/
def Exchange.whole : Exchange → Exchange
  | .refused e => .refused e
  | .opened events closing => .opened [events.flatten] closing

theorem httpData_fold (events : List Bytes) (buf : Bytes) (h : buf.length ≤ maxResponseBytes) :
    events.foldl httpData (.ok buf) = httpData (.ok buf) events.flatten := by
  induction events generalizing buf with
  | nil =>
    rw [List.foldl_nil, List.flatten_nil, httpData, List.append_nil, if_neg (Nat.not_lt.2 h)]
  | cons d events ih =>
    rw [List.foldl_cons, List.flatten_cons, httpData]
    split
    · next hlong =>
      have hall : events.foldl httpData (.error ("response exceeded " ++ toString maxResponseBytes ++ " bytes")) =
          .error ("response exceeded " ++ toString maxResponseBytes ++ " bytes") := by
        clear ih
        induction events with
        | nil => rfl
        | cons d' events ih => exact ih
      have hmore : maxResponseBytes < (buf ++ (d ++ events.flatten)).length := by
        rw [← List.append_assoc, List.length_append]
        omega
      rw [hall, httpData, if_pos hmore]
    · next hshort => rw [ih _ (Nat.le_of_not_lt hshort), httpData, httpData, List.append_assoc]

theorem httpOverTor_whole (e : Exchange) : httpOverTor e.whole = httpOverTor e := by
  cases e with
  | refused e => rfl
  | opened events closing =>
    have hempty : ([] : Bytes).length ≤ maxResponseBytes := Nat.zero_le _
    simp only [Exchange.whole, httpOverTor, httpData_fold _ [] hempty, List.flatten_cons, List.flatten_nil,
      List.append_nil]

theorem probeHeight_whole (cfg : ProbeCfg) (exchange : Asked → Exchange) :
    cfg.probeHeight (fun a => (exchange a).whole) = cfg.probeHeight exchange := by
  have hservices : ∀ version a, cfg.services version (exchange a).whole = cfg.services version (exchange a) := by
    intro version a
    rw [ProbeCfg.services, ProbeCfg.services, httpOverTor_whole]
  have hwallet : ∀ token version, cfg.wallet token version (fun a => (exchange a).whole) =
      cfg.wallet token version exchange := by
    intro token version
    rw [ProbeCfg.wallet, ProbeCfg.wallet, httpOverTor_whole]
    simp only [hservices]
  rw [ProbeCfg.probeHeight, ProbeCfg.probeHeight, httpOverTor_whole]
  simp only [hwallet]

/-- What the plain probe makes of all that a node has sent. -/
def verdict (bs : Bytes) (closing : Closing) : Bool × String :=
  if isHttp (latin1 bs) then (true, "http")
  else if maxStatusLineBytes < bs.length then (false, "no-http-response")
  else Reading.ended (latin1 bs) closing

theorem length_latin1 (bs : Bytes) : (latin1 bs).length = bs.length := List.length_map _

theorem isHttp_append {s : Text} (h : 5 ≤ s.length ∨ isHttp s = true) (t : Text) : isHttp (s ++ t) = isHttp s := by
  have hlen : 5 ≤ s.length := by
    rcases h with h | h
    · exact h
    · rw [isHttp, decide_eq_true_eq] at h
      have hl := congrArg List.length h
      rw [lowered, List.length_map, List.length_take] at hl
      change min 5 s.length = 5 at hl
      omega
  rw [isHttp, isHttp, List.take_append_of_le_length hlen]

theorem fold_finished {r : Reading} (h : r.finished.isSome = true) (events : List Bytes) :
    events.foldl Reading.data r = r := by
  induction events with
  | nil => rfl
  | cons d events ih => rw [List.foldl_cons, Reading.data, if_pos h, ih]

/-- However its data are split, the plain probe comes to the verdict on all of them, and has read them
from the front. -/
theorem reading_fold (bs : Bytes) (events : List Bytes) (closing : Closing)
    (hhttp : isHttp (latin1 bs) = false) (hshort : bs.length ≤ maxStatusLineBytes) :
    (events.foldl Reading.data ⟨latin1 bs, none⟩).finish closing = verdict (bs ++ events.flatten) closing ∧
      (events.foldl Reading.data ⟨latin1 bs, none⟩).got <+: latin1 (bs ++ events.flatten) := by
  induction events generalizing bs with
  | nil =>
    rw [List.foldl_nil, List.flatten_nil, List.append_nil, verdict, hhttp, if_neg Bool.false_ne_true,
      if_neg (Nat.not_lt.2 hshort)]
    exact ⟨rfl, List.prefix_rfl⟩
  | cons d events ih =>
    have hstep : Reading.data ⟨latin1 bs, none⟩ d =
        if isHttp (latin1 (bs ++ d)) then ⟨latin1 (bs ++ d), some (true, "http")⟩
        else if maxStatusLineBytes < (bs ++ d).length then ⟨latin1 (bs ++ d), some (false, "no-http-response")⟩
        else ⟨latin1 (bs ++ d), none⟩ := by
      rw [← length_latin1 (bs ++ d), latin1_append]
      rfl
    rw [List.foldl_cons, List.flatten_cons, ← List.append_assoc, hstep]
    have hprefix : latin1 (bs ++ d) <+: latin1 (bs ++ d ++ events.flatten) := by
      rw [latin1_append (bs ++ d)]
      exact List.prefix_append _ _
    cases hdone : isHttp (latin1 (bs ++ d)) with
    | true =>
      have hall : isHttp (latin1 (bs ++ d ++ events.flatten)) = true := by
        rw [latin1_append (bs ++ d), isHttp_append (.inr hdone), hdone]
      rw [if_pos rfl, fold_finished rfl, verdict, if_pos hall]
      exact ⟨rfl, hprefix⟩
    | false =>
      rw [if_neg Bool.false_ne_true]
      split
      · next hlong =>
        have hfive : 5 ≤ (latin1 (bs ++ d)).length := by
          rw [length_latin1]
          exact Nat.le_trans (by decide) (Nat.le_of_lt hlong)
        have hall : isHttp (latin1 (bs ++ d ++ events.flatten)) = false := by
          rw [latin1_append (bs ++ d), isHttp_append (.inl hfive), hdone]
        have hmore : maxStatusLineBytes < (bs ++ d ++ events.flatten).length := by
          rw [List.length_append]
          omega
        rw [fold_finished rfl, verdict, hall, if_neg Bool.false_ne_true, if_pos hmore]
        exact ⟨rfl, hprefix⟩
      · next hfits => exact ih (bs ++ d) hdone (Nat.le_of_not_lt hfits)

end Split

section Version

variable {name p s a b : Text}

/-- The text breaks off in the line of this header. -/
def EndsInHeader (name p : Text) : Prop := ∃ line ∈ (p.splitOn '\n').getLast?, isHeader name line = true

theorem headLines_line (h : '\n' ∉ a) (b : Text) :
    headLines (a ++ '\n' :: b) = withoutReturn a :: headLines b := by
  have hne : b.splitOn '\n' ≠ [] := List.splitOn_ne_nil _ _
  rw [headLines, headLines, splitOn_append, splitOn_line h, List.singleton_append,
    List.dropLast_cons_of_ne_nil hne, List.getLast?_cons_of_ne_nil hne]
  rfl

theorem parseDojoVersion_line (h : '\n' ∉ a) (hno : isHeader name (withoutReturn a) = false) (b : Text) :
    parseDojoVersion name (a ++ '\n' :: b) = parseDojoVersion name b := by
  rw [parseDojoVersion, headLines_line h, List.find?_cons_of_neg (Bool.eq_false_iff.1 hno)]
  rfl

/-- What is read from the front of a text says the same of the version as the text, or nothing, or breaks
off in its line. -/
theorem version_begun (h : p <+: s) : parseDojoVersion name p = parseDojoVersion name s ∨
    parseDojoVersion name p = none ∨ EndsInHeader name p := by
  induction hl : p.length using Nat.strong_induction_on generalizing p s with
  | _ l ih =>
    by_cases hbreak : '\n' ∈ p
    · obtain ⟨a, p, rfl, ha⟩ := List.eq_append_cons_of_mem hbreak
      obtain ⟨t, rfl⟩ := h
      rw [List.append_assoc, List.cons_append]
      cases hfirst : isHeader name (withoutReturn a) with
      | true =>
        left
        rw [parseDojoVersion, parseDojoVersion, headLines_line ha, headLines_line ha,
          List.find?_cons_of_pos hfirst, List.find?_cons_of_pos hfirst]
      | false =>
        rw [parseDojoVersion_line ha hfirst, parseDojoVersion_line ha hfirst]
        have hlen : p.length < l := by
          rw [← hl, List.length_append, List.length_cons]
          omega
        refine (ih p.length hlen (List.prefix_append p t) rfl).imp_right (Or.imp_right ?_)
        rintro ⟨line, hlast, hline⟩
        refine ⟨line, ?_, hline⟩
        rw [splitOn_append, splitOn_line ha, List.singleton_append,
          List.getLast?_cons_of_ne_nil (List.splitOn_ne_nil _ _)]
        exact hlast
    · right
      have hone : headLines p = [p] := by
        rw [headLines, splitOn_line hbreak]
        rfl
      cases hline : isHeader name p with
      | true =>
        refine .inr ⟨p, ?_, hline⟩
        rw [splitOn_line hbreak]
        rfl
      | false =>
        left
        rw [parseDojoVersion, hone, List.find?_cons_of_neg (Bool.eq_false_iff.1 hline)]
        rfl

end Version

section Probe

variable {cfg : ProbeCfg} {exchange : Asked → Exchange} {events : List Bytes} {closing : Closing}

/-- A node hands out a token for its key, and says its height to who has it. -/
structure Answers (cfg : ProbeCfg) (exchange : Asked → Exchange) (token height : String) : Prop where
  login : ∃ res doc v, httpOverTor (exchange .login) = .ok res ∧ res.status = 200 ∧
    parse cfg.numberText (String.ofList res.body) = some doc ∧
    member "access_token" (member "authorizations" (some doc)) = some v ∧ v.truthy = true ∧ v.text = .ok token
  wallet : ∃ res doc, httpOverTor (exchange (.wallet token)) = .ok res ∧ res.status = 200 ∧
    parse cfg.numberText (String.ofList res.body) = some doc ∧
    member "height" (member "latest_block" (member "info" (some doc))) = some (.num height)

theorem wallet_up (cfg : ProbeCfg) (token : String) (version : Option Text) (exchange : Asked → Exchange) :
    (cfg.wallet token version exchange).up = true ↔ ∃ height res doc,
      httpOverTor (exchange (.wallet token)) = .ok res ∧ res.status = 200 ∧
      parse cfg.numberText (String.ofList res.body) = some doc ∧
      member "height" (member "latest_block" (member "info" (some doc))) = some (.num height) := by
  unfold ProbeCfg.wallet
  constructor
  · intro h
    split at h
    · cases h
    · next res hres =>
      dsimp only at h
      split at h
      · cases h
      · next hstatus =>
        split at h
        · cases h
        · next doc hdoc =>
          split at h
          · next height hheight => exact ⟨height, res, doc, hres, not_not.1 hstatus, hdoc, hheight⟩
          · cases h
  · rintro ⟨height, res, doc, hres, hstatus, hdoc, hheight⟩
    rw [hres]
    dsimp only
    rw [if_neg (not_not.2 hstatus), hdoc]
    dsimp only
    rw [hheight]

/-- A node is up where it answers, whatever its services say. -/
theorem probeHeight_up (cfg : ProbeCfg) (exchange : Asked → Exchange) :
    (cfg.probeHeight exchange).up = true ↔ ∃ token height, Answers cfg exchange token height := by
  unfold ProbeCfg.probeHeight
  constructor
  · intro h
    split at h
    · cases h
    · next res hres =>
      dsimp only at h
      split at h
      · cases h
      · next hstatus =>
        split at h
        · cases h
        · next doc hdoc =>
          split at h
          · cases h
          · next v hv =>
            split at h
            · cases h
            · next htruthy =>
              split at h
              · cases h
              · next token htoken =>
                obtain ⟨height, hwallet⟩ := (wallet_up _ _ _ _).1 h
                have htrue : v.truthy = true := by simpa using htruthy
                exact ⟨token, height,
                  ⟨⟨res, doc, v, hres, not_not.1 hstatus, hdoc, hv, htrue, htoken⟩, hwallet⟩⟩
  · rintro ⟨token, height, ⟨res, doc, v, hres, hstatus, hdoc, hv, htruthy, htoken⟩, hwallet⟩
    rw [hres]
    dsimp only
    rw [if_neg (not_not.2 hstatus), hdoc]
    dsimp only
    rw [hv]
    dsimp only
    rw [htruthy, htoken]
    exact (wallet_up _ _ _ _).2 ⟨height, hwallet⟩

/-- What a plain probe has read when it finishes. -/
def readBy (events : List Bytes) : Text := (events.foldl Reading.data {}).got

/-- However the data of its connections are split, a probe says the same of a node; only the version that
a plain probe finds may be missing, or cut off where what was read breaks off in the line that has it. A
node that is probed with its key is up where it hands out a token and says its height. -/
theorem probe_split (cfg : ProbeCfg) (exchange : Asked → Exchange) :
    (cfg.apikey = true → probe cfg exchange = probe cfg (fun a => (exchange a).whole) ∧
      ((probe cfg exchange).up = true ↔ ∃ token height, Answers cfg exchange token height)) ∧
    (cfg.apikey = false → (cfg.connectOnly || cfg.https) = false → ∀ events closing,
      exchange .head = .opened events closing →
      ((probe cfg exchange).up, (probe cfg exchange).reason) = verdict events.flatten closing ∧
      ((probe cfg exchange).detectedVersion =
          parseDojoVersion cfg.dojoVersionHeader (latin1 events.flatten) ∨
        (probe cfg exchange).detectedVersion = none ∨
        EndsInHeader cfg.dojoVersionHeader (readBy events))) := by
  constructor
  · intro hkey
    rw [probe, probe, if_pos hkey, if_pos hkey, probeHeight_whole]
    exact ⟨rfl, probeHeight_up cfg exchange⟩
  · intro hkey hplain events closing hopened
    obtain ⟨hverdict, hread⟩ := reading_fold [] events closing (by decide) (Nat.zero_le _)
    have hprobe : probe cfg exchange =
        { up := ((events.foldl Reading.data {}).finish closing).1
          reason := ((events.foldl Reading.data {}).finish closing).2
          detectedVersion := parseDojoVersion cfg.dojoVersionHeader (readBy events) } := by
      rw [probe, hkey, if_neg Bool.false_ne_true, hopened]
      dsimp only
      rw [hplain, if_neg Bool.false_ne_true]
      rfl
    rw [hprobe]
    exact ⟨hverdict, version_begun hread⟩

end Probe

end Mise.Net
