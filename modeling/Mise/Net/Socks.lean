import Mise.Net.Buffer
import Mise.Net.Utf8

set_option autoImplicit true

namespace Mise.Net.Socks

open Js

/-- The bytes that ask the proxy to connect to the host; each is a number in a `Buffer.from`, cut to
a byte. -/
def connectRequest (host : Text) (port : Nat) : Bytes :=
  let hb := Utf8.encode host
  [0x05, 0x01, 0x00, 0x03, UInt8.ofNat hb.length] ++ hb ++
    [UInt8.ofNat (port >>> 8 &&& 0xff), UInt8.ofNat (port &&& 0xff)]

/-- What a proxy reads of a request by domain name: the byte before the name says its length, and
the port is the two bytes after it. -/
def decodeRequest : Bytes → Option (Text × Nat)
  | 0x05 :: 0x01 :: 0x00 :: 0x03 :: n :: more =>
    match more.drop n.toNat with
    | [hi, lo] => some (Utf8.decode (more.take n.toNat), hi.toNat * 256 + lo.toNat)
    | _ => none
  | _ => none

def socksErr : Nat → Option String
  | 0x01 => some "general failure"
  | 0x02 => some "connection not allowed"
  | 0x03 => some "network unreachable"
  | 0x04 => some "host unreachable"
  | 0x05 => some "connection refused"
  | 0x06 => some "TTL expired"
  | 0x07 => some "command not supported"
  | 0x08 => some "address type not supported"
  | _ => none

def socksError (code : UInt8) : String :=
  "SOCKS " ++ (socksErr code.toNat).getD ("error 0x" ++ String.ofList (Nat.toDigits 16 code.toNat))

/-- The length of the bound address, where the reply says it: of a name it stands in the next byte. -/
def addrLen (buf : Bytes) : Option Nat :=
  match buf.getD 3 0 with
  | 0x01 => some 4
  | 0x04 => some 16
  | 0x03 => if 5 ≤ buf.length then some (1 + (buf.getD 4 0).toNat) else none
  | _ => some 0

/-- What the reply at the front of the buffer says: nothing yet, an error, or success, with the
length of the reply. -/
def replied (buf : Bytes) : Option (Except String Nat) :=
  if buf.length < 4 then none
  else if buf.getD 1 0 ≠ 0x00 then some (.error (socksError (buf.getD 1 0)))
  else
    match addrLen buf with
    | none => none
    | some n => if buf.length < 4 + n + 2 then none else some (.ok (4 + n + 2))

inductive Stage where
  | greet
  | reply
  deriving DecidableEq

/-- A handshake under way. Once it is settled with success the listeners are the caller's, and what
arrives then is what the caller reads. -/
structure Handshake where
  stage : Stage := .greet
  buf : Bytes := []
  request : Option Bytes := none
  settled : Option (Except String Unit) := none
  read : Bytes := []

def Handshake.fail (h : Handshake) (error : String) : Handshake :=
  if h.settled.isSome then h else { h with settled := some (.error error) }

def refused : String := "proxy refused no-auth handshake"

/-- The part of the listener that waits for the reply. -/
def Handshake.reply (h : Handshake) : Handshake :=
  match replied h.buf with
  | none => h
  | some (.error e) => h.fail e
  | some (.ok _) => { h with settled := some (.ok ()) }

/-- A data event. A failed handshake has destroyed its socket. -/
def Handshake.data (host : Text) (port : Nat) (h : Handshake) (d : Bytes) : Handshake :=
  match h.settled with
  | some (.ok _) => { h with read := h.read ++ d }
  | some (.error _) => h
  | none =>
    let h := { h with buf := h.buf ++ d }
    match h.stage with
    | .greet =>
      if h.buf.length < 2 then h
      else if h.buf.getD 0 0 ≠ 0x05 ∨ h.buf.getD 1 0 ≠ 0x00 then h.fail refused
      else Handshake.reply
        { h with buf := h.buf.drop 2, stage := .reply, request := some (connectRequest host port) }
    | .reply => h.reply

/-- What the connection comes to after its data events, if anything. -/
inductive Ending where
  | still
  | error (e : String)
  | close
  | timeout

def Handshake.finish (h : Handshake) : Ending → Handshake
  | .still => h
  | .error e => h.fail e
  | .close => h.fail "proxy closed"
  | .timeout => h.fail "timeout"

/-- What the other side sees of a handshake, and what the caller gets. -/
structure Outcome where
  request : Option Bytes
  settled : Option (Except String Unit)
  read : Bytes

def Handshake.outcome (h : Handshake) : Outcome := ⟨h.request, h.settled, h.read⟩

/-- `socks5Connect` over the data events of a connection and its end. -/
def socks5Connect (host : Text) (port : Nat) (events : List Bytes) (ending : Ending) : Outcome :=
  ((events.foldl (Handshake.data host port) {}).finish ending).outcome

/-- What the bytes of the proxy ask for, however they arrive. -/
def answer (host : Text) (port : Nat) (bs : Bytes) : Outcome :=
  if bs.length < 2 then ⟨none, none, []⟩
  else if bs.getD 0 0 ≠ 0x05 ∨ bs.getD 1 0 ≠ 0x00 then ⟨none, some (.error refused), []⟩
  else
    match replied (bs.drop 2) with
    | none => ⟨some (connectRequest host port), none, []⟩
    | some (.error e) => ⟨some (connectRequest host port), some (.error e), []⟩
    | some (.ok n) => ⟨some (connectRequest host port), some (.ok ()), bs.drop (2 + n)⟩

section Request

theorem decodeRequest_connect (h : (Utf8.encode host).length ≤ 255) (hport : port < 65536) :
    decodeRequest (connectRequest host port) = some (host, port) := by
  have hn : (UInt8.ofNat (Utf8.encode host).length).toNat = (Utf8.encode host).length :=
    Utf8.toNat_byte (by omega)
  have hhi : port >>> 8 &&& 0xff = port / 256 := by
    rw [Nat.shiftRight_eq_div_pow, Nat.and_two_pow_sub_one_eq_mod _ 8]
    omega
  have hlo : port &&& 0xff = port % 256 := Nat.and_two_pow_sub_one_eq_mod _ 8
  have hdrop : ∀ bs : Bytes, (Utf8.encode host ++ bs).drop (Utf8.encode host).length = bs := fun _ =>
    List.drop_left
  have htake : ∀ bs : Bytes, (Utf8.encode host ++ bs).take (Utf8.encode host).length =
      Utf8.encode host := fun _ => List.take_left
  show decodeRequest (0x05 :: 0x01 :: 0x00 :: 0x03 :: _ :: (Utf8.encode host ++ _)) = _
  rw [decodeRequest, hn, hdrop, htake, Utf8.decode_encode, hhi, hlo]
  dsimp only
  rw [Utf8.toNat_byte (by omega), Utf8.toNat_byte (by omega)]
  congr 2
  omega

theorem decodeRequest_long (h : ¬ (Utf8.encode host).length ≤ 255) :
    decodeRequest (connectRequest host port) = none := by
  have hn : (UInt8.ofNat (Utf8.encode host).length).toNat = (Utf8.encode host).length % 256 :=
    UInt8.toNat_ofNat'
  have hlt : (Utf8.encode host).length % 256 < 256 := Nat.mod_lt _ (by decide)
  show decodeRequest (0x05 :: 0x01 :: 0x00 :: 0x03 :: _ :: (Utf8.encode host ++ _)) = _
  rw [decodeRequest, hn]
  split
  · next hi lo hdrop =>
    have hlen := congrArg List.length hdrop
    rw [List.length_drop, List.length_append] at hlen
    simp only [List.length_cons, List.length_nil] at hlen
    omega
  · rfl

theorem decodeRequest_iff (host : Text) (hport : port < 65536) :
    decodeRequest (connectRequest host port) = some (host, port) ↔
      (Utf8.encode host).length ≤ 255 := by
  constructor
  · intro h
    by_contra hlong
    rw [decodeRequest_long hlong] at h
    cases h
  · intro h
    exact decodeRequest_connect h hport

end Request

section Reply

theorem two_cons {bs : Bytes} (h : 2 ≤ bs.length) :
    ∃ x y more, bs = x :: y :: more ∧ bs.length = more.length + 2 := by
  cases bs with
  | nil => cases h
  | cons x bs =>
    cases bs with
    | nil => exact absurd h (Nat.lt_irrefl 1)
    | cons y more => exact ⟨x, y, more, rfl, rfl⟩

theorem getD_append (hi : i < a.length) : (a ++ b : Bytes).getD i 0 = a.getD i 0 := by
  rw [List.getD_eq_getElem?_getD, List.getD_eq_getElem?_getD, List.getElem?_append_left hi]

theorem addrLen_append (hlen : 4 ≤ a.length) (h : addrLen a = some n) :
    addrLen (a ++ b) = some n := by
  rw [addrLen, getD_append (by omega)]
  rw [addrLen] at h
  split at h
  · exact h
  · exact h
  · split at h
    · next hfive =>
      rw [if_pos (by rw [List.length_append]; omega), getD_append (by omega)]
      exact h
    · cases h
  · exact h

theorem replied_append (h : replied a = some r) : replied (a ++ b) = some r := by
  rw [replied] at h
  split at h
  · cases h
  · next hlen =>
    have hlong : ¬ (a ++ b).length < 4 := by rw [List.length_append]; omega
    rw [replied, if_neg hlong, getD_append (by omega)]
    split at h
    · next hcode => rw [if_pos hcode]; exact h
    · next hcode =>
      rw [if_neg hcode]
      cases hn : addrLen a with
      | none => rw [hn] at h; cases h
      | some n =>
        rw [hn] at h
        dsimp only at h
        split at h
        · cases h
        · next hall =>
          rw [addrLen_append (by omega) hn]
          dsimp only
          rw [if_neg (by rw [List.length_append]; omega)]
          exact h

theorem replied_le (h : replied a = some (.ok n)) : n ≤ a.length := by
  rw [replied] at h
  split at h
  · cases h
  · split at h
    · cases h
    · split at h
      · cases h
      · split at h
        · cases h
        · cases h
          omega

theorem replied_take (h : replied a = some (.ok n)) : replied (a.take n) = some (.ok n) := by
  have hle := replied_le h
  rw [replied] at h
  split at h
  · cases h
  · split at h
    · cases h
    · next hlen hcode =>
      cases hm : addrLen a with
      | none => rw [hm] at h; cases h
      | some m =>
        rw [hm] at h
        dsimp only at h
        split at h
        · cases h
        · next hall =>
          cases h
          have hl : (a.take (4 + m + 2)).length = 4 + m + 2 := by
            rw [List.length_take]
            omega
          have hget : ∀ i < 6, (a.take (4 + m + 2)).getD i 0 = a.getD i 0 := by
            intro i hi
            rw [List.getD_eq_getElem?_getD, List.getD_eq_getElem?_getD, List.getElem?_take,
              if_pos (by omega)]
          have haddr : addrLen (a.take (4 + m + 2)) = some m := by
            rw [addrLen, hget 3 (by omega), hget 4 (by omega), hl, if_pos (by omega)]
            rw [addrLen] at hm
            split at hm
            · exact hm
            · exact hm
            · split at hm
              · exact hm
              · cases hm
            · exact hm
          rw [replied, if_neg (by omega), hget 1 (by omega), if_neg hcode, haddr]
          dsimp only
          rw [if_neg (by omega)]

/-- The address of a reply, of the length that its type says. -/
def IsAddress (atyp : UInt8) (addr : Bytes) : Prop :=
  if atyp = 0x01 then addr.length = 4
  else if atyp = 0x04 then addr.length = 16
  else if atyp = 0x03 then ∃ n name, addr = n :: name ∧ name.length = n.toNat
  else addr = []

/-- A reply of success in full: a version, no error, a reserved byte, the address and its type, and
a port. -/
def Granted (r : Bytes) : Prop :=
  ∃ ver rsv atyp addr port, r = ver :: 0x00 :: rsv :: atyp :: (addr ++ port) ∧
    IsAddress atyp addr ∧ port.length = 2

theorem addrLen_address (hport : port.length = 2) (haddr : IsAddress atyp addr) :
    addrLen (ver :: code :: rsv :: atyp :: (addr ++ port)) = some addr.length := by
  rw [IsAddress] at haddr
  rw [addrLen, List.getD_cons_succ, List.getD_cons_succ, List.getD_cons_succ, List.getD_cons_zero]
  split
  · rw [if_pos rfl] at haddr
    rw [haddr]
  · rw [if_neg (by decide), if_pos rfl] at haddr
    rw [haddr]
  · rw [if_neg (by decide), if_neg (by decide), if_pos rfl] at haddr
    obtain ⟨n, name, rfl, hname⟩ := haddr
    rw [if_pos (by simp only [List.length_cons, List.length_append]; omega), List.length_cons, hname,
      Nat.add_comm]
    rfl
  · next h1 h4 h3 =>
    rw [if_neg h1, if_neg h4, if_neg h3] at haddr
    rw [haddr]
    rfl

theorem isAddress_of_addrLen (h : addrLen (ver :: code :: rsv :: atyp :: more) = some n)
    (hn : n ≤ more.length) : IsAddress atyp (more.take n) := by
  have hlen : (more.take n).length = n := List.length_take_of_le hn
  rw [addrLen, List.getD_cons_succ, List.getD_cons_succ, List.getD_cons_succ,
    List.getD_cons_zero] at h
  rw [IsAddress]
  split at h
  · cases h
    rw [if_pos rfl, hlen]
  · cases h
    rw [if_neg (by decide), if_pos rfl, hlen]
  · rw [if_neg (by decide), if_neg (by decide), if_pos rfl]
    split at h
    · cases more with
      | nil => cases h; cases hn
      | cons m more =>
        cases h
        refine ⟨m, more.take m.toNat, ?_, ?_⟩
        · rw [Nat.add_comm]
          rfl
        · rw [List.length_take_of_le]
          have : 1 + m.toNat ≤ more.length + 1 := hn
          omega
    · cases h
  · next h1 h4 h3 =>
    cases h
    rw [if_neg h1, if_neg h4, if_neg h3]
    rfl

theorem replied_granted (r : Bytes) : replied r = some (.ok r.length) ↔ Granted r := by
  constructor
  · intro h
    rw [replied] at h
    split at h
    · cases h
    split at h
    · cases h
    next hlen hcode =>
    obtain ⟨ver, code, front, rfl, hfront⟩ := two_cons (by omega : 2 ≤ r.length)
    obtain ⟨rsv, atyp, more, rfl, -⟩ := two_cons (by omega : 2 ≤ front.length)
    cases hn : addrLen (ver :: code :: rsv :: atyp :: more) with
    | none => rw [hn] at h; cases h
    | some n =>
      rw [hn] at h
      dsimp only at h
      split at h
      · cases h
      · have hsize : 4 + n + 2 = more.length + 4 := Except.ok.inj (Option.some.inj h)
        have hzero : code = 0x00 := not_not.1 hcode
        refine ⟨ver, rsv, atyp, more.take n, more.drop n, ?_, ?_, ?_⟩
        · rw [List.take_append_drop, hzero]
        · exact isAddress_of_addrLen hn (by omega)
        · rw [List.length_drop]
          omega
  · rintro ⟨ver, rsv, atyp, addr, port, rfl, haddr, hport⟩
    have hlen : (ver :: 0x00 :: rsv :: atyp :: (addr ++ port)).length = 4 + addr.length + 2 := by
      simp only [List.length_cons, List.length_append]
      omega
    rw [replied, if_neg (by omega), if_neg (fun h => h rfl), addrLen_address hport haddr]
    dsimp only
    rw [if_neg (by omega), hlen]

end Reply

section Runs

/-- What a handshake has come to on the bytes so far. Of what follows a reply some may be lost, and
the rest was read. -/
inductive Heard (host : Text) (port : Nat) : Bytes → Handshake → Prop where
  | greet : bs.length < 2 → Heard host port bs { buf := bs }
  | refused {h : Handshake} : ¬ bs.length < 2 → bs.getD 0 0 ≠ 0x05 ∨ bs.getD 1 0 ≠ 0x00 →
      h.outcome = ⟨none, some (.error refused), []⟩ → Heard host port bs h
  | waiting : replied buf = none → Heard host port (0x05 :: 0x00 :: buf)
      { stage := .reply, buf := buf, request := some (connectRequest host port) }
  | failed {h : Handshake} : replied buf = some (.error e) →
      h.outcome = ⟨some (connectRequest host port), some (.error e), []⟩ →
      Heard host port (0x05 :: 0x00 :: buf) h
  | connected {h : Handshake} {r lost rest : Bytes} : replied r = some (.ok r.length) →
      h.outcome = ⟨some (connectRequest host port), some (.ok ()), rest⟩ →
      Heard host port (0x05 :: 0x00 :: (r ++ (lost ++ rest))) h

theorem answer_greeted (host : Text) (port : Nat) (buf : Bytes) :
    answer host port (0x05 :: 0x00 :: buf) =
      match replied buf with
      | none => ⟨some (connectRequest host port), none, []⟩
      | some (.error e) => ⟨some (connectRequest host port), some (.error e), []⟩
      | some (.ok n) => ⟨some (connectRequest host port), some (.ok ()), buf.drop n⟩ := by
  have hlen : ¬ (0x05 :: 0x00 :: buf : Bytes).length < 2 := by
    simp only [List.length_cons]
    omega
  have hgood : ¬ ((0x05 :: 0x00 :: buf : Bytes).getD 0 0 ≠ 0x05 ∨
      (0x05 :: 0x00 :: buf : Bytes).getD 1 0 ≠ 0x00) := by
    rintro (h | h) <;> exact h rfl
  rw [answer, if_neg hlen, if_neg hgood]
  show (match replied buf with
    | none => _
    | some (.error e) => _
    | some (.ok n) => _) = _
  cases replied buf with
  | none => rfl
  | some r =>
    cases r with
    | error e => rfl
    | ok n =>
      dsimp only
      rw [Nat.add_comm]
      rfl

theorem Heard.reply (host : Text) (port : Nat) (buf : Bytes) :
    Heard host port (0x05 :: 0x00 :: buf) (Handshake.reply
      { stage := .reply, buf := buf, request := some (connectRequest host port) }) := by
  rw [Handshake.reply]
  cases hr : replied buf with
  | none => exact .waiting hr
  | some r =>
    cases r with
    | error e => exact .failed hr rfl
    | ok n =>
      have hlen : (buf.take n).length = n := List.length_take_of_le (replied_le hr)
      have htake : replied (buf.take n) = some (.ok (buf.take n).length) := by
        rw [hlen]
        exact replied_take hr
      have hbuf : buf = buf.take n ++ (buf.drop n ++ []) := by
        rw [List.append_nil, List.take_append_drop]
      conv => arg 3; rw [hbuf]
      exact .connected htake rfl

theorem greeting_eq (hlen : ¬ bs.length < 2) (h : ¬ (bs.getD 0 0 ≠ 0x05 ∨ bs.getD 1 0 ≠ 0x00)) :
    (bs : Bytes) = 0x05 :: 0x00 :: bs.drop 2 := by
  obtain ⟨x, y, more, rfl, -⟩ := two_cons (by omega : 2 ≤ bs.length)
  have hx : x = 0x05 := not_not.1 fun hx => h (.inl hx)
  have hy : y = 0x00 := not_not.1 fun hy => h (.inr hy)
  rw [hx, hy]
  rfl

theorem outcome_data_error {h : Handshake} (hs : h.settled = some (.error e)) :
    h.data host port d = h := by
  rw [Handshake.data, hs]

theorem Heard.data {h : Handshake} (hb : Heard host port bs h) (d : Bytes) :
    Heard host port (bs ++ d) (h.data host port d) := by
  cases hb with
  | greet hlen =>
    rw [Handshake.data]
    dsimp only
    by_cases hshort : (bs ++ d).length < 2
    · rw [if_pos hshort]
      exact .greet hshort
    · rw [if_neg hshort]
      by_cases hbad : (bs ++ d).getD 0 0 ≠ 0x05 ∨ (bs ++ d).getD 1 0 ≠ 0x00
      · rw [if_pos hbad]
        exact .refused hshort hbad rfl
      · rw [if_neg hbad]
        have h := Heard.reply host port ((bs ++ d).drop 2)
        rw [← greeting_eq hshort hbad] at h
        exact h
  | refused hlen hbad ho =>
    have hs : h.settled = some (.error Socks.refused) := congrArg Outcome.settled ho
    rw [outcome_data_error hs]
    refine .refused ?_ ?_ ho
    · rw [List.length_append]
      omega
    · rw [getD_append (by omega), getD_append (by omega)]
      exact hbad
  | waiting =>
    exact Heard.reply host port _
  | failed hr ho =>
    rw [outcome_data_error (congrArg Outcome.settled ho)]
    exact .failed (replied_append hr) ho
  | connected hr ho =>
    next r lost rest =>
    have hs : h.settled = some (.ok ()) := congrArg Outcome.settled ho
    have hrequest : h.request = some (connectRequest host port) := congrArg Outcome.request ho
    have hread : h.read = rest := congrArg Outcome.read ho
    have hdata : (h.data host port d).outcome =
        ⟨some (connectRequest host port), some (.ok ()), rest ++ d⟩ := by
      rw [Handshake.data, hs]
      dsimp only [Handshake.outcome]
      rw [hrequest, hread]
    have hbytes : r ++ (lost ++ rest) ++ d = r ++ (lost ++ (rest ++ d)) := by
      rw [List.append_assoc, List.append_assoc]
    show Heard host port (0x05 :: 0x00 :: (r ++ (lost ++ rest) ++ d)) _
    rw [hbytes]
    exact .connected hr hdata

theorem Heard.run (events : List Bytes) {h : Handshake} (hb : Heard host port bs h) :
    Heard host port (bs ++ events.flatten) (events.foldl (Handshake.data host port) h) := by
  induction events generalizing bs h with
  | nil =>
    rw [List.flatten_nil, List.append_nil]
    exact hb
  | cons d events ih =>
    rw [List.flatten_cons, ← List.append_assoc, List.foldl_cons]
    exact ih (hb.data d)

/-- The outcome is what the bytes ask for, but for what is lost after a reply. -/
theorem Heard.outcome {h : Handshake} (hb : Heard host port bs h) :
    ∃ lost, answer host port bs = ⟨h.request, h.settled, lost ++ h.read⟩ ∧
      (lost = [] ∨ ∃ r, Granted r ∧ bs = 0x05 :: 0x00 :: (r ++ (lost ++ h.read))) := by
  cases hb with
  | greet hlen =>
    refine ⟨[], ?_, .inl rfl⟩
    rw [answer, if_pos hlen]
    rfl
  | refused hlen hbad ho =>
    refine ⟨[], ?_, .inl rfl⟩
    rw [answer, if_neg hlen, if_pos hbad]
    exact ho.symm
  | waiting hr =>
    refine ⟨[], ?_, .inl rfl⟩
    rw [answer_greeted, hr]
    rfl
  | failed hr ho =>
    refine ⟨[], ?_, .inl rfl⟩
    rw [answer_greeted, hr]
    exact ho.symm
  | connected hr ho =>
    next r lost rest =>
    have hrequest : h.request = some (connectRequest host port) := congrArg Outcome.request ho
    have hs : h.settled = some (.ok ()) := congrArg Outcome.settled ho
    have hread : h.read = rest := congrArg Outcome.read ho
    refine ⟨lost, ?_, .inr ⟨r, (replied_granted r).1 hr, ?_⟩⟩
    · rw [answer_greeted, replied_append hr, hrequest, hs, hread]
      dsimp only
      rw [List.drop_left]
    · rw [hread]

theorem heard (host : Text) (port : Nat) (events : List Bytes) :
    Heard host port events.flatten (events.foldl (Handshake.data host port) {}) := by
  have h : Heard host port [] {} := .greet Nat.zero_lt_two
  exact h.run events

theorem request_finish (h : Handshake) (ending : Ending) : (h.finish ending).request = h.request := by
  have hfail : ∀ e, (h.fail e).request = h.request := by
    intro e
    rw [Handshake.fail]
    split <;> rfl
  cases ending with
  | still => rfl
  | error e => exact hfail e
  | close => exact hfail _
  | timeout => exact hfail _

theorem outcome_finish {h h' : Handshake} (ending : Ending) (heq : h.outcome = h'.outcome) :
    (h.finish ending).outcome = (h'.finish ending).outcome := by
  have hfail : ∀ e, (h.fail e).outcome = (h'.fail e).outcome := by
    intro e
    have hsettled : h.settled = h'.settled := congrArg Outcome.settled heq
    rw [Handshake.fail, Handshake.fail, hsettled]
    split
    · exact heq
    · show Outcome.mk h.request _ h.read = Outcome.mk h'.request _ h'.read
      rw [show h.request = h'.request from congrArg Outcome.request heq,
        show h.read = h'.read from congrArg Outcome.read heq]
  cases ending with
  | still => exact heq
  | error e => exact hfail e
  | close => exact hfail _
  | timeout => exact hfail _

theorem data_granted (hr : replied buf = some (.ok n)) :
    Handshake.data host port {} (0x05 :: 0x00 :: buf) =
      { stage := .reply, buf := buf, request := some (connectRequest host port),
        settled := some (.ok ()) } := by
  show Handshake.reply { stage := .reply, buf := buf, request := _ } = _
  rw [Handshake.reply]
  dsimp only
  rw [hr]

end Runs

section Splits

/-- The request names the host and the port, whatever the proxy sent to be asked. -/
def Asks (host : Text) (port : Nat) : Prop :=
  ∀ events ending request, (socks5Connect host port events ending).request = some request →
    decodeRequest request = some (host, port)

/-- The data events that bring the bytes: none of them is empty. -/
def Bring (bs : Bytes) (events : List Bytes) : Prop := events.flatten = bs ∧ [] ∉ events

/-- The outcome depends on the bytes and not on how they are split into data events. -/
def OnlyBytes (host : Text) (port : Nat) (bs : Bytes) : Prop :=
  ∀ events events' ending, Bring bs events → Bring bs events' →
    socks5Connect host port events ending = socks5Connect host port events' ending

theorem asks_iff (host : Text) (hport : port < 65536) :
    Asks host port ↔ (Utf8.encode host).length ≤ 255 := by
  rw [← decodeRequest_iff host hport]
  constructor
  · intro h
    exact h [[0x05, 0x00]] .still _ rfl
  · intro h events ending request hrequest
    rw [socks5Connect, Handshake.outcome, request_finish] at hrequest
    obtain ⟨lost, ha, -⟩ := (heard host port events).outcome
    have ha : (answer host port events.flatten).request = some request := by rw [ha]; exact hrequest
    rw [answer] at ha
    split at ha
    · cases ha
    split at ha
    · cases ha
    split at ha
    all_goals
      cases ha
      exact h

theorem onlyBytes_iff (host : Text) (port : Nat) (bs : Bytes) :
    OnlyBytes host port bs ↔
      ∀ r rest, Granted r → bs = 0x05 :: 0x00 :: (r ++ rest) → rest = [] := by
  constructor
  · intro h r rest hr hbs
    by_contra hrest
    have hr := (replied_granted r).2 hr
    have hone : Bring bs [bs] := by
      refine ⟨List.append_nil bs, ?_⟩
      rw [hbs, List.mem_singleton]
      exact (List.cons_ne_nil _ _).symm
    have htwo : Bring bs [0x05 :: 0x00 :: r, rest] := by
      refine ⟨?_, ?_⟩
      · rw [hbs, List.flatten_cons, List.flatten_cons, List.flatten_nil, List.append_nil]
        rfl
      · intro hmem
        rcases List.mem_cons.1 hmem with hmem | hmem
        · cases hmem
        · exact hrest (List.mem_singleton.1 hmem).symm
    have heq := congrArg Outcome.read (h _ _ .still hone htwo)
    rw [socks5Connect, socks5Connect, List.foldl_cons, List.foldl_nil, List.foldl_cons,
      List.foldl_cons, List.foldl_nil, hbs, data_granted (replied_append hr), data_granted hr] at heq
    exact hrest heq.symm
  · intro h
    have hall : ∀ events, Bring bs events →
        (events.foldl (Handshake.data host port) {}).outcome = answer host port bs := by
      rintro events ⟨rfl, -⟩
      obtain ⟨lost, ha, hlost⟩ := (heard host port events).outcome
      rw [ha, Handshake.outcome]
      rcases hlost with rfl | ⟨r, hr, hbs⟩
      · rfl
      · have hnil := List.append_eq_nil_iff.1 (h r _ hr hbs)
        rw [hnil.1]
        rfl
    intro events events' ending he he'
    exact outcome_finish ending ((hall events he).trans (hall events' he').symm)

end Splits

end Mise.Net.Socks
