import Mathlib.Data.List.Infix
import Mathlib.Data.List.TakeWhile
import Mathlib.Tactic.IntervalCases
import Mise.Net.Buffer
import Mise.Net.Orbit
import Mise.Net.Utf8

set_option autoImplicit true

namespace Mise.Net
open Js

/-- One round of the loop at `p`: what it adds to `parts`, and the next `p`. -/
def chunk (body : Bytes) (p : Int) : Option (Bytes × Int) :=
  match indexOf crlf body p with
  | none => none
  | some nl =>
    match parseHex (latin1 (subarray body p nl)) with
    | none => none
    | some n => if n = 0 then none else some (subarray body (nl + 2) (nl + 2 + n), nl + 2 + n + 2)

/-- The decoding loop, for at most as many rounds as the fuel allows. -/
def unchunk (body : Bytes) : Nat → Int → Bytes → Option Bytes
  | 0, _, _ => none
  | fuel + 1, p, parts =>
    match chunk body p with
    | none => some parts
    | some (part, p') => unchunk body fuel p' (parts ++ part)

section Replies

def lowered (s : Text) : Text := s.map Char.toLower

/-- `/transfer-encoding:\s*chunked/i`, at the front. -/
def isChunked (s : Text) : Bool :=
  lowered (s.take 18) = "transfer-encoding:".toList &&
    lowered (((s.drop 18).dropWhile isSpace).take 7) = "chunked".toList

def chunkedHead (head : Text) : Bool := head.tails.any isChunked

/-- What `/^HTTP\/1\.[01] (\d{3})/` captures. -/
def statusText : Text → Option Text
  | 'H' :: 'T' :: 'T' :: 'P' :: '/' :: '1' :: '.' :: v :: ' ' :: a :: b :: c :: _ =>
    if (v = '0' ∨ v = '1') ∧ a.isDigit ∧ b.isDigit ∧ c.isDigit then some [a, b, c] else none
  | _ => none

/-- The end of the head of a reply. -/
def headEnd (all : Bytes) : Option Nat := indexOf (crlf ++ crlf) all 0

def headText (all : Bytes) (headEnd : Nat) : Text := latin1 (subarray all 0 headEnd)

def bodyOf (all : Bytes) (headEnd : Nat) : Bytes := subarray all (headEnd + 4) all.length

/-- The body as it is, or what the decoding loop makes of it. -/
def received (fuel : Nat) (head : Text) (body : Bytes) : Option Bytes :=
  if chunkedHead head then unchunk body fuel 0 [] else some body

/-- What `httpsGetOverTor` in `dns.ts` settles with once the connection closes. An answer of more than
`MAX_BODY` bytes, which it rejects while they come, is none of these. -/
def httpsGetOverTor (fuel : Nat) (all : Bytes) : Option (Except String Text) :=
  match headEnd all with
  | none => some (.error "malformed reply")
  | some e =>
    match statusText (headText all e) with
    | none => some (.error "malformed reply")
    | some status =>
      if status ≠ "200".toList then some (.error ("HTTP " ++ String.ofList status))
      else (received fuel (headText all e) (bodyOf all e)).map fun body => .ok (Utf8.decode body)

structure GithubReply where
  status : Nat
  location : Option Text
  bodyBuf : Bytes
  deriving DecidableEq

/-- What `/\r\nlocation:\s*([^\r\n]+)/i` captures at the front, with no white space at its ends. White
space alone is captured where nothing else follows. -/
def locationAt (s : Text) : Option Text :=
  if lowered (s.take 11) = "\r\nlocation:".toList then
    let value := (s.drop 11).dropWhile isSpace
    if value ≠ [] then some (trimmed (value.takeWhile fun c => c ≠ '\r' ∧ c ≠ '\n'))
    else if (s.drop 11).any fun c => c ≠ '\r' ∧ c ≠ '\n' then some []
    else none
  else none

/-- What `githubGet` in `updates.mjs` settles with once a connection closes. -/
def githubGet (fuel : Nat) (all : Bytes) : Option (Except String GithubReply) :=
  match headEnd all with
  | none => some (.error "malformed reply")
  | some e =>
    match statusText (headText all e) with
    | none => some (.error "malformed reply")
    | some status =>
      (received fuel (headText all e) (bodyOf all e)).map fun bodyBuf =>
        .ok { status := status.foldl (fun n c => 10 * n + (c.toNat - 48)) 0
              location := (headText all e).tails.findSome? locationAt
              bodyBuf }

end Replies

section Encoding

/-- A chunk as it is sent: the digits of its size, an extension, its data. -/
structure Chunk where
  digits : Bytes
  extension : Bytes
  data : Bytes

namespace Chunk

/-- The digits are those of the size, in either case and with any number of zeros before it, the
extension begins with a semicolon and stays on its line, and there is some data. -/
structure Standard (c : Chunk) : Prop where
  digits : ∀ b ∈ latin1 c.digits, (hexDigit b).isSome = true
  size : hexValue (latin1 c.digits) = c.data.length
  extension : c.extension = [] ∨ c.extension.head? = some 0x3b
  line : (13 : UInt8) ∉ c.extension
  data : c.data ≠ []

def encode (c : Chunk) : Bytes := c.digits ++ c.extension ++ crlf ++ c.data ++ crlf

end Chunk

/-- The last chunk is of size zero; trailers may follow it. -/
structure Ending where
  zeros : Bytes
  extension : Bytes
  trailers : Bytes

structure Ending.Standard (e : Ending) : Prop where
  zeros : e.zeros ≠ [] ∧ ∀ b ∈ e.zeros, b = 0x30
  extension : e.extension = [] ∨ e.extension.head? = some 0x3b
  line : (13 : UInt8) ∉ e.extension

def Ending.encode (e : Ending) : Bytes := e.zeros ++ e.extension ++ crlf ++ e.trailers

def encodeChunks (chunks : List Chunk) (e : Ending) : Bytes :=
  chunks.flatMap Chunk.encode ++ e.encode

end Encoding

section Loop

/-- The place that the size at a place leads to. -/
def leadsTo (body : Bytes) (s : Nat) : Option Nat := (chunk body s).map fun x => place body.length x.2

/-- No place is come to twice. -/
def NoReturn (body : Bytes) : Prop :=
  ∀ i j s, i < j → orbit (leadsTo body) 0 i = some s → orbit (leadsTo body) 0 j ≠ some s

/-- No size that is come to is below zero. -/
def NoNegative (body : Bytes) : Prop :=
  ∀ i s nl n, orbit (leadsTo body) 0 i = some s → indexOf crlf body s = some nl →
    parseHex (latin1 (subarray body s nl)) = some n → 0 ≤ n

def Ends (body : Bytes) : Prop := ∃ fuel, (unchunk body fuel 0 []).isSome = true

variable {body : Bytes}

theorem place_place (p : Int) : place body.length (place body.length p : Nat) = place body.length p :=
  place_nat _ _

theorem chunk_place (body : Bytes) (p : Int) : chunk body (place body.length p : Nat) = chunk body p := by
  have hindex : indexOf crlf body (place body.length p : Nat) = indexOf crlf body p := by
    rw [indexOf, indexOf, place_place]
  have hsub : ∀ b, subarray body (place body.length p : Nat) b = subarray body p b := by
    intro b
    rw [subarray, subarray, place_place]
  rw [chunk, chunk, hindex]
  cases indexOf crlf body p with
  | none => rfl
  | some nl =>
    dsimp only
    rw [hsub]

theorem unchunk_isSome (fuel : Nat) (p : Int) (parts : Bytes) :
    (unchunk body fuel p parts).isSome = true ↔
      orbit (leadsTo body) (place body.length p) fuel = none := by
  induction fuel generalizing p parts with
  | zero => simp [unchunk, orbit]
  | succ fuel ih =>
    rw [unchunk, orbit_succ, leadsTo, chunk_place]
    cases chunk body p with
    | none => simp
    | some x => exact ih x.2 _

theorem ends_iff_halts : Ends body ↔ Halts (leadsTo body) 0 := by
  rw [Ends, Halts]
  exact exists_congr fun fuel => unchunk_isSome fuel 0 []

theorem leadsTo_beyond {s : Nat} (h : body.length < s) : leadsTo body s = none := by
  rw [leadsTo, chunk, indexOf, place_nat, if_pos h]
  rfl

/-- The loop ends exactly if it comes to no place twice. -/
theorem ends_iff (body : Bytes) : Ends body ↔ NoReturn body := by
  rw [ends_iff_halts]
  exact halts_iff (fun s h => leadsTo_beyond h) 0

theorem leadsTo_some {s t : Nat} (h : leadsTo body s = some t) : ∃ nl n,
    indexOf crlf body s = some nl ∧ parseHex (latin1 (subarray body s nl)) = some n ∧
      t = place body.length (nl + 2 + n + 2) := by
  rw [leadsTo, chunk] at h
  cases hnl : indexOf crlf body s with
  | none => rw [hnl] at h; exact absurd h (by simp)
  | some nl =>
    rw [hnl] at h
    dsimp only at h
    cases hn : parseHex (latin1 (subarray body s nl)) with
    | none => rw [hn] at h; exact absurd h (by simp)
    | some n =>
      rw [hn] at h
      dsimp only at h
      split at h
      · exact absurd h (by simp)
      · exact ⟨nl, n, rfl, hn, (Option.some.inj h).symm⟩

theorem ends_of_noNegative (h : NoNegative body) : Ends body := by
  rw [ends_iff_halts]
  apply halts_of_lt (N := body.length) fun s hs => leadsTo_beyond hs
  intro i s t hi hs
  obtain ⟨nl, n, hnl, hn, rfl⟩ := leadsTo_some hs
  have hpos := h i s nl n hi hnl hn
  have hle := (indexOf_bounds hnl).1
  rw [place_nat] at hle
  rw [place, if_neg (by omega)]
  omega

end Loop

section Sizes

theorem hexDigit_range {c : Char} (h : (hexDigit c).isSome = true) : (48 ≤ c.toNat ∧ c.toNat ≤ 57) ∨
    (65 ≤ c.toNat ∧ c.toNat ≤ 70) ∨ (97 ≤ c.toNat ∧ c.toNat ≤ 102) := by
  rw [hexDigit] at h
  split at h
  · next hd =>
    simp only [Char.isDigit, Bool.and_eq_true, decide_eq_true_eq] at hd
    exact .inl ⟨hd.1, hd.2⟩
  · split at h
    · next hl => exact .inr (.inr hl)
    · split at h
      · next hu => exact .inr (.inl hu)
      · exact absurd h (by decide)

theorem hexDigit_facts {c : Char} (h : (hexDigit c).isSome = true) :
    isSpace c = false ∧ c ≠ '-' ∧ c ≠ '+' ∧ c ≠ 'x' ∧ c ≠ 'X' ∧ c ≠ '\r' := by
  have hrange := hexDigit_range h
  have hc : Char.ofNat c.toNat = c := Char.ofNat_toNat c
  generalize c.toNat = n at hrange hc
  subst hc
  obtain ⟨hlo, hhi⟩ | ⟨hlo, hhi⟩ | ⟨hlo, hhi⟩ := hrange <;> interval_cases n <;> decide

/-- What does not begin with a digit and is no prefix of a number. -/
def StopsHex (s : Text) : Prop := ∀ c ∈ s.head?, hexDigit c = none ∧ c ≠ 'x' ∧ c ≠ 'X'

variable {digits rest : Text}

theorem unprefixed_of_ne {s : Text} (h : ∀ c ∈ s[1]?, c ≠ 'x' ∧ c ≠ 'X') : unprefixed s = s := by
  unfold unprefixed
  split
  · exact absurd rfl (h 'x' rfl).1
  · exact absurd rfl (h 'X' rfl).2
  · rfl

theorem hexValue_append (hdigits : ∀ c ∈ digits, (hexDigit c).isSome = true) (hrest : StopsHex rest) :
    hexValue (digits ++ rest) = hexValue digits := by
  have hnone : rest.takeWhile (fun c => (hexDigit c).isSome) = [] := by
    cases rest with
    | nil => rfl
    | cons c rest =>
      apply List.takeWhile_cons_of_neg
      rw [(hrest c rfl).1]
      decide
  rw [hexValue, hexValue, List.takeWhile_append_of_pos hdigits, hnone, List.append_nil,
    List.takeWhile_eq_self_iff.2 hdigits]

theorem parseHex_digits (hne : digits ≠ []) (hdigits : ∀ c ∈ digits, (hexDigit c).isSome = true)
    (hrest : StopsHex rest) : parseHex (digits ++ rest) = some (hexValue digits) := by
  obtain ⟨d, ds, rfl⟩ := List.exists_cons_of_ne_nil hne
  have hd := hdigits d List.mem_cons_self
  obtain ⟨hspace, hminus, hplus, -⟩ := hexDigit_facts hd
  have htrim : trimStart (d :: ds ++ rest) = d :: ds ++ rest := by
    rw [trimStart, List.cons_append, List.dropWhile_cons_of_neg (by rw [hspace]; decide)]
  have hsigned : signed (d :: ds ++ rest) = (false, d :: ds ++ rest) := by
    unfold signed
    split
    · next h => exact absurd (List.cons.inj h).1 hminus
    · next h => exact absurd (List.cons.inj h).1 hplus
    · rfl
  have hpre : unprefixed (d :: ds ++ rest) = d :: ds ++ rest := by
    apply unprefixed_of_ne
    intro c hc
    cases ds with
    | nil =>
      cases rest with
      | nil => exact absurd hc (by simp)
      | cons r rest =>
        obtain rfl : r = c := Option.some.inj hc
        exact (hrest r rfl).2
    | cons d' ds =>
      obtain rfl : d' = c := Option.some.inj hc
      have hfacts := hexDigit_facts (hdigits d' (List.mem_cons_of_mem _ List.mem_cons_self))
      exact ⟨hfacts.2.2.2.1, hfacts.2.2.2.2.1⟩
  have hhead : ¬ ((d :: ds ++ rest).head?.bind hexDigit).isNone = true := by
    rw [List.cons_append, List.head?_cons, Option.bind_some]
    cases hh : hexDigit d with
    | none => rw [hh] at hd; exact absurd hd (by decide)
    | some v => simp
  rw [parseHex, htrim, hsigned]
  dsimp only
  rw [hpre, if_neg hhead, hexValue_append hdigits hrest]
  rfl

end Sizes

section RoundTrip

variable {c : Chunk} {e : Ending} {body post parts : Bytes}

theorem latin1_append (a b : Bytes) : latin1 (a ++ b) = latin1 a ++ latin1 b := List.map_append

theorem stops_extension {extension : Bytes} (h : extension = [] ∨ extension.head? = some 0x3b) :
    StopsHex (latin1 extension) := by
  intro c hc
  rw [latin1, List.head?_map] at hc
  obtain rfl | h := h
  · exact absurd hc (by simp)
  · rw [h] at hc
    obtain rfl : Char.ofNat (0x3b : UInt8).toNat = c := Option.some.inj hc
    decide

theorem no_return {digits : Bytes} (h : ∀ b ∈ latin1 digits, (hexDigit b).isSome = true) :
    (13 : UInt8) ∉ digits := by
  intro hmem
  have hd := h _ (List.mem_map_of_mem hmem)
  exact absurd hd (by decide)

theorem size_line {digits extension : Bytes} (hne : digits ≠ [])
    (hdigits : ∀ b ∈ latin1 digits, (hexDigit b).isSome = true)
    (hextension : extension = [] ∨ extension.head? = some 0x3b) (hline : (13 : UInt8) ∉ extension)
    (h : body.drop n = digits ++ extension ++ crlf ++ post) :
    indexOf crlf body n = some (n + (digits ++ extension).length) ∧
      parseHex (latin1 (subarray body n (n + (digits ++ extension).length : Nat))) =
        some (hexValue (latin1 digits)) := by
  have hreturn : (13 : UInt8) ∉ digits ++ extension := by
    intro hmem
    obtain hmem | hmem := List.mem_append.1 hmem
    · exact no_return hdigits hmem
    · exact hline hmem
  refine ⟨indexOf_crlf hreturn h, ?_⟩
  rw [List.append_assoc] at h
  rw [subarray_nat h, latin1_append]
  apply parseHex_digits _ hdigits (stops_extension hextension)
  simpa [latin1] using hne

theorem chunk_standard (hc : c.Standard) (h : body.drop n = c.encode ++ post) :
    chunk body n = some (c.data, ((n + c.encode.length : Nat) : Int)) := by
  have hne : c.digits ≠ [] := by
    intro hnil
    have hsize := hc.size
    rw [hnil] at hsize
    exact hc.data (List.length_eq_zero_iff.1 hsize.symm)
  have hline : body.drop n = c.digits ++ c.extension ++ crlf ++ (c.data ++ (crlf ++ post)) := by
    rw [h, Chunk.encode]
    simp only [List.append_assoc]
  obtain ⟨hnl, hsize⟩ := size_line hne hc.digits hc.extension hc.line hline
  have hpos : ((c.data.length : Nat) : Int) ≠ 0 := by
    have := List.length_pos_of_ne_nil hc.data
    omega
  have hdata : body.drop (n + (c.digits ++ c.extension).length + 2) = c.data ++ (crlf ++ post) := by
    have hdrop : (c.digits ++ c.extension ++ crlf).length = (c.digits ++ c.extension).length + 2 :=
      List.length_append
    rw [Nat.add_assoc, ← hdrop, ← List.drop_drop, hline, List.drop_left]
  rw [chunk, hnl]
  dsimp only
  rw [hsize, hc.size]
  refine (if_neg hpos).trans ?_
  have hstart : ((n + (c.digits ++ c.extension).length : Nat) : Int) + 2 =
      ((n + (c.digits ++ c.extension).length + 2 : Nat) : Int) := rfl
  have hend : ((n + (c.digits ++ c.extension).length : Nat) : Int) + 2 + (c.data.length : Nat) =
      ((n + (c.digits ++ c.extension).length + 2 + c.data.length : Nat) : Int) := rfl
  rw [hend, hstart, subarray_nat hdata]
  congr 2
  rw [Chunk.encode]
  simp only [List.length_append, crlf, List.length_cons, List.length_nil]
  omega

theorem hexValue_zeros {zeros : Bytes} (h : ∀ b ∈ zeros, b = 0x30) : hexValue (latin1 zeros) = 0 := by
  induction zeros with
  | nil => rfl
  | cons z zeros ih =>
    have hz : latin1 (z :: zeros) = '0' :: latin1 zeros := by
      rw [h z List.mem_cons_self]
      rfl
    have hzero : hexValue ('0' :: latin1 zeros) = hexValue (latin1 zeros) := rfl
    rw [hz, hzero, ih fun b hb => h b (List.mem_cons_of_mem _ hb)]

theorem chunk_ending (he : e.Standard) (h : body.drop n = e.encode) : chunk body n = none := by
  have hdigits : ∀ b ∈ latin1 e.zeros, (hexDigit b).isSome = true := by
    intro b hb
    obtain ⟨z, hz, rfl⟩ := List.mem_map.1 hb
    rw [he.zeros.2 z hz]
    decide
  obtain ⟨hnl, hsize⟩ := size_line he.zeros.1 hdigits he.extension he.line h
  rw [chunk, hnl]
  dsimp only
  rw [hsize, hexValue_zeros he.zeros.2]
  rfl

theorem unchunk_encoded {chunks : List Chunk} (n : Nat) (parts : List UInt8)
    (hchunks : ∀ c ∈ chunks, c.Standard) (he : e.Standard)
    (h : body.drop n = encodeChunks chunks e) (hfuel : chunks.length < fuel) :
    unchunk body fuel n parts = some (parts ++ chunks.flatMap Chunk.data) := by
  induction chunks generalizing n fuel parts with
  | nil =>
    obtain ⟨fuel, rfl⟩ : ∃ k, fuel = k + 1 := ⟨fuel - 1, by simp at hfuel; omega⟩
    rw [unchunk, chunk_ending he h]
    simp
  | cons c chunks ih =>
    obtain ⟨fuel, rfl⟩ : ∃ k, fuel = k + 1 := ⟨fuel - 1, by simp at hfuel; omega⟩
    rw [encodeChunks, List.flatMap_cons, List.append_assoc] at h
    have hrest : body.drop (n + c.encode.length) = encodeChunks chunks e := by
      rw [← List.drop_drop, h, List.drop_left]
      rfl
    rw [unchunk, chunk_standard (hchunks c List.mem_cons_self) h]
    dsimp only
    rw [ih _ _ (fun c' hc' => hchunks c' (List.mem_cons_of_mem _ hc')) hrest (by simp at hfuel; omega),
      List.flatMap_cons, List.append_assoc]

end RoundTrip

section Readers

/-- The reply is whole up to its body, which it says is chunked. -/
structure ChunkedReply (all : Bytes) (headLength : Nat) : Prop where
  head : headEnd all = some headLength
  status : statusText (headText all headLength) = some "200".toList
  chunked : chunkedHead (headText all headLength) = true

/-- The reader settles, after a finite number of rounds. -/
def Settles (reader : Nat → Bytes → Option β) (all : Bytes) : Prop :=
  ∃ fuel, (reader fuel all).isSome = true

variable {all : Bytes} {n : Nat}

theorem ChunkedReply.dns (h : ChunkedReply all n) (fuel : Nat) : httpsGetOverTor fuel all =
    (unchunk (bodyOf all n) fuel 0 []).map fun body => .ok (Utf8.decode body) := by
  rw [httpsGetOverTor, h.head]
  dsimp only
  rw [h.status]
  dsimp only
  rw [if_neg (not_not_intro rfl), received, if_pos h.chunked]

theorem ChunkedReply.github (h : ChunkedReply all n) (fuel : Nat) : githubGet fuel all =
    (unchunk (bodyOf all n) fuel 0 []).map fun bodyBuf =>
      .ok ⟨200, (headText all n).tails.findSome? locationAt, bodyBuf⟩ := by
  rw [githubGet, h.head]
  dsimp only
  rw [h.status]
  dsimp only
  rw [received, if_pos h.chunked]
  rfl

theorem ChunkedReply.settles (h : ChunkedReply all n) :
    (Settles httpsGetOverTor all ↔ Ends (bodyOf all n)) ∧
      (Settles githubGet all ↔ Ends (bodyOf all n)) := by
  constructor
  · apply exists_congr
    intro fuel
    rw [h.dns, Option.isSome_map]
  · apply exists_congr
    intro fuel
    rw [h.github, Option.isSome_map]

end Readers

/-- On a chunked reply, both readers settle exactly if the decoding loop comes to no place of the
body twice, as it never does while no size is below zero; and a body that was sent in standard
chunks is given back as it was. -/
theorem chunked_settles_iff (h : ChunkedReply all n) :
    (Settles httpsGetOverTor all ↔ NoReturn (bodyOf all n)) ∧
      (Settles githubGet all ↔ NoReturn (bodyOf all n)) ∧
      (NoNegative (bodyOf all n) → NoReturn (bodyOf all n)) ∧
      ∀ chunks e, (∀ c ∈ chunks, Chunk.Standard c) → Ending.Standard e →
        bodyOf all n = encodeChunks chunks e → ∃ fuel,
          httpsGetOverTor fuel all = some (.ok (Utf8.decode (chunks.flatMap Chunk.data))) ∧
          githubGet fuel all = some (.ok ⟨200, (headText all n).tails.findSome? locationAt,
            chunks.flatMap Chunk.data⟩) := by
  refine ⟨h.settles.1.trans (ends_iff _), h.settles.2.trans (ends_iff _), ?_, ?_⟩
  · intro hsizes
    exact (ends_iff _).1 (ends_of_noNegative hsizes)
  · intro chunks e hchunks he hbody
    have hdecode := unchunk_encoded 0 [] hchunks he hbody (Nat.lt_succ_self _)
    refine ⟨chunks.length + 1, ?_, ?_⟩
    · rw [h.dns]
      exact congrArg _ hdecode
    · rw [h.github]
      exact congrArg _ hdecode

section Sample

def ascii (s : String) : Bytes := s.toList.map fun c => UInt8.ofNat c.toNat

def sampleHead : String := "HTTP/1.1 200 OK\r\nTransfer-Encoding: chunked\r\n\r\n"

/-- A size below zero that leads back to itself. -/
theorem chunked_never_settles : ¬ Settles httpsGetOverTor (ascii (sampleHead ++ "-6\r\n")) ∧
    ¬ Settles githubGet (ascii (sampleHead ++ "-6\r\n")) := by
  have hreply : ChunkedReply (ascii (sampleHead ++ "-6\r\n")) 43 :=
    ⟨by decide +kernel, by decide +kernel, by decide +kernel⟩
  have hback : orbit (leadsTo (bodyOf (ascii (sampleHead ++ "-6\r\n")) 43)) 0 1 = some 0 := by
    decide +kernel
  have hnever : ¬ Ends (bodyOf (ascii (sampleHead ++ "-6\r\n")) 43) := by
    intro hends
    exact (ends_iff _).1 hends 0 1 0 Nat.zero_lt_one rfl hback
  exact ⟨fun h => hnever (hreply.settles.1.1 h), fun h => hnever (hreply.settles.2.1 h)⟩

/-- Three bytes in one chunk. -/
theorem chunked_settles_iff_abc : ∃ fuel, httpsGetOverTor fuel
    (ascii (sampleHead ++ "03;q\r\nabc\r\n0\r\n\r\n")) = some (.ok "abc".toList) := by
  have h := @chunked_settles_iff (ascii (sampleHead ++ "03;q\r\nabc\r\n0\r\n\r\n")) 43
    ⟨by decide +kernel, by decide +kernel, by decide +kernel⟩
  have hdigits : ∀ b ∈ latin1 (ascii "03"), (hexDigit b).isSome = true :=
    List.all_eq_true.1 (by decide +kernel)
  obtain ⟨fuel, hdns, -⟩ := h.2.2.2 [⟨ascii "03", ascii ";q", ascii "abc"⟩] ⟨ascii "0", [], ascii "\r\n"⟩
    (List.forall_mem_singleton.2
      ⟨hdigits, by decide +kernel, by decide +kernel, by decide +kernel, by decide +kernel⟩)
    ⟨by decide +kernel, by decide +kernel, by decide +kernel⟩ (by decide +kernel)
  exact ⟨fuel, hdns.trans (by decide +kernel)⟩

end Sample

end Mise.Net
