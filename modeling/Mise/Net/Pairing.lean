import Mise.Net.Socks
import Mise.Server.Serve

set_option autoImplicit true

namespace Mise.Net.Socks

open Js Server

/-- What the URL parser makes of a URL; its port is empty where it is the one of the protocol. -/
structure Url where
  protocol : Text
  hostname : Text
  port : Option UInt16

def Url.isPlainOnion (x : Url) : Bool :=
  x.protocol = "http:".toList && ".onion".toList.isSuffixOf x.hostname

def isPlainOnionUrl (newUrl : Option Json → Option Url) (u : Option Json) : Bool :=
  (newUrl u).any Url.isPlainOnion

/-- The port that a probe connects to. -/
def Url.dialled (u : Url) : Nat := (u.port.map UInt16.toNat).getD 80

theorem Url.dialled_lt (u : Url) : u.dialled < 65536 := by
  rw [Url.dialled]
  cases u.port with
  | none => decide
  | some p => exact p.toNat_lt

/-- A connection through the proxy is to the host of a URL, and does what the bytes of the proxy say,
exactly where the length of the host fits a byte and nothing arrives after the reply before the
caller listens. -/
theorem socks5Connect_iff (u : Url) (bs : Bytes) :
    Asks u.hostname u.dialled ∧ OnlyBytes u.hostname u.dialled bs ↔
      (Utf8.encode u.hostname).length ≤ 255 ∧
        ∀ r rest, Granted r → bs = 0x05 :: 0x00 :: (r ++ rest) → rest = [] := by
  rw [asks_iff _ u.dialled_lt, onlyBytes_iff]

/-- The URL parser, of a plain URL without a port. -/
def plainUrl : Option Json → Option Url
  | some (.str s) =>
    if "http://".toList.isPrefixOf s.toList then
      some ⟨"http:".toList, (s.toList.drop 7).takeWhile (· ≠ '/'), none⟩
    else none
  | _ => none

def onionOf (n : Nat) : Text := List.replicate n 'a' ++ ".onion".toList

def urlOf (host : Text) : Json :=
  .str (String.ofList ("http://".toList ++ host ++ "/v2".toList))

def pairingOf (host : Text) : Json :=
  .obj [("pairing", .obj [("type", .str "dojo.api"), ("url", urlOf host)])]

def longUrl : Url := ⟨"http:".toList, onionOf 300, none⟩

/-- Gates that read the URLs of a submission as the server does. -/
def onionGates : Gates :=
  { Gates.lenient with isPlainOnionUrl := isPlainOnionUrl plainUrl }

def grantedReply : Bytes := [5, 0, 0, 1, 0, 0, 0, 0, 0, 0]

theorem plainUrl_plain (h : '/' ∉ host) :
    plainUrl (some (.str (String.ofList ("http://".toList ++ host ++ "/v2".toList)))) =
      some ⟨"http:".toList, host, none⟩ := by
  have hscheme : "http://".toList.isPrefixOf ("http://".toList ++ (host ++ "/v2".toList)) :=
    List.isPrefixOf_iff_prefix.2 (List.prefix_append _ _)
  have hhost : ∀ c ∈ host, decide (c ≠ '/') = true := fun c hc =>
    decide_eq_true fun hslash => h (hslash ▸ hc)
  have htext : (String.ofList ("http://".toList ++ host ++ "/v2".toList)).toList =
      "http://".toList ++ (host ++ "/v2".toList) := by
    rw [String.toList_ofList, List.append_assoc]
  rw [plainUrl, htext, if_pos hscheme]
  show some (Url.mk _ ((host ++ '/' :: "v2".toList).takeWhile _) none) = _
  rw [List.takeWhile_append_of_pos hhost, List.takeWhile_cons_of_neg (by decide), List.append_nil]

theorem urlOf_truthy (host : Text) : (urlOf host).truthy = true := by
  rw [urlOf, Json.truthy, bne_iff_ne]
  intro h
  have hlist := congrArg String.toList h
  rw [String.toList_ofList] at hlist
  cases hlist

theorem validatePayload_pairing {g : Gates} {url : Json} (honion : g.isPlainOnionUrl (some url) = true)
    (htruthy : truthy (some url) = true) (hnetwork : g.pairingNetwork (some url) = some network) :
    g.validatePayload (some (.obj [("pairing", .obj [("type", .str "dojo.api"), ("url", url)])]))
      network = .ok none := by
  rw [Gates.validatePayload]
  show (if truthy (some url) = true then
    if g.isPlainOnionUrl (some url) = true then _ else _ else _) = _
  have hlookup : List.lookup "url" [("type", .str "dojo.api"), ("url", url)] = some url := rfl
  rw [if_pos htruthy, if_pos honion, hlookup, hnetwork]
  cases network <;> rfl

theorem accepted_onion (hslash : '/' ∉ host) (honion : ".onion".toList <:+ host) :
    onionGates.validatePayload (some (pairingOf host)) .mainnet = .ok none := by
  have hplain : isPlainOnionUrl plainUrl (some (urlOf host)) = true := by
    rw [isPlainOnionUrl, urlOf, plainUrl_plain hslash, Option.any_some, Url.isPlainOnion,
      Bool.and_eq_true]
    exact ⟨rfl, List.isSuffixOf_iff_suffix.2 honion⟩
  exact validatePayload_pairing hplain (urlOf_truthy host) rfl

theorem slash_onionOf (n : Nat) : '/' ∉ onionOf n := by
  rw [onionOf, List.mem_append]
  rintro (h | h)
  · exact absurd (List.eq_of_mem_replicate h) (by decide)
  · exact absurd h (by decide)

/-- A pairing is accepted whose host is longer than a request can say; and the byte that comes from
the host along with the reply of the proxy is lost. -/
theorem long_host_accepted :
    onionGates.validatePayload (some (pairingOf (onionOf 300))) .mainnet = .ok none ∧
    plainUrl (some (urlOf (onionOf 300))) = some longUrl ∧
    ¬ Asks longUrl.hostname longUrl.dialled ∧
    ¬ OnlyBytes longUrl.hostname longUrl.dialled (0x05 :: 0x00 :: (grantedReply ++ [72])) := by
  refine ⟨accepted_onion (slash_onionOf 300) (List.suffix_append _ _),
    plainUrl_plain (slash_onionOf 300), ?_, ?_⟩
  · rw [asks_iff _ longUrl.dialled_lt]
    decide +kernel
  · rw [onlyBytes_iff]
    intro h
    have hgranted : Granted grantedReply := ⟨5, 0, 1, [0, 0, 0, 0], [0, 0], rfl, rfl, rfl⟩
    exact absurd (h _ _ hgranted rfl) (List.cons_ne_nil _ _)

end Mise.Net.Socks
