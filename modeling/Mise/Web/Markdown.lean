import Mise.Js.Replace

set_option autoImplicit true

namespace Mise.Markdown
open Js

/-- The five characters with the text that `escapeHtml` gives for them. -/
def entities : List (Char × Text) :=
  [('&', "&amp;".toList), ('<', "&lt;".toList), ('>', "&gt;".toList), ('\x22', "&quot;".toList),
    ('\x27', "&#39;".toList)]

def escapeChar (c : Char) : Text := (entities.lookup c).getD [c]

def escapeHtml (s : Text) : Text := s.flatMap escapeChar

/-- `u.replace(/[\u0000-\u0020]/g, "")` -/
def cleaned (u : Text) : Text := u.filter fun c => 0x20 < c.toNat

def schemeChar (c : Char) : Bool := c.isAlphanum || c = '+' || c = '.' || c = '-'

/-- What `/^([a-zA-Z][a-zA-Z0-9+.-]*):/` captures. -/
def scheme (s : Text) : Option Text :=
  match s.takeWhile schemeChar, s.dropWhile schemeChar with
  | c :: name, ':' :: _ => if c.isAlpha then some (c :: name) else none
  | _, _ => none

def safeUrl (u : Text) : Option Text :=
  match scheme (cleaned u) with
  | none => if ['/', '/'] <+: cleaned u then none else some (cleaned u)
  | some name =>
    let lower := name.map Char.toLower
    if lower = "http".toList ∨ lower = "https".toList then some (cleaned u) else none

/-- /`([^`]+)`/ -/
def code : Pattern
  | '\x60' :: s =>
    match s.span (· ≠ '\x60') with
    | (c :: cs, '\x60' :: _) =>
      some ("<code>".toList ++ (c :: cs) ++ "</code>".toList, (c :: cs).length + 2)
    | _ => none
  | _ => none

/-- `/\*\*([^*]+)\*\*/` -/
def strong : Pattern
  | '*' :: '*' :: s =>
    match s.span (· ≠ '*') with
    | (c :: cs, '*' :: '*' :: _) =>
      some ("<strong>".toList ++ (c :: cs) ++ "</strong>".toList, (c :: cs).length + 4)
    | _ => none
  | _ => none

/-- The address and the text of a link as they are written. -/
def anchor (u t : Text) : Text :=
  "<a href=\x22".toList ++ u ++ "\x22 target=\x22_blank\x22 rel=\x22noopener\x22>".toList ++ t ++
    "</a>".toList

/-- `/\[([^\]]+)\]\(([^)\s]+)\)/` with what stands for the match. -/
def link : Pattern
  | '[' :: s =>
    match s.span (· ≠ ']') with
    | (t :: ts, ']' :: '(' :: s') =>
      match s'.span fun c => c ≠ ')' && !isSpace c with
      | (u :: us, ')' :: _) =>
        let whole := '[' :: (t :: ts) ++ ']' :: '(' :: (u :: us) ++ [')']
        some (if (safeUrl (u :: us)).any (· ≠ []) then anchor (u :: us) (t :: ts) else whole,
          whole.length)
      | _ => none
    | _ => none
  | _ => none

def inline (s : Text) : Text := replaceAll link (replaceAll strong (replaceAll code (escapeHtml s)))

section Lines

/-- `/\r\n/` -/
def crlf : Pattern
  | '\r' :: '\n' :: _ => some (['\n'], 2)
  | _ => none

def lines (md : Text) : List Text := (replaceAll crlf md).splitOn '\n'

/-- `block.join("\n")` -/
def joined (block : List Text) : Text := ['\n'].intercalate block

/-- `/^\s*$/` -/
def blank (line : Text) : Bool := line.all isSpace

/-- The line terminators, which `.` does not match. -/
def terminator (c : Char) : Bool := c = '\n' || c = '\r' || c = '\u2028' || c = '\u2029'

def hashes (line : Text) : Nat := (line.takeWhile (· = '#')).length

/-- What follows the number signs. -/
def title (line : Text) : Text := line.dropWhile (· = '#')

/-- `/^(#{1,6})\s/` -/
def headed (line : Text) : Bool :=
  1 ≤ hashes line && hashes line ≤ 6 && (title line).head?.any isSpace

/-- `line.match(/^(#{1,6})\s+(.*)$/)` -/
def heading (line : Text) : Option (Nat × Text) :=
  if 1 ≤ hashes line && hashes line ≤ 6 && (title line).head?.any isSpace &&
      !((title line).dropWhile isSpace).any terminator then
    some (hashes line, (title line).dropWhile isSpace)
  else none

/-- `/^\s*>/` -/
def quoted (line : Text) : Bool := (line.dropWhile isSpace).head? = some '>'

/-- `line.replace(/^\s*>\s?/, "")` -/
def unquote (line : Text) : Text :=
  match line.dropWhile isSpace with
  | '>' :: c :: s => if isSpace c then s else c :: s
  | '>' :: [] => []
  | _ => line

/-- `/^\s*[-*]\s+/` -/
def item (line : Text) : Bool :=
  match line.dropWhile isSpace with
  | b :: c :: _ => (b = '-' || b = '*') && isSpace c
  | _ => false

/-- `line.replace(/^\s*[-*]\s+/, "")` -/
def unitem (line : Text) : Text :=
  if item line then ((line.dropWhile isSpace).drop 1).dropWhile isSpace else line

/-- What keeps a paragraph going. -/
def plain (line : Text) : Bool := !blank line && !headed line && !quoted line && !item line

end Lines

/-- What one round of `render`'s loop reads. -/
inductive Block where
  | blank
  | heading (l : Nat) (text : Text)
  | quote (block : List Text)
  | list (items : List Text)
  | para (texts : List Text)

/-- One round: what it reads at the line, and the lines that it leaves. -/
def round (line : Text) (rest : List Text) : Block × List Text :=
  if blank line then (.blank, rest)
  else match heading line with
  | some (l, text) => (.heading l text, rest)
  | none =>
    if quoted line then
      (.quote (((line :: rest).takeWhile quoted).map unquote), (line :: rest).dropWhile quoted)
    else if item line then
      (.list (((line :: rest).takeWhile item).map unitem), (line :: rest).dropWhile item)
    else (.para (((line :: rest).takeWhile plain).map trimmed), (line :: rest).dropWhile plain)

/-- What a block adds to `html`, with `render` for the body of a quotation. -/
def Block.html (render : Text → Option Text) : Block → Option Text
  | .blank => some []
  | .heading l text =>
    let h := 'h' :: Nat.toDigits 10 l
    some ('<' :: h ++ '>' :: inline (trimmed text) ++ "</".toList ++ h ++ ['>'])
  | .quote block =>
    (render (joined block)).map fun html =>
      "<blockquote>".toList ++ html ++ "</blockquote>".toList
  | .list items =>
    some ("<ul>".toList ++ items.flatMap (fun i => "<li>".toList ++ inline i ++ "</li>".toList) ++
      "</ul>".toList)
  | .para texts => some ("<p>".toList ++ inline ([' '].intercalate texts) ++ "</p>".toList)

/-- The loop, for at most `n` rounds. -/
def loop (render : Text → Option Text) : Nat → List Text → Text → Option Text
  | 0, _, _ => none
  | _ + 1, [], html => some html
  | n + 1, line :: rest, html => do
    let more ← (round line rest).1.html render
    loop render n (round line rest).2 (html ++ more)

/-- `render`, which has given nothing yet when the fuel runs out. -/
def render : Nat → Text → Option Text
  | 0, _ => none
  | n + 1, md => loop (render n) n (lines md) []

end Mise.Markdown
