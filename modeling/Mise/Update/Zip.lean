import Mise.Update.Bytes

set_option autoImplicit true

namespace Mise.Update

open Bytes

inductive InflateError where
  | tooLarge
  | corrupt
  deriving DecidableEq

/-- Why an archive is not read. -/
inductive ArchiveFault where
  | refused (message : String)
  /-- A number would lie outside of the buffer. -/
  | outOfRange
  | corrupt
  deriving DecidableEq

/-- How names are encoded as UTF-8, and raw deflate. -/
structure ZipRuntime where
  encode : String → List UInt8
  decode : List UInt8 → String
  deflateRaw : List UInt8 → List UInt8
  /-- Of the data and the most that it may inflate to. -/
  inflateRaw : List UInt8 → Nat → Except InflateError (List UInt8)

/-- A local time, as `Date` gives it. -/
structure ModifiedAt where
  fullYear : Int := 1980
  month : Int := 0
  date : Int := 1
  hours : Int := 0
  minutes : Int := 0
  seconds : Int := 0

structure ZipEntry where
  name : String
  data : List UInt8
  mtime : ModifiedAt := {}
  mode : Nat := 0o644

/-- What is read of an archive, or staged of it: a name, and the content. -/
abbrev ArchiveFile := String × List UInt8

section Checksum

def crcStep (c : UInt32) : UInt32 :=
  if c &&& 1 = 1 then (0xedb88320 : UInt32) ^^^ (c >>> 1) else c >>> 1

/-- `CRC_TABLE[n]` -/
def crcTable (n : UInt32) : UInt32 :=
  crcStep (crcStep (crcStep (crcStep (crcStep (crcStep (crcStep (crcStep n)))))))

def crc32 (buf : List UInt8) : UInt32 :=
  buf.foldl (fun c b => crcTable ((c ^^^ b.toUInt32) &&& 0xff) ^^^ (c >>> 8)) 0xffffffff ^^^ (0xffffffff : UInt32)

example : crc32 [97] = 0xe8b7be43 := by decide +kernel

end Checksum

def dosTime (d : ModifiedAt) : Nat :=
  ((d.hours * 2 ^ 11 + d.minutes * 2 ^ 5 + d.seconds / 2) % 0x10000).toNat

def dosDate (d : ModifiedAt) : Nat :=
  (((d.fullYear - 1980) * 2 ^ 9 + (d.month + 1) * 2 ^ 5 + d.date) % 0x10000).toNat

section Write

variable (R : ZipRuntime)

/-- The data as it is stored, and by which method. -/
def packed (data : List UInt8) : List UInt8 × Nat :=
  let deflated := R.deflateRaw data
  if deflated.length < data.length then (deflated, 8) else (data, 0)

/-- The fields that both headers have. -/
def common (e : ZipEntry) : List (Nat × Nat) :=
  let body := packed R e.data
  [(2, 20), (2, 0x0800), (2, body.2), (2, dosTime e.mtime), (2, dosDate e.mtime),
    (4, (crc32 e.data).toNat), (4, body.1.length), (4, e.data.length),
    (2, (R.encode e.name).length), (2, 0)]

def localFields (e : ZipEntry) : List (Nat × Nat) := (4, 0x04034b50) :: common R e

def localEntry (e : ZipEntry) : List UInt8 :=
  record (localFields R e) ++ R.encode e.name ++ (packed R e.data).1

def centralFields (e : ZipEntry) (offset : Nat) : List (Nat × Nat) :=
  (4, 0x02014b50) :: (2, (3 <<< 8) ||| 20) :: common R e ++
    [(2, 0), (2, 0), (2, 0), (4, (0o100000 ||| e.mode) * 0x10000), (4, offset)]

def centralEntry (e : ZipEntry) (offset : Nat) : List UInt8 :=
  record (centralFields R e offset) ++ R.encode e.name

/-- The local entries from an offset on, and the central entries that go with them. -/
def writeEntries : List ZipEntry → Nat → List UInt8 × List UInt8
  | [], _ => ([], [])
  | e :: entries, offset =>
    let (locals, centrals) := writeEntries entries (offset + (localEntry R e).length)
    (localEntry R e ++ locals, centralEntry R e offset ++ centrals)

def endFields (count cdLength offset : Nat) : List (Nat × Nat) :=
  [(4, 0x06054b50), (2, 0), (2, 0), (2, count), (2, count), (4, cdLength), (4, offset), (2, 0)]

def buildZip (entries : List ZipEntry) : List UInt8 :=
  let (locals, cd) := writeEntries R entries 0
  locals ++ cd ++ record (endFields entries.length cd.length locals.length)

end Write

section Read

def maxInflatedBytes : Nat := 32 * 1024 * 1024

def maxEntries : Nat := 2000

def readWord (w : Nat) (buf : List UInt8) (off : Nat) : Except ArchiveFault Nat :=
  match readAt w buf off with
  | some n => .ok n
  | none => .error .outOfRange

/-- Where the last end record of the buffer begins. -/
def findEnd (buf : List UInt8) : Option Nat :=
  (List.range (buf.length - 21)).reverse.find? fun i => readAt 4 buf i = some 0x06054b50

def pastLimit (name : String) : ArchiveFault :=
  .refused ("archive inflates past the " ++ toString maxInflatedBytes ++ " byte limit at entry " ++ name)

variable (R : ZipRuntime)

/-- The data of an entry, against what is left of the allowance. -/
def inflated (name : String) (method : Nat) (comp : List UInt8) (remaining : Nat) :
    Except ArchiveFault (List UInt8) :=
  if method = 8 then
    match R.inflateRaw comp remaining with
    | .ok data => .ok data
    | .error .tooLarge => .error (pastLimit name)
    | .error .corrupt => .error .corrupt
  else if remaining < comp.length then .error (pastLimit name)
  else .ok comp

/-- The next `count` entries of the central directory, of which the first begins at `off`. -/
def readEntries (buf : List UInt8) : Nat → Nat → Nat → Except ArchiveFault (List ArchiveFile)
  | 0, _, _ => .ok []
  | count + 1, off, used => do
    if (← readWord 4 buf off) ≠ 0x02014b50 then throw (.refused "bad central directory")
    let method ← readWord 2 buf (off + 10)
    let compSize ← readWord 4 buf (off + 20)
    let nameLen ← readWord 2 buf (off + 28)
    let extraLen ← readWord 2 buf (off + 30)
    let commentLen ← readWord 2 buf (off + 32)
    let lho ← readWord 4 buf (off + 42)
    let name := R.decode (subarray buf (off + 46) (off + 46 + nameLen))
    let lnameLen ← readWord 2 buf (lho + 26)
    let lextraLen ← readWord 2 buf (lho + 28)
    let dataStart := lho + 30 + lnameLen + lextraLen
    let comp := subarray buf dataStart (dataStart + compSize)
    let data ← inflated R name method comp (maxInflatedBytes - used)
    let files ← readEntries buf count (off + 46 + nameLen + extraLen + commentLen)
      (used + data.length)
    return (name, data) :: files

def unzip (buf : List UInt8) : Except ArchiveFault (List ArchiveFile) := do
  match findEnd buf with
  | none => throw (.refused "not a zip (no EOCD)")
  | some eocd =>
    let count ← readWord 2 buf (eocd + 10)
    let off ← readWord 4 buf (eocd + 16)
    if maxEntries < count then
      throw (.refused ("archive declares " ++ toString count ++ " entries, more than the " ++
        toString maxEntries ++ " allowed"))
    readEntries R buf count off 0

end Read

end Mise.Update
