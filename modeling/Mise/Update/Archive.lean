import Mathlib.Tactic.NormNum
import Mise.Js.Value
import Mise.Update.Zip

set_option autoImplicit true

namespace Mise.Update

open Bytes Js

/-- What a name has after its first slash. -/
def afterSlash (name : String) : Option String :=
  match name.toList.dropWhile (· ≠ '/') with
  | [] => none
  | _ :: rel => some (String.ofList rel)

def endsWith (s suf : String) : Bool := decide (suf.toList <:+ s.toList)

def unsafePath (rel : String) : Bool := includes rel ".." || startsWith rel "/"

/-- A directory, or the archive's own folder. -/
def isFolder (rel : String) : Bool := rel = "" || endsWith rel "/"

/-- What is spelled as the instance's data. -/
def spelledData (rel : String) : Bool := rel = "data" || startsWith rel "data/"

/-- The files of an archive below its one top-level folder. -/
def stripTopLevel : List ArchiveFile → Except ArchiveFault (List ArchiveFile)
  | [] => .ok []
  | f :: files =>
    match afterSlash f.1 with
    | none => stripTopLevel files                        -- a bare top-level entry
    | some rel =>
      if unsafePath rel then .error (.refused ("unsafe path in archive: " ++ f.1))
      else if isFolder rel || spelledData rel then stripTopLevel files
      else (stripTopLevel files).map ((rel, f.2) :: ·)

section RoundTrip

variable {R : ZipRuntime} {buf pre post : List UInt8}

/-- The entry fits the fields of the format, and comes out of the codecs as it went in. -/
structure ZipEntry.Fits (R : ZipRuntime) (e : ZipEntry) : Prop where
  name : (R.encode e.name).length < 65536
  decoded : R.decode (R.encode e.name) = e.name
  inflated : ∀ limit, 0 < limit → e.data.length ≤ limit →
    R.inflateRaw (R.deflateRaw e.data) limit = .ok e.data

def totalData (entries : List ZipEntry) : Nat := (entries.map fun e => e.data.length).sum

theorem length_packed (R : ZipRuntime) (data : List UInt8) : (packed R data).1.length ≤ data.length := by
  unfold packed
  dsimp only
  split
  · next h => exact Nat.le_of_lt h
  · exact Nat.le_refl _

theorem method_packed (R : ZipRuntime) (data : List UInt8) : (packed R data).2 < 256 ^ 2 := by
  unfold packed
  dsimp only
  split
  · exact (by decide : 8 < 256 ^ 2)
  · exact (by decide : 0 < 256 ^ 2)

/-- Whatever method an entry is stored by, its data are read back. -/
theorem inflated_packed {e : ZipEntry} (he : e.Fits R) (h : e.data.length ≤ remaining) :
    inflated R e.name (packed R e.data).2 (packed R e.data).1 remaining = .ok e.data := by
  unfold packed inflated
  dsimp only
  split
  · next hshort =>
    -- data that deflating makes shorter are not empty, so that the limit is a positive one
    have hpos : 0 < remaining := Nat.lt_of_lt_of_le (Nat.zero_lt_of_lt hshort) h
    rw [if_pos rfl, he.inflated remaining hpos h]
  · exact if_neg (Nat.not_lt.2 h)

theorem width_local (R : ZipRuntime) (e : ZipEntry) : width (localFields R e) = 30 := rfl

theorem width_central (R : ZipRuntime) (e : ZipEntry) (offset : Nat) :
    width (centralFields R e offset) = 46 := by
  simp [width, centralFields, common]

theorem length_local (R : ZipRuntime) (e : ZipEntry) : (localEntry R e).length =
    30 + (R.encode e.name).length + (packed R e.data).1.length := by
  rw [localEntry, List.length_append, List.length_append, length_record, width_local]

theorem length_locals {entries : List ZipEntry} (h : ∀ e ∈ entries, e.Fits R) (offset : Nat) :
    (writeEntries R entries offset).1.length ≤ entries.length * 65566 + totalData entries := by
  induction entries generalizing offset with
  | nil => exact Nat.zero_le _
  | cons e entries ih =>
    have hrest := ih (fun x hx => h x (List.mem_cons_of_mem e hx)) (offset + (localEntry R e).length)
    have hname := (h e List.mem_cons_self).name
    have hpacked := length_packed R e.data
    have htotal : totalData (e :: entries) = e.data.length + totalData entries := by
      rw [totalData, List.map_cons, List.sum_cons, ← totalData]
    have hlen := length_local R e
    rw [writeEntries, List.length_append, htotal, List.length_cons, Nat.succ_mul]
    omega

section Fields

variable {e : ZipEntry} {off offset w n k : Nat}

theorem readWord_central (h : buf.drop off = record (centralFields R e offset) ++ post) (i : Nat)
    (hi : (centralFields R e offset)[i]? = some (w, n))
    (hk : width ((centralFields R e offset).take i) = k) (hw : 0 < w) (hn : n < 256 ^ w) :
    readWord w buf (off + k) = .ok n := by
  rw [readWord, readAt_record h i hi hk hw hn]

theorem readWord_local (h : buf.drop off = record (localFields R e) ++ post) (i : Nat)
    (hi : (localFields R e)[i]? = some (w, n))
    (hk : width ((localFields R e).take i) = k) (hw : 0 < w) (hn : n < 256 ^ w) :
    readWord w buf (off + k) = .ok n := by
  rw [readWord, readAt_record h i hi hk hw hn]

theorem central_places (R : ZipRuntime) (e : ZipEntry) (offset : Nat) :
    width ((centralFields R e offset).take 4) = 10 ∧
    width ((centralFields R e offset).take 8) = 20 ∧
    width ((centralFields R e offset).take 10) = 28 ∧
    width ((centralFields R e offset).take 11) = 30 ∧
    width ((centralFields R e offset).take 12) = 32 ∧
    width ((centralFields R e offset).take 16) = 42 := by
  simp [width, centralFields, common]

theorem local_places (R : ZipRuntime) (e : ZipEntry) :
    width ((localFields R e).take 9) = 26 ∧ width ((localFields R e).take 10) = 28 := by
  simp [width, localFields, common]

/-- What the reader finds in a central entry. -/
structure ReadsCentral (R : ZipRuntime) (buf : List UInt8) (off offset : Nat) (e : ZipEntry) :
    Prop where
  signature : readWord 4 buf off = .ok 0x02014b50
  method : readWord 2 buf (off + 10) = .ok (packed R e.data).2
  compSize : readWord 4 buf (off + 20) = .ok (packed R e.data).1.length
  nameLen : readWord 2 buf (off + 28) = .ok (R.encode e.name).length
  extraLen : readWord 2 buf (off + 30) = .ok 0
  commentLen : readWord 2 buf (off + 32) = .ok 0
  offset : readWord 4 buf (off + 42) = .ok offset
  name : subarray buf (off + 46) (off + 46 + (R.encode e.name).length) = R.encode e.name

theorem readsCentral (h : buf.drop off = centralEntry R e offset ++ post) (he : e.Fits R)
    (hdata : e.data.length < 256 ^ 4) (hoffset : offset < 256 ^ 4) :
    ReadsCentral R buf off offset e := by
  rw [centralEntry, List.append_assoc] at h
  obtain ⟨h₁₀, h₂₀, h₂₈, h₃₀, h₃₂, h₄₂⟩ := central_places R e offset
  have hpacked := Nat.lt_of_le_of_lt (length_packed R e.data) hdata
  have hafter := drop_add h
  rw [length_record, width_central] at hafter
  exact {
    signature := readWord_central h 0 rfl rfl (by decide) (by decide)
    method := readWord_central h 4 rfl h₁₀ (by decide) (method_packed R e.data)
    compSize := readWord_central h 8 rfl h₂₀ (by decide) hpacked
    nameLen := readWord_central h 10 rfl h₂₈ (by decide) he.name
    extraLen := readWord_central h 11 rfl h₃₀ (by decide) (by decide)
    commentLen := readWord_central h 12 rfl h₃₂ (by decide) (by decide)
    offset := readWord_central h 16 rfl h₄₂ (by decide) hoffset
    name := subarray_of_drop hafter }

/-- What the reader finds in a local entry. -/
structure ReadsLocal (R : ZipRuntime) (buf : List UInt8) (offset : Nat) (e : ZipEntry) : Prop where
  nameLen : readWord 2 buf (offset + 26) = .ok (R.encode e.name).length
  extraLen : readWord 2 buf (offset + 28) = .ok 0
  body : subarray buf (offset + 30 + (R.encode e.name).length + 0)
    (offset + 30 + (R.encode e.name).length + 0 + (packed R e.data).1.length) = (packed R e.data).1

theorem readsLocal (h : buf.drop offset = localEntry R e ++ post) (he : e.Fits R) :
    ReadsLocal R buf offset e := by
  rw [localEntry, List.append_assoc, List.append_assoc] at h
  obtain ⟨h₂₆, h₂₈⟩ := local_places R e
  have hafter := drop_add h
  rw [length_record, width_local] at hafter
  exact {
    nameLen := readWord_local h 9 rfl h₂₆ (by decide) he.name
    extraLen := readWord_local h 10 rfl h₂₈ (by decide) (by decide)
    body := subarray_of_drop (drop_add hafter) }

end Fields

theorem readEntries_succ {e : ZipEntry} {off offset used count : Nat} {files : List ArchiveFile}
    (hc : ReadsCentral R buf off offset e) (hl : ReadsLocal R buf offset e) (he : e.Fits R)
    (hused : e.data.length ≤ maxInflatedBytes - used)
    (hrest : readEntries R buf count (off + (46 + (R.encode e.name).length))
      (used + e.data.length) = .ok files) :
    readEntries R buf (count + 1) off used = .ok ((e.name, e.data) :: files) := by
  have hinflated := inflated_packed he hused
  have hnext : off + 46 + (R.encode e.name).length + 0 + 0 = off + (46 + (R.encode e.name).length) := by
    omega
  rw [readEntries, hc.signature, hc.method, hc.compSize, hc.nameLen, hc.extraLen, hc.commentLen,
    hc.offset]
  dsimp only [bind, Except.bind, pure, Except.pure]
  rw [if_neg (by decide), hl.nameLen, hl.extraLen, hc.name, he.decoded]
  dsimp only
  rw [hl.body, hinflated]
  dsimp only
  rw [hnext, hrest]

/-- The reader's walk along the central directory follows the writer's two offsets. -/
theorem readEntries_written {entries : List ZipEntry} {off used offset : Nat}
    (hfits : ∀ e ∈ entries, e.Fits R) (hused : used + totalData entries < maxInflatedBytes)
    (hsize : offset + (writeEntries R entries offset).1.length < 256 ^ 4)
    (hlocal : ∃ post, buf.drop offset = (writeEntries R entries offset).1 ++ post)
    (hcentral : ∃ post, buf.drop off = (writeEntries R entries offset).2 ++ post) :
    readEntries R buf entries.length off used = .ok (entries.map fun e => (e.name, e.data)) := by
  induction entries generalizing off used offset with
  | nil => rfl
  | cons e entries ih =>
    obtain ⟨post, hlocal⟩ := hlocal
    obtain ⟨post', hcentral⟩ := hcentral
    have he := hfits e List.mem_cons_self
    have htotal : totalData (e :: entries) = e.data.length + totalData entries := by
      rw [totalData, List.map_cons, List.sum_cons, ← totalData]
    have hmax : maxInflatedBytes < 256 ^ 4 := by decide
    rw [writeEntries, List.append_assoc] at hlocal hcentral
    rw [writeEntries, List.length_append] at hsize
    have hlen : (centralEntry R e offset).length = 46 + (R.encode e.name).length := by
      rw [centralEntry, List.length_append, length_record, width_central]
    have hnext := drop_add hcentral
    rw [hlen] at hnext
    have hrest : readEntries R buf entries.length (off + (46 + (R.encode e.name).length))
        (used + e.data.length) = .ok (entries.map fun e => (e.name, e.data)) :=
      ih (fun x hx => hfits x (List.mem_cons_of_mem e hx)) (by omega) (by omega)
        ⟨post, drop_add hlocal⟩ ⟨post', hnext⟩
    exact readEntries_succ (readsCentral hcentral he (by omega) (by omega)) (readsLocal hlocal he) he
      (by omega) hrest

/-- The end record is the last thing that `buildZip` writes, and the first that is looked for. -/
theorem findEnd_written (count cdLength offset : Nat) (pre : List UInt8) :
    findEnd (pre ++ record (endFields count cdLength offset)) = some pre.length := by
  have hwidth : width (endFields count cdLength offset) = 22 := by simp [width, endFields]
  have hlen : (pre ++ record (endFields count cdLength offset)).length - 21 = pre.length + 1 := by
    rw [List.length_append, length_record, hwidth]
    omega
  have hdrop : (pre ++ record (endFields count cdLength offset)).drop pre.length =
      record (endFields count cdLength offset) ++ [] := by
    rw [List.drop_left, List.append_nil]
  have hsignature : (endFields count cdLength offset)[0]? = some (4, 0x06054b50) := rfl
  have hplace : width ((endFields count cdLength offset).take 0) = 0 := rfl
  have hread := readAt_record hdrop 0 hsignature hplace (by decide) (by decide)
  rw [Nat.add_zero] at hread
  rw [findEnd, hlen, List.range_succ, List.reverse_append, List.reverse_singleton,
    List.singleton_append, List.find?_cons, hread]
  rfl

theorem unzip_buildZip (R : ZipRuntime) (entries : List ZipEntry)
    (hcount : entries.length ≤ maxEntries) (hfits : ∀ e ∈ entries, e.Fits R)
    (htotal : totalData entries < maxInflatedBytes) :
    unzip R (buildZip R entries) = .ok (entries.map fun e => (e.name, e.data)) := by
  have hlocals := length_locals hfits 0
  have hmax : maxEntries * 65566 + maxInflatedBytes < 256 ^ 4 := by
    norm_num [maxEntries, maxInflatedBytes]
  have hentries : entries.length * 65566 ≤ maxEntries * 65566 :=
    Nat.mul_le_mul_right 65566 hcount
  have hsmall : maxEntries < 256 ^ 2 := by decide
  unfold buildZip
  dsimp only
  have hread : readEntries R ((writeEntries R entries 0).1 ++ (writeEntries R entries 0).2 ++
      record (endFields entries.length (writeEntries R entries 0).2.length
        (writeEntries R entries 0).1.length)) entries.length (writeEntries R entries 0).1.length 0 =
      .ok (entries.map fun e => (e.name, e.data)) :=
    readEntries_written hfits (by rw [Nat.zero_add]; exact htotal) (by rw [Nat.zero_add]; omega)
      ⟨_, by rw [List.drop_zero, List.append_assoc]⟩
      ⟨_, by rw [List.append_assoc, List.drop_left]⟩
  generalize writeEntries R entries 0 = ws at *
  have hdrop : ((ws.1 ++ ws.2) ++ record (endFields entries.length ws.2.length ws.1.length)).drop
      (ws.1 ++ ws.2).length = record (endFields entries.length ws.2.length ws.1.length) ++ [] := by
    rw [List.drop_left, List.append_nil]
  have hcountRead : readAt 2 ((ws.1 ++ ws.2) ++
      record (endFields entries.length ws.2.length ws.1.length)) ((ws.1 ++ ws.2).length + 10) =
        some entries.length := readAt_record hdrop 4 rfl rfl (by decide) (by omega)
  have hoffRead : readAt 4 ((ws.1 ++ ws.2) ++
      record (endFields entries.length ws.2.length ws.1.length)) ((ws.1 ++ ws.2).length + 16) =
        some ws.1.length := readAt_record hdrop 6 rfl rfl (by decide) (by omega)
  have hend := findEnd_written entries.length ws.2.length ws.1.length (ws.1 ++ ws.2)
  generalize (ws.1 ++ ws.2) ++ record (endFields entries.length ws.2.length ws.1.length) = buf at *
  unfold unzip
  rw [hend]
  simp only [readWord, hcountRead, hoffRead, bind, Except.bind]
  rw [if_neg (Nat.not_lt.2 hcount)]
  exact hread

end RoundTrip

section Strip

theorem afterSlash_mise (rel : String) : afterSlash ("mise/" ++ rel) = some rel := by
  have hchars : ("mise/" ++ rel).toList = ['m', 'i', 's', 'e', '/'] ++ rel.toList := by
    rw [String.toList_append]
    rfl
  rw [afterSlash, hchars]
  exact congrArg some (String.ofList_toList ..)

/-- A path of a file below the archive's folder, without `..`. -/
structure RelativeFile (rel : String) : Prop where
  plain : unsafePath rel = false
  file : isFolder rel = false

theorem stripTopLevel_mise {files : List ArchiveFile} (h : ∀ f ∈ files, RelativeFile f.1) :
    stripTopLevel (files.map fun f => ("mise/" ++ f.1, f.2)) =
      .ok (files.filter fun f => !spelledData f.1) := by
  induction files with
  | nil => rfl
  | cons f files ih =>
    have hf := h f List.mem_cons_self
    have hrest := ih fun x hx => h x (List.mem_cons_of_mem f hx)
    rw [List.map_cons, stripTopLevel, afterSlash_mise]
    dsimp only
    rw [hf.plain, hf.file, hrest, List.filter_cons]
    cases spelledData f.1 with
    | true => rfl
    | false => rfl

/-- The source archive of an instance is read as it was written, and its files are those below the
archive's folder, without the instance's data. -/
theorem source_archive_round_trips (R : ZipRuntime) (entries : List ZipEntry)
    (hcount : entries.length ≤ maxEntries) (hfits : ∀ e ∈ entries, e.Fits R)
    (htotal : totalData entries < maxInflatedBytes) :
    unzip R (buildZip R entries) = .ok (entries.map fun e => (e.name, e.data)) ∧
      ∀ files : List ArchiveFile,
        (entries.map fun e => (e.name, e.data)) = files.map (fun f => ("mise/" ++ f.1, f.2)) →
        (∀ f ∈ files, RelativeFile f.1) →
        (unzip R (buildZip R entries)).bind stripTopLevel =
          .ok (files.filter fun f => !spelledData f.1) := by
  have hunzip := unzip_buildZip R entries hcount hfits htotal
  refine ⟨hunzip, fun files hnames hfiles => ?_⟩
  rw [hunzip, hnames]
  exact stripTopLevel_mise hfiles

/-- The codecs of the runtime as they are on short data: deflating a byte does not make it shorter. -/
def sampleRuntime : ZipRuntime where
  encode s := s.toUTF8.toList
  decode bs := (String.fromUTF8? ⟨bs.toArray⟩).getD ""
  deflateRaw data := if data = [97] then [0x4b, 0x04, 0x00] else [0x03, 0x00]
  inflateRaw comp _ := .ok (if comp = [0x4b, 0x04, 0x00] then [97] else [])

def sampleArchive : List ZipEntry :=
  [{ name := "mise/index.html", data := [97] }, { name := "mise/data/seed.json", data := [] }]

theorem fits_sample {entries : List ZipEntry}
    (hname : ∀ e ∈ entries, (sampleRuntime.encode e.name).length < 65536)
    (hdecoded : ∀ e ∈ entries, sampleRuntime.decode (sampleRuntime.encode e.name) = e.name)
    (hdata : ∀ e ∈ entries, e.data = [97] ∨ e.data = []) : ∀ e ∈ entries, e.Fits sampleRuntime := by
  intro e he
  refine ⟨hname e he, hdecoded e he, fun limit _ _ => ?_⟩
  obtain hd | hd := hdata e he
  · rw [hd]
    rfl
  · rw [hd]
    rfl

theorem sample_fits : ∀ e ∈ sampleArchive, e.Fits sampleRuntime :=
  fits_sample (by decide +kernel) (by decide +kernel) (by decide)

theorem source_archive_round_trips_sample :
    unzip sampleRuntime (buildZip sampleRuntime sampleArchive) =
        .ok (sampleArchive.map fun e => (e.name, e.data)) ∧
      ∀ files : List ArchiveFile,
        (sampleArchive.map fun e => (e.name, e.data)) = files.map (fun f => ("mise/" ++ f.1, f.2)) →
        (∀ f ∈ files, RelativeFile f.1) →
        (unzip sampleRuntime (buildZip sampleRuntime sampleArchive)).bind stripTopLevel =
          .ok (files.filter fun f => !spelledData f.1) :=
  source_archive_round_trips sampleRuntime sampleArchive (by decide) sample_fits (by decide)

end Strip

end Mise.Update
