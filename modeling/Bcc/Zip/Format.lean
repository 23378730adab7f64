import Bcc.Zip.Archive

namespace Bcc.Zip

open Bytes CText List

/-!
# ZIP — archives as they are written

* `archive` — a local record for each entry, the central directory, the end record, and a comment;
* `findEntryLoop_directory`, `findAtOffsetLoop_directory` — the walks over it.
-/

/-! ### The format -/

/-- An entry.  Lengths fit their fields, and the flags are those of a plain entry. -/
structure FileEntry where
  name : List UInt8
  data : List UInt8
  /-- The extra field of the local record, that of the central record, and its comment. -/
  extra : List UInt8
  cdExtra : List UInt8
  cdComment : List UInt8
  version : UInt16
  minVersion : UInt16
  flags : UInt16
  compression : UInt16
  lastModifiedTime : UInt16
  lastModifiedDate : UInt16
  crc : UInt32
  uncompressedSize : UInt32
  internalAttributes : UInt16
  externalAttributes : UInt32
  name_lt : name.length < 2 ^ 16
  extra_lt : extra.length < 2 ^ 16
  cdExtra_lt : cdExtra.length < 2 ^ 16
  cdComment_lt : cdComment.length < 2 ^ 16
  noNul : 0 ∉ name
  supported : unsupportedFlags flags.toNat = false

/-- The local record and the data behind it. -/
def localRecord (e : FileEntry) : List UInt8 :=
  le 4 0x04034b50 ++ (le 2 e.minVersion.toNat ++ (le 2 e.flags.toNat ++ (le 2 e.compression.toNat
    ++ (le 2 e.lastModifiedTime.toNat ++ (le 2 e.lastModifiedDate.toNat ++ (le 4 e.crc.toNat
    ++ (le 4 e.data.length ++ (le 4 e.uncompressedSize.toNat ++ (le 2 e.name.length
    ++ (le 2 e.extra.length ++ (e.name ++ (e.extra ++ e.data))))))))))))

/-- The record of the central directory for a local record at an offset. -/
def centralRecord (offset : Nat) (e : FileEntry) : List UInt8 :=
  le 4 0x02014b50 ++ (le 2 e.version.toNat ++ (le 2 e.minVersion.toNat ++ (le 2 e.flags.toNat
    ++ (le 2 e.compression.toNat ++ (le 2 e.lastModifiedTime.toNat
    ++ (le 2 e.lastModifiedDate.toNat ++ (le 4 e.crc.toNat ++ (le 4 e.data.length
    ++ (le 4 e.uncompressedSize.toNat ++ (le 2 e.name.length ++ (le 2 e.cdExtra.length
    ++ (le 2 e.cdComment.length ++ (le 2 0 ++ (le 2 e.internalAttributes.toNat
    ++ (le 4 e.externalAttributes.toNat ++ (le 4 offset
    ++ (e.name ++ (e.cdExtra ++ e.cdComment))))))))))))))))))

/-- The local records of the entries. -/
def locals (es : List FileEntry) : List UInt8 := es.flatMap localRecord

/-- The central directory, for local records from an offset on. -/
def directory : Nat → List FileEntry → List UInt8
  | _, [] => []
  | offset, e :: es => centralRecord offset e ++ directory (offset + (localRecord e).length) es

/-- The end record. -/
def endRecord (records cdSize cdOffset commentLength : Nat) : List UInt8 :=
  le 4 0x06054b50 ++ (le 2 0 ++ (le 2 0 ++ (le 2 records ++ (le 2 records ++ (le 4 cdSize
    ++ (le 4 cdOffset ++ le 2 commentLength))))))

/-- The bytes of an archive. -/
def archive (es : List FileEntry) (comment : List UInt8) : List UInt8 :=
  locals es ++ (directory 0 es
    ++ (endRecord es.length (directory 0 es).length (locals es).length comment.length ++ comment))

/-- Where the end record stands. -/
def endOffset (es : List FileEntry) : Nat := (locals es).length + (directory 0 es).length

/-- The entries with the offsets of their local records. -/
def placed : Nat → List FileEntry → List (Nat × FileEntry)
  | _, [] => []
  | offset, e :: es => (offset, e) :: placed (offset + (localRecord e).length) es

/-- The offset of the data of an entry whose local record is at an offset. -/
def dataOffset (x : Nat × FileEntry) : Nat := x.1 + 30 + x.2.name.length + x.2.extra.length

/-- What is to be found for an entry whose local record is at an offset. -/
def entryOf (x : Nat × FileEntry) : ZipEntry :=
  ⟨x.2.compression.toNat, x.1 + 30, x.2.name.length, dataOffset x, x.2.data.length⟩

/-! ### Lengths -/

theorem length_localRecord (e : FileEntry) :
    (localRecord e).length = 30 + e.name.length + e.extra.length + e.data.length := by
  simp only [localRecord, length_append, length_le]
  omega

theorem length_centralRecord (offset : Nat) (e : FileEntry) :
    (centralRecord offset e).length
      = 46 + e.name.length + e.cdExtra.length + e.cdComment.length := by
  simp only [centralRecord, length_append, length_le]
  omega

theorem length_endRecord (records cdSize cdOffset commentLength : Nat) :
    (endRecord records cdSize cdOffset commentLength).length = 22 := by
  simp [endRecord]

theorem length_archive (es : List FileEntry) (comment : List UInt8) :
    (archive es comment).length = endOffset es + 22 + comment.length := by
  simp only [archive, endOffset, length_append, length_endRecord]
  omega

/-! ### Records -/

variable {data : List UInt8} {offset : Nat} {e : FileEntry}

theorem le_of_at_localRecord (h : At data offset (localRecord e)) :
    offset + (localRecord e).length ≤ data.length := by
  apply h.le_length
  intro hnil
  have hlen := length_localRecord e
  rw [hnil, length_nil] at hlen
  omega

variable {loff : Nat}

theorem le_of_at_centralRecord (h : At data offset (centralRecord loff e)) :
    offset + (centralRecord loff e).length ≤ data.length := by
  apply h.le_length
  intro hnil
  have hlen := length_centralRecord loff e
  rw [hnil, length_nil] at hlen
  omega

/-- The fields of a local record, each at its offset. -/
theorem at_localRecord (h : At data offset (localRecord e)) :
    At data offset (le 4 0x04034b50) ∧ At data (offset + 6) (le 2 e.flags.toNat)
      ∧ At data (offset + 8) (le 2 e.compression.toNat)
      ∧ At data (offset + 18) (le 4 e.data.length) ∧ At data (offset + 26) (le 2 e.name.length)
      ∧ At data (offset + 28) (le 2 e.extra.length) ∧ At data (offset + 30) e.name
      ∧ At data (offset + 30 + e.name.length) e.extra
      ∧ At data (offset + 30 + e.name.length + e.extra.length) e.data := by
  simp only [localRecord, at_append, length_le] at h
  obtain ⟨h0, -, h6, h8, -, -, -, h18, -, h26, h28, hname, hextra, hdata⟩ := h
  exact ⟨h0, h6, h8, h18, h26, h28, hname, hextra, hdata⟩

/-- The fields of a record of the directory, each at its offset. -/
theorem at_centralRecord (h : At data offset (centralRecord loff e)) :
    At data offset (le 4 0x02014b50) ∧ At data (offset + 8) (le 2 e.flags.toNat)
      ∧ At data (offset + 28) (le 2 e.name.length) ∧ At data (offset + 30) (le 2 e.cdExtra.length)
      ∧ At data (offset + 32) (le 2 e.cdComment.length) ∧ At data (offset + 42) (le 4 loff)
      ∧ At data (offset + 46) e.name := by
  simp only [centralRecord, at_append, length_le] at h
  obtain ⟨h0, -, -, h8, -, -, -, -, -, -, h28, h30, h32, -, -, -, h42, hname, -⟩ := h
  exact ⟨h0, h8, h28, h30, h32, h42, hname⟩

variable (hd : data.length < 2 ^ 32)
include hd

theorem checkAccess_of_le {size : Nat} (h : offset + size ≤ data.length) :
    checkAccess data offset size = true :=
  (checkAccess_iff hd (by omega) (by omega)).mpr h

/-- **Local records.**  A local record is read as it was written. -/
theorem getEntryAtOffset_local (h : At data offset (localRecord e)) :
    getEntryAtOffset data offset = .ok (some (entryOf (offset, e)))
      ∧ (entryOf (offset, e)).name data = e.name
      ∧ (entryOf (offset, e)).content data = e.data := by
  have hlen := length_localRecord e
  have hle := le_of_at_localRecord h
  obtain ⟨h0, h6, h8, h18, h26, h28, hname, -, hdata⟩ := at_localRecord h
  have hname_lt := e.name_lt
  have hextra_lt := e.extra_lt
  refine ⟨?_, hname.slice_eq, hdata.slice_eq⟩
  have hheader : localFileHeaderAtOffset data offset = .ok (some ⟨e.flags.toNat,
      e.compression.toNat, e.data.length, e.name.length, e.extra.length⟩) := by
    unfold localFileHeaderAtOffset
    rw [if_neg (by rw [checkAccess_of_le hd (by omega)]; decide),
      h0.readLE (by decide) (by decide), h6.readLE (by decide) e.flags.toNat_lt,
      h8.readLE (by decide) e.compression.toNat_lt, h18.readLE (by decide) (by omega),
      h26.readLE (by decide) (by omega), h28.readLE (by decide) (by omega)]
    rfl
  unfold getEntryAtOffset
  rw [hheader, ok_bind]
  simp (disch := omega) only [add32_eq, checkAccess_of_le hd, e.supported, reduceCtorEq]
  rfl

/-- **Records of the directory.**  A record of the directory is read as it was written. -/
theorem cdFileHeaderAtOffset_central (hloff : loff < 2 ^ 32)
    (h : At data offset (centralRecord loff e)) :
    ∃ cdfh, cdFileHeaderAtOffset data offset = .ok (some cdfh)
      ∧ cdfh.flags = e.flags.toNat ∧ cdfh.fileNameLength = e.name.length ∧ cdfh.offset = loff
      ∧ cdfh.next offset = offset + (centralRecord loff e).length := by
  have hlen := length_centralRecord loff e
  have hle := le_of_at_centralRecord h
  obtain ⟨h0, h8, h28, h30, h32, h42, -⟩ := at_centralRecord h
  have hname_lt := e.name_lt
  have hextra_lt := e.cdExtra_lt
  have hcomment_lt := e.cdComment_lt
  refine ⟨⟨e.flags.toNat, e.name.length, e.cdExtra.length, e.cdComment.length, loff⟩, ?_, rfl, rfl,
    rfl, ?_⟩
  · unfold cdFileHeaderAtOffset
    rw [if_neg (by rw [checkAccess_of_le hd (by omega)]; decide),
      h0.readLE (by decide) (by decide), h8.readLE (by decide) e.flags.toNat_lt,
      h28.readLE (by decide) (by omega), h30.readLE (by decide) (by omega),
      h32.readLE (by decide) (by omega), h42.readLE (by decide) (by omega)]
    rfl
  · unfold CdFileHeader.next
    simp (disch := omega) only [add32_eq]
    omega

/-! ### Walks -/

/-- **By name.**  The walk over the directory finds the first entry with the name. -/
theorem findEntryLoop_directory (fileName : List UInt8) {es : List FileEntry}
    (hcd : At data offset (directory loff es)) (hlocal : At data loff (locals es)) :
    findEntryLoop data fileName es.length offset
      = .ok (((placed loff es).find? (fun x => x.2.name = fileName)).map entryOf) := by
  induction es generalizing offset loff with
  | nil => rfl
  | cons e es ih =>
    obtain ⟨hrec, hcd⟩ := at_append.mp hcd
    obtain ⟨hloc, hlocal⟩ := at_append.mp hlocal
    have hloff := le_of_at_localRecord hloc
    obtain ⟨cdfh, hhdr, hflags, hnlen, hoff, hnext⟩ :=
      cdFileHeaderAtOffset_central hd (by omega) hrec
    have hclen := length_centralRecord loff e
    have hle := le_of_at_centralRecord hrec
    have hadd : add32 offset 46 = offset + 46 := add32_eq (by omega)
    -- the name is compared with the bytes behind the record
    have hhas : cdfh.hasName data (offset + 46) fileName = .ok (decide (e.name = fileName)) := by
      unfold CdFileHeader.hasName
      rw [hflags, hnlen]
      by_cases hl : fileName.length = e.name.length
      · have hread := (at_centralRecord hrec).2.2.2.2.2.2.readBytes (by omega)
        rw [if_pos ⟨e.supported, hl⟩, hl, hread]
        exact congrArg Except.ok (by rw [Bool.eq_iff_iff]; simp)
      · rw [if_neg (fun h => hl h.2)]
        have hne : e.name ≠ fileName := fun h => hl (congrArg List.length h.symm)
        rw [decide_eq_false hne]
    rw [length_cons, findEntryLoop, hhdr, ok_bind]
    dsimp only
    rw [hadd, if_neg (by rw [checkAccess_of_le hd (by omega)]; decide), hhas, ok_bind,
      placed, find?_cons]
    by_cases hname : e.name = fileName
    · rw [decide_eq_true hname, hoff, (getEntryAtOffset_local hd hloc).1]
      rfl
    · rw [decide_eq_false hname, if_neg (by decide), hnext, ih hcd hlocal]

/-- **By offset.**  The walk over the directory finds the first entry whose data has the offset. -/
theorem findAtOffsetLoop_directory (target : Nat) {es : List FileEntry}
    (hcd : At data offset (directory loff es)) (hlocal : At data loff (locals es)) :
    findAtOffsetLoop data target es.length offset
      = .ok (((placed loff es).find? (fun x =>
        dataOffset x ≤ target ∧ target < dataOffset x + x.2.data.length)).map entryOf) := by
  induction es generalizing offset loff with
  | nil => rfl
  | cons e es ih =>
    obtain ⟨hrec, hcd⟩ := at_append.mp hcd
    obtain ⟨hloc, hlocal⟩ := at_append.mp hlocal
    have hloff := le_of_at_localRecord hloc
    obtain ⟨cdfh, hhdr, hflags, hnlen, hoff, hnext⟩ :=
      cdFileHeaderAtOffset_central hd (by omega) hrec
    rw [length_cons, findAtOffsetLoop, hhdr, ok_bind]
    dsimp only
    rw [hflags, e.supported, if_neg (by decide), hoff, (getEntryAtOffset_local hd hloc).1, ok_bind,
      placed, find?_cons]
    dsimp only
    have hiff : ((entryOf (loff, e)).dataOffset ≤ target
        ∧ target < (entryOf (loff, e)).dataOffset + (entryOf (loff, e)).dataLength)
        ↔ dataOffset (loff, e) ≤ target ∧ target < dataOffset (loff, e) + e.data.length := Iff.rfl
    by_cases hin : dataOffset (loff, e) ≤ target ∧ target < dataOffset (loff, e) + e.data.length
    · rw [if_pos (hiff.mpr hin), decide_eq_true hin]
      rfl
    · rw [if_neg (fun h => hin (hiff.mp h)), decide_eq_false hin, hnext, ih hcd hlocal]

end Bcc.Zip
