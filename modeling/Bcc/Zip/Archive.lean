import Bcc.Bytes.Layout

namespace Bcc.Zip

open CText Bytes

/-!
# ZIP — finding entries in an archive

* `findCentralDirectory` — searches from the end for the end record, which says where the central
  directory is;
* `findEntry` — walks it with offsets of 32 bits; a record points to a local header and its data.
-/

/-! ### Access -/

/-- Addition of `uint32_t`. -/
def add32 (a b : Nat) : Nat := (a + b) % 2 ^ 32

variable (data : List UInt8) (offset : Nat)

/-- `check_access`. -/
def checkAccess (offset size : Nat) : Bool :=
  !(decide (data.length < add32 offset size) || decide (add32 offset size < offset))

theorem add32_lt (a b : Nat) : add32 a b < 2 ^ 32 := Nat.mod_lt _ (by decide)

theorem add32_eq {a b : Nat} (h : a + b < 2 ^ 32) : add32 a b = a + b := Nat.mod_eq_of_lt h

/-- The check with wrapping offsets is the check without. -/
theorem checkAccess_iff {data : List UInt8} {offset size : Nat} (hd : data.length < 2 ^ 32)
    (ho : offset < 2 ^ 32) (hs : size < 2 ^ 32) :
    checkAccess data offset size = true ↔ offset + size ≤ data.length := by
  unfold checkAccess add32
  simp only [Bool.not_eq_true', Bool.or_eq_false_iff, decide_eq_false_iff_not, Nat.not_lt]
  constructor
  · rintro ⟨h1, h2⟩
    -- a sum that wraps is smaller than the offset
    by_cases hwrap : offset + size < 2 ^ 32
    · rwa [Nat.mod_eq_of_lt hwrap] at h1
    · omega
  · omega

/-! ### The end record -/

/-- What `try_parse_end_of_central_directory` returns: -1, -2, or 0 with the directory. -/
inductive EndRecord where
  | invalid
  | unsupported
  | found (cdOffset cdRecords : Nat)
  deriving DecidableEq, Repr

/-- `try_parse_end_of_central_directory`. -/
def tryParseEndOfCentralDirectory : Res EndRecord :=
  if checkAccess data offset 22 = false then .ok .invalid
  else do
    let magic ← readLE data offset 4
    if magic ≠ 0x06054b50 then return .invalid
    else
      let commentLength ← readLE data (offset + 20) 2
      -- `sizeof` makes this a sum of 64 bits
      if offset + 22 + commentLength ≠ data.length then return .invalid
      else
        let cdRecords ← readLE data (offset + 8) 2
        let thisDisk ← readLE data (offset + 4) 2
        let cdDisk ← readLE data (offset + 6) 2
        let cdRecordsTotal ← readLE data (offset + 10) 2
        if thisDisk ≠ 0 ∨ cdDisk ≠ 0 ∨ cdRecordsTotal ≠ cdRecords then return .unsupported
        else
          let cdOffset ← readLE data (offset + 16) 4
          let cdSize ← readLE data (offset + 12) 4
          if checkAccess data cdOffset cdSize = false then return .invalid
          else return .found cdOffset cdRecords

/-- The loop of `find_central_directory`: at most so many offsets, downwards. -/
def scanBack (data : List UInt8) : Nat → Nat → Res EndRecord
  | 0, _ => .ok .invalid
  | n + 1, offset => do
    let r ← tryParseEndOfCentralDirectory data offset
    if r ≠ .invalid then return r
    else if offset = 0 then return .invalid
    else scanBack data n (offset - 1)

/-- `find_central_directory`. -/
def findCentralDirectory : Res EndRecord :=
  if data.length ≤ 22 then .ok .invalid
  else scanBack data (2 ^ 16) (data.length - 22)

/-- `bcc_zip_archive`. -/
structure Archive where
  data : List UInt8
  cdOffset : Nat
  cdRecords : Nat
  deriving DecidableEq, Repr

/-- `bcc_zip_archive_open` on the content of a file.  An empty file cannot be mapped. -/
def openArchive : Res (Option Archive) :=
  if data.length = 0 ∨ 2 ^ 32 ≤ data.length then .ok none
  else do
    match ← findCentralDirectory data with
    | .found cdOffset cdRecords => return some ⟨data, cdOffset, cdRecords⟩
    | _ => return none

/-! ### Entries -/

/-- What is read of a `local_file_header`. -/
structure LocalFileHeader where
  flags : Nat
  compression : Nat
  compressedSize : Nat
  fileNameLength : Nat
  extraFieldLength : Nat
  deriving DecidableEq, Repr

/-- `local_file_header_at_offset`. -/
def localFileHeaderAtOffset : Res (Option LocalFileHeader) :=
  if checkAccess data offset 30 = false then .ok none
  else do
    let magic ← readLE data offset 4
    if magic ≠ 0x04034b50 then return none
    else
      let flags ← readLE data (offset + 6) 2
      let compression ← readLE data (offset + 8) 2
      let compressedSize ← readLE data (offset + 18) 4
      let fileNameLength ← readLE data (offset + 26) 2
      let extraFieldLength ← readLE data (offset + 28) 2
      return some ⟨flags, compression, compressedSize, fileNameLength, extraFieldLength⟩

/-- `FLAG_ENCRYPTED` or `FLAG_HAS_DATA_DESCRIPTOR` is set. -/
def unsupportedFlags (flags : Nat) : Bool := flags.testBit 0 || flags.testBit 3

/-- `bcc_zip_entry`, with the name and the data given by their places. -/
structure ZipEntry where
  compression : Nat
  nameOffset : Nat
  nameLength : Nat
  dataOffset : Nat
  dataLength : Nat
  deriving DecidableEq, Repr

def ZipEntry.name (e : ZipEntry) (data : List UInt8) : List UInt8 :=
  slice data e.nameOffset e.nameLength

def ZipEntry.content (e : ZipEntry) (data : List UInt8) : List UInt8 :=
  slice data e.dataOffset e.dataLength

/-- `get_entry_at_offset`. -/
def getEntryAtOffset : Res (Option ZipEntry) := do
  match ← localFileHeaderAtOffset data offset with
  | none => return none
  | some lfh =>
    let nameOffset := add32 offset 30
    let extraOffset := add32 nameOffset lfh.fileNameLength
    let dataOffset := add32 extraOffset lfh.extraFieldLength
    if unsupportedFlags lfh.flags then return none
    else if checkAccess data nameOffset lfh.fileNameLength = false then return none
    else if checkAccess data extraOffset lfh.extraFieldLength = false then return none
    else if checkAccess data dataOffset lfh.compressedSize = false then return none
    else return some ⟨lfh.compression, nameOffset, lfh.fileNameLength, dataOffset,
      lfh.compressedSize⟩

/-- What is read of a `central_directory_file_header`. -/
structure CdFileHeader where
  flags : Nat
  fileNameLength : Nat
  extraFieldLength : Nat
  fileCommentLength : Nat
  offset : Nat
  deriving DecidableEq, Repr

/-- `cd_file_header_at_offset`. -/
def cdFileHeaderAtOffset : Res (Option CdFileHeader) :=
  if checkAccess data offset 46 = false then .ok none
  else do
    let magic ← readLE data offset 4
    if magic ≠ 0x02014b50 then return none
    else
      let flags ← readLE data (offset + 8) 2
      let fileNameLength ← readLE data (offset + 28) 2
      let extraFieldLength ← readLE data (offset + 30) 2
      let fileCommentLength ← readLE data (offset + 32) 2
      let localOffset ← readLE data (offset + 42) 4
      return some ⟨flags, fileNameLength, extraFieldLength, fileCommentLength, localOffset⟩

/-- The offset of the next record of the directory. -/
def CdFileHeader.next (cdfh : CdFileHeader) (offset : Nat) : Nat :=
  add32 (add32 (add32 (add32 offset 46) cdfh.fileNameLength) cdfh.extraFieldLength)
    cdfh.fileCommentLength

/-- The record can be used and has the name. -/
def CdFileHeader.hasName (cdfh : CdFileHeader) (nameOffset : Nat) (fileName : List UInt8)
    : Res Bool :=
  if unsupportedFlags cdfh.flags = false ∧ fileName.length = cdfh.fileNameLength then do
    return (← readBytes data nameOffset fileName.length) == fileName
  else .ok false

/-- The loop of `bcc_zip_archive_find_entry`, over so many records. -/
def findEntryLoop (data fileName : List UInt8) : Nat → Nat → Res (Option ZipEntry)
  | 0, _ => .ok none
  | n + 1, offset => do
    match ← cdFileHeaderAtOffset data offset with
    | none => return none
    | some cdfh =>
      if checkAccess data (add32 offset 46) cdfh.fileNameLength = false then return none
      else if ← cdfh.hasName data (add32 offset 46) fileName then
        getEntryAtOffset data cdfh.offset
      else findEntryLoop data fileName n (cdfh.next offset)

/-- `bcc_zip_archive_find_entry`. -/
def findEntry (a : Archive) (fileName : List UInt8) : Res (Option ZipEntry) :=
  findEntryLoop a.data fileName a.cdRecords a.cdOffset

/-- The loop of `bcc_zip_archive_find_entry_at_offset`. -/
def findAtOffsetLoop (data : List UInt8) (target : Nat) : Nat → Nat → Res (Option ZipEntry)
  | 0, _ => .ok none
  | n + 1, offset => do
    match ← cdFileHeaderAtOffset data offset with
    | none => return none
    | some cdfh =>
      if unsupportedFlags cdfh.flags then findAtOffsetLoop data target n (cdfh.next offset)
      else
        match ← getEntryAtOffset data cdfh.offset with
        | none => return none
        | some e =>
          if e.dataOffset ≤ target ∧ target < e.dataOffset + e.dataLength then return some e
          else findAtOffsetLoop data target n (cdfh.next offset)

/-- `bcc_zip_archive_find_entry_at_offset`. -/
def findEntryAtOffset (a : Archive) (target : Nat) : Res (Option ZipEntry) :=
  findAtOffsetLoop a.data target a.cdRecords a.cdOffset

end Bcc.Zip
