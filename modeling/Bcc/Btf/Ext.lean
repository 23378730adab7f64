import Bcc.Bytes.Records

namespace Bcc.Btf

open CText Bytes

/-!
# BTF — the section `.BTF.ext`

The section has a header and subsections of records, which are sorted by the names of the
sections of the program.  A subsection is checked when the section is loaded; the records of one
section are later copied out of it.

* `btfExtNew` — the checks;
* `relocInfo` — the records of one section, with their instructions counted from another place.

Memory is always there.
-/

/-- Error numbers that are returned, negated. -/
inductive Errno where
  | einval
  | enotsup
  | enoent
  deriving DecidableEq, Repr

/-! ### Loading -/

/-- `btf_ext_info`, with its place in the section.  All fields are zero if there is none. -/
structure ExtInfo where
  info : Nat
  recSize : Nat
  len : Nat
  deriving DecidableEq, Repr

/-- The loop of `btf_ext_setup_info` over the blocks of a subsection. -/
def setupLoop (data : List UInt8) (recSize : Nat) : Nat → Nat → Nat → Res (Except Errno Unit)
  | 0, _, _ => .error .outOfFuel
  | n + 1, sinfo, infoLeft =>
    if infoLeft = 0 then .ok (.ok ())
    else if infoLeft < 8 then .ok (.error .einval)
    else do
      let numRecords ← readLE data (sinfo + 4) 4
      if numRecords = 0 then return .error .einval
      else
        -- a sum of 64 bits
        let totalRecordSize := 8 + numRecords * recSize
        if infoLeft < totalRecordSize then return .error .einval
        else setupLoop data recSize n (sinfo + totalRecordSize) (infoLeft - totalRecordSize)

variable (data : List UInt8) (hdrLen : Nat)

/-- `btf_ext_setup_info`, for the subsection at `off` with `len` bytes. -/
def setupInfo (hdrLen off len minRecSize : Nat) : Res (Except Errno ExtInfo) :=
  if len = 0 then .ok (.ok ⟨0, 0, 0⟩)
  else if off % 4 ≠ 0 then .ok (.error .einval)
  else if data.length < hdrLen + off + len then .ok (.error .einval)
  else if len < 4 then .ok (.error .einval)
  else do
    let recordSize ← readLE data (hdrLen + off) 4
    if recordSize < minRecSize ∨ recordSize % 4 ≠ 0 then return .error .einval
    else if len - 4 = 0 then return .error .einval
    else
      match ← setupLoop data recordSize (len - 4 + 1) (hdrLen + off + 4) (len - 4) with
      | .error e => return .error e
      | .ok () => return .ok ⟨hdrLen + off + 4, recordSize, len - 4⟩

/-- `btf_ext_parse_hdr`.  `0x9feb` is `BTF_MAGIC` with its bytes swapped. -/
def parseHdr : Res (Except Errno Unit) :=
  if data.length < 8 then .ok (.error .einval)
  else do
    let hdrLen ← readLE data 4 4
    let magic ← readLE data 0 2
    let version ← readLE data 2 1
    let flags ← readLE data 3 1
    if data.length < hdrLen then return .error .einval
    else if magic = 0x9feb then return .error .enotsup
    else if magic ≠ 0xeb9f then return .error .einval
    else if version ≠ 1 then return .error .enotsup
    else if flags ≠ 0 then return .error .enotsup
    else if data.length = hdrLen then return .error .einval
    else return .ok ()

/-- `btf_ext`. -/
structure BtfExt where
  data : List UInt8
  funcInfo : ExtInfo
  lineInfo : ExtInfo
  coreReloInfo : ExtInfo
  deriving DecidableEq, Repr

/-- `btf_ext_setup_func_info`. -/
def setupFuncInfo : Res (Except Errno ExtInfo) := do
  let off ← readLE data 8 4
  let len ← readLE data 12 4
  setupInfo data hdrLen off len 8

/-- `btf_ext_setup_line_info`. -/
def setupLineInfo : Res (Except Errno ExtInfo) := do
  let off ← readLE data 16 4
  let len ← readLE data 20 4
  setupInfo data hdrLen off len 16

/-- `btf_ext_setup_core_relos`. -/
def setupCoreRelos : Res (Except Errno ExtInfo) := do
  let off ← readLE data 24 4
  let len ← readLE data 28 4
  setupInfo data hdrLen off len 16

/-- `btf_ext__new`. -/
def btfExtNew : Res (Except Errno BtfExt) := do
  match ← parseHdr data with
  | .error e => return .error e
  | .ok () =>
    let hdrLen ← readLE data 4 4
    if hdrLen < 24 then return .error .einval
    else
      match ← setupFuncInfo data hdrLen with
      | .error e => return .error e
      | .ok funcInfo =>
        match ← setupLineInfo data hdrLen with
        | .error e => return .error e
        | .ok lineInfo =>
          if hdrLen < 32 then return .error .einval
          else
            match ← setupCoreRelos data hdrLen with
            | .error e => return .error e
            | .ok coreReloInfo => return .ok ⟨data, funcInfo, lineInfo, coreReloInfo⟩

/-! ### Copying records -/

/-- The loop over the records that were copied: `insn_off`, in bytes, becomes a number of
    instructions of eight bytes. -/
def adjustInsnOffs (recSize insnsCnt : Nat) : Nat → List UInt8 → Res (List UInt8)
  | 0, b => .ok b
  | n + 1, b => do
    let insnOff ← readLE b 0 4
    let rest ← adjustInsnOffs recSize insnsCnt n (b.drop recSize)
    return le 4 (insnOff / 8 + insnsCnt) ++ ((b.take recSize).drop 4 ++ rest)

/-- The records of a block behind the `cnt` records there are.  Lengths are `uint32_t`. -/
def appendRecords (recSize sinfo numInfo insnsCnt : Nat) (existing : List UInt8) (cnt : Nat)
    : Res (List UInt8 × Nat) := do
  let recordsLen := numInfo * recSize % 2 ^ 32
  let existingLen := cnt * recSize % 2 ^ 32
  -- the buffer has the length of the sum
  if (existingLen + recordsLen) % 2 ^ 32 < existingLen + recordsLen then .error .outOfBounds
  else
    let copied ← readBytes data (sinfo + 8) recordsLen
    let adjusted ← adjustInsnOffs recSize insnsCnt numInfo copied
    return (existing.take existingLen ++ adjusted, (cnt + numInfo) % 2 ^ 32)

/-- The loop of `btf_ext_reloc_info`. -/
def relocLoop (nameByOffset : Nat → List UInt8) (data : List UInt8) (recSize : Nat)
    (secName : List UInt8) (insnsCnt : Nat) (existing : List UInt8) (cnt : Nat) :
    Nat → Nat → Nat → Res (Except Errno (List UInt8 × Nat))
  | 0, _, _ => .error .outOfFuel
  | n + 1, sinfo, remainLen =>
    if remainLen = 0 then .ok (.error .enoent)
    else do
      let numInfo ← readLE data (sinfo + 4) 4
      let secNameOff ← readLE data sinfo 4
      if nameByOffset secNameOff ≠ secName then
        let recordsLen := numInfo * recSize % 2 ^ 32
        relocLoop nameByOffset data recSize secName insnsCnt existing cnt n
          (sinfo + 8 + recordsLen) ((remainLen + 2 ^ 64 - (8 + recordsLen) % 2 ^ 32) % 2 ^ 64)
      else
        let result ← appendRecords data recSize sinfo numInfo insnsCnt existing cnt
        return .ok result

/-- `btf_ext_reloc_info`: the records and their number.  `nameByOffset` is `btf__name_by_offset`. -/
def relocInfo (nameByOffset : Nat → List UInt8) (data : List UInt8) (info : ExtInfo)
    (secName : List UInt8) (insnsCnt : Nat) (existing : List UInt8) (cnt : Nat) :
    Res (Except Errno (List UInt8 × Nat)) :=
  relocLoop nameByOffset data info.recSize secName insnsCnt existing cnt (info.len + 1) info.info
    info.len

end Bcc.Btf
