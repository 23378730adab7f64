import Bcc.Text.Search

namespace Bcc.Tracepoint

open CText

/-!
# Tracepoints — from a format file to a struct

* `lineLoop` — each line of the format file of a tracepoint is read again and again while the offset
  it declares is not reached, with a byte of padding for every time;
* `parseTracepoint` — the struct; `none` where `std::stoi` throws.
-/

/-! ### Fields -/

/-- What a line declares: the text of the field, its offset and its size. -/
structure Declared where
  field : List Char
  offset : Int
  size : Int
  deriving DecidableEq, Repr

/-- The searches of `_get_field_kind`.  `some none` is for lines that are not of a field. -/
def scanLine (line : List Char) : Option (Option Declared) :=
  match find "field:".toList line with
  | none => some none
  | some fieldPos =>
    match findFrom [';'] line fieldPos with
    | none => some none
    | some fieldSemiPos =>
      match findFrom "offset:".toList line fieldSemiPos with
      | none => some none
      | some offsetPos =>
        match findFrom [';'] line offsetPos with
        | none => some none
        | some semiPos => do
          let offset ← stoi ((line.drop (offsetPos + 7)).take (semiPos - offsetPos - 7))
          match findFrom "size:".toList line semiPos with
          | none => some none
          | some sizePos =>
            match findFrom [';'] line sizePos with
            | none => some none
            | some semiPos => do
              let size ← stoi ((line.drop (sizePos + 5)).take (semiPos - sizePos - 5))
              let field := (line.drop (fieldPos + 6)).take (fieldSemiPos - fieldPos - 6)
              return some ⟨field, offset, size⟩

/-- `field_kind_t`. -/
inductive FieldKind where
  | common
  | dataLoc
  | regular
  | invalid
  | pad
  deriving DecidableEq, Repr

/-- The type that fits the size of a field. -/
def adjustType (type : List Char) (size : Int) : List Char :=
  if size = 2 then
    if type ∈ ["char".toList, "int8_t".toList] then "s16".toList
    else if type ∈ ["unsigned char".toList, "uint8_t".toList] then "u16".toList
    else type
  else if size = 4 then
    if type ∈ ["char".toList, "short".toList, "int8_t".toList, "int16_t".toList] then "s32".toList
    else if type ∈ ["unsigned char".toList, "unsigned short".toList, "uint8_t".toList,
      "uint16_t".toList] then "u32".toList
    else type
  else if size = 8 then
    if type ∈ ["char".toList, "short".toList, "int".toList, "int8_t".toList, "int16_t".toList,
      "int32_t".toList, "pid_t".toList] then "s64".toList
    else if type ∈ ["unsigned char".toList, "unsigned short".toList, "unsigned int".toList,
      "uint8_t".toList, "uint16_t".toList, "uint32_t".toList, "unsigned".toList, "u32".toList,
      "uid_t".toList, "gid_t".toList] then "u64".toList
    else type
  else type

variable (enumVal : List Char → Option Int)

/-- The name of an array, with the value of an enumerator for its length.  The differences of
    positions are of `size_t`, and `npos` is its greatest value. -/
def arrayName (name : List Char) (pos1 : Nat) : List Char :=
  let pos2 := (find [']'] name).getD (2 ^ 64 - 1)
  let length := (pos2 + 2 ^ 64 - pos1 - 1) % 2 ^ 64
  let dim := (name.drop (pos1 + 1)).take length
  if dim ≠ [] ∧ (peek dim).isDigit = false then
    let dim' := match enumVal dim with
      | some v => decimal v
      | none => dim
    name.take (pos1 + 1) ++ (dim' ++ (name.drop (pos1 + 1)).drop length)
  else name

/-- The kind, type and name of a field whose offset is reached. -/
def classify (field : List Char) (size : Int) : FieldKind × List Char × List Char :=
  match splitLast (fun c => c == '\t' || c == ' ') field with
  | none => (.invalid, [], [])
  | some (type, name) =>
    if (find "__data_loc".toList type).isSome then (.dataLoc, type, name)
    else if "common_".toList.isPrefixOf name then (.common, type, name)
    else
      match find ['['] name with
      | some pos1 => (.regular, type, arrayName enumVal name pos1)
      | none => (.regular, adjustType type size, name)

/-- `_get_field_kind`: the kind, type and name of the field, and the new `last_offset`.
    `enumVal` is `get_enum_val_from_btf`. -/
def getFieldKind (line : List Char) (lastOffset : Int) :
    Option ((FieldKind × List Char × List Char) × Int) := do
  match ← scanLine line with
  | none => return ((.invalid, [], []), lastOffset)
  | some d =>
    if lastOffset < d.offset then return ((.pad, [], []), toInt32 (lastOffset + 1))
    else return (classify enumVal d.field d.size, toInt32 (d.offset + d.size))

/-! ### The struct -/

/-- A member of a struct: a type and a declarator. -/
structure Member where
  type : List Char
  name : List Char
  deriving DecidableEq, Repr

/-- A line of the struct. -/
def Member.text (m : Member) : List Char := '\t' :: (m.type ++ ' ' :: (m.name ++ [';', '\n']))

/-- The member that stands for the first eight bytes. -/
def doNotUse : Member := ⟨"u64".toList, "__do_not_use__".toList⟩

/-- The member that stands for a byte of the common fields. -/
def placeholder (offset : Int) : Member :=
  ⟨"char".toList, "__do_not_use__".toList ++ decimal offset⟩

/-- A byte of padding. -/
def padding (offset : Int) : Member := ⟨"char".toList, "__pad_".toList ++ decimal offset⟩

/-- The place of a string elsewhere in the record. -/
def dataLoc (name : List Char) : Member := ⟨"int".toList, "data_loc_".toList ++ name⟩

/-- `tp_struct`, `last_offset` and `common_offset`. -/
structure TpState where
  text : List Char
  lastOffset : Int
  commonOffset : Int
  deriving DecidableEq, Repr

/-- The loop over `common_offset`. -/
def fillCommon : Nat → Int → List Char
  | 0, _ => []
  | n + 1, commonOffset => (placeholder commonOffset).text ++ fillCommon n (commonOffset + 1)

/-- The inner loop of `parse_tracepoint`: a line until it is not padded any more. -/
def lineLoop (enumVal : List Char → Option Int) (line : List Char) :
    Nat → TpState → Res (Option TpState)
  | 0, _ => .error .outOfFuel
  | n + 1, s =>
    match getFieldKind enumVal line s.lastOffset with
    | none => .ok none
    | some ((kind, type, name), last) =>
      match kind with
      | .invalid => .ok (some { s with lastOffset := last })
      | .common => .ok (some ⟨s.text ++ fillCommon (last - s.commonOffset).toNat s.commonOffset,
          last, max s.commonOffset last⟩)
      | .dataLoc => .ok (some { s with text := s.text ++ (dataLoc name).text, lastOffset := last })
      | .regular =>
        .ok (some { s with text := s.text ++ (Member.mk type name).text, lastOffset := last })
      | .pad => lineLoop enumVal line n
          { s with text := s.text ++ (padding (last - 1)).text, lastOffset := last }

/-- More iterations than there are values of `last_offset`. -/
def lineFuel : Nat := 2 ^ 32 + 1

/-- The outer loop of `parse_tracepoint`. -/
def parseLines (enumVal : List Char → Option Int) :
    List (List Char) → TpState → Res (Option TpState)
  | [], s => .ok (some s)
  | l :: ls, s => do
    match ← lineLoop enumVal l lineFuel s with
    | none => return none
    | some s => parseLines enumVal ls s

/-- The first line of the struct. -/
def header (category event : List Char) : List Char :=
  "struct tracepoint__".toList ++ (category ++ ("__".toList ++ (event ++ " \x7b\n".toList)))

/-- `parse_tracepoint`. -/
def parseTracepoint (input category event : List Char) : Res (Option (List Char)) := do
  let s := ⟨header category event ++ doNotUse.text, 0, 8⟩
  match ← parseLines enumVal (getlines input) s with
  | none => return none
  | some s => return some (s.text ++ "\x7d;\n".toList)

end Bcc.Tracepoint
