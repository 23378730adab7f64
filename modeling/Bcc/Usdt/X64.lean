import Bcc.Usdt.Parser

namespace Bcc.Usdt.X64

open CText

/-!
# USDT — the x86-64 argument parser

* `parseExpr` — every sub-parser takes a position and returns one, a negative one (`-pos`) standing
  for a failure at `pos`, which cannot be told from a success at `0`.  The function is cut at its
  parenthesis and commas into `parseMemory`, `parseAddress`, `parseIndex` and `parseClose`;
* `parse` — as the source has it.
-/

/-- `ArgumentParser_x64::Register`. -/
inductive Register where
  | a | b | c | d | si | di | bp | sp | r8 | r9 | r10 | r11 | r12 | r13 | r14 | r15 | rip
  | xmm0 | xmm1 | xmm2 | xmm3 | xmm4 | xmm5 | xmm6 | xmm7 | xmm8 | xmm9 | xmm10 | xmm11 | xmm12
  | xmm13 | xmm14 | xmm15
  deriving DecidableEq, Repr

/-- `registers_`: name, register and size. -/
def registers : List (String × Register × Int) :=
  [ ("rax", .a, 8), ("eax", .a, 4), ("ax", .a, 2), ("al", .a, 1),
    ("rbx", .b, 8), ("ebx", .b, 4), ("bx", .b, 2), ("bl", .b, 1),
    ("rcx", .c, 8), ("ecx", .c, 4), ("cx", .c, 2), ("cl", .c, 1),
    ("rdx", .d, 8), ("edx", .d, 4), ("dx", .d, 2), ("dl", .d, 1),
    ("rsi", .si, 8), ("esi", .si, 4), ("si", .si, 2), ("sil", .si, 1),
    ("rdi", .di, 8), ("edi", .di, 4), ("di", .di, 2), ("dil", .di, 1),
    ("rbp", .bp, 8), ("ebp", .bp, 4), ("bp", .bp, 2), ("bpl", .bp, 1),
    ("rsp", .sp, 8), ("esp", .sp, 4), ("sp", .sp, 2), ("spl", .sp, 1),
    ("r8", .r8, 8), ("r8d", .r8, 4), ("r8w", .r8, 2), ("r8b", .r8, 1),
    ("r9", .r9, 8), ("r9d", .r9, 4), ("r9w", .r9, 2), ("r9b", .r9, 1),
    ("r10", .r10, 8), ("r10d", .r10, 4), ("r10w", .r10, 2), ("r10b", .r10, 1),
    ("r11", .r11, 8), ("r11d", .r11, 4), ("r11w", .r11, 2), ("r11b", .r11, 1),
    ("r12", .r12, 8), ("r12d", .r12, 4), ("r12w", .r12, 2), ("r12b", .r12, 1),
    ("r13", .r13, 8), ("r13d", .r13, 4), ("r13w", .r13, 2), ("r13b", .r13, 1),
    ("r14", .r14, 8), ("r14d", .r14, 4), ("r14w", .r14, 2), ("r14b", .r14, 1),
    ("r15", .r15, 8), ("r15d", .r15, 4), ("r15w", .r15, 2), ("r15b", .r15, 1),
    ("rip", .rip, 8), ("xmm0", .xmm0, 16), ("xmm1", .xmm1, 16), ("xmm2", .xmm2, 16),
    ("xmm3", .xmm3, 16), ("xmm4", .xmm4, 16), ("xmm5", .xmm5, 16), ("xmm6", .xmm6, 16),
    ("xmm7", .xmm7, 16), ("xmm8", .xmm8, 16), ("xmm9", .xmm9, 16), ("xmm10", .xmm10, 16),
    ("xmm11", .xmm11, 16), ("xmm12", .xmm12, 16), ("xmm13", .xmm13, 16), ("xmm14", .xmm14, 16),
    ("xmm15", .xmm15, 16) ]

/-- `reg_to_name`: the field of `struct pt_regs`. -/
def regToName : Register → String
  | .a => "ax" | .b => "bx" | .c => "cx" | .d => "dx" | .si => "si" | .di => "di" | .bp => "bp"
  | .sp => "sp" | .r8 => "r8" | .r9 => "r9" | .r10 => "r10" | .r11 => "r11" | .r12 => "r12"
  | .r13 => "r13" | .r14 => "r14" | .r15 => "r15" | .rip => "ip" | .xmm0 => "xmm0"
  | .xmm1 => "xmm1" | .xmm2 => "xmm2" | .xmm3 => "xmm3" | .xmm4 => "xmm4" | .xmm5 => "xmm5"
  | .xmm6 => "xmm6" | .xmm7 => "xmm7" | .xmm8 => "xmm8" | .xmm9 => "xmm9" | .xmm10 => "xmm10"
  | .xmm11 => "xmm11" | .xmm12 => "xmm12" | .xmm13 => "xmm13" | .xmm14 => "xmm14"
  | .xmm15 => "xmm15"

/-- `normalize_register`: the normalised name and the size. -/
def normalizeRegister (reg : String) : Option (String × Int) :=
  (registers.find? (fun e => e.1 == reg)).map (fun e => (regToName e.2.1, e.2.2))

/-! ### The parser of the source -/

/-- A character that continues an identifier. -/
def isIdentChar (c : Char) : Bool := c.isAlphanum || c == '_'

variable (s : CStr) (pos : Nat) (dest : Argument)

/-- `parse_identifier`. -/
def parseIdentifier (result : Option String) : Res (Nat × Option String) := do
  let c ← s.read pos
  if c.isAlpha || c == '_' then
    let stop ← s.skipWhile isIdentChar (pos + 1)
    return (stop, some (s.substr pos (stop - pos)))
  else return (pos, result)

/-- `parse_register`: the position, and the out-parameters `name` and `size` (left alone on a
    failure). -/
def parseRegister : Res (Int × String × Int) := do
  let start := pos + 1
  if (← s.read (start - 1)) != '%' then return (-(start : Int), "", 0)
  else
    let stop ← s.skipWhile Char.isAlphanum start
    match normalizeRegister (s.substr start (stop - start)) with
    | none => return (-(start : Int), "", 0)
    | some (name, size) => return (stop, name, size)

/-- What `parse_base_register` stores: the name, and the size unless there is one. -/
def withBase (name : String) (size : Int) : Argument :=
  { dest with
    baseRegisterName := some name
    argSize := some (dest.argSize.getD size) }

/-- `parse_base_register`. -/
def parseBaseRegister : Res (Int × Argument) := do
  let (res, name, size) ← parseRegister s pos
  if res < 0 then return (res, dest) else return (res, withBase dest name size)

/-- `parse_index_register`. -/
def parseIndexRegister : Res (Int × Argument) := do
  let (res, name, _) ← parseRegister s pos
  if res < 0 then return (res, dest) else return (res, { dest with indexRegisterName := some name })

/-- `parse_scale`. -/
def parseScale : Res (Nat × Argument) := do
  let (stop, scale) ← parseInt s pos dest.scale
  return (stop, { dest with scale := scale })

/-- The end of `parse_expr`: the closing parenthesis. -/
def parseClose : Res (Int × Argument) := do
  if (← s.read pos) == ')' then return ((pos : Int) + 1, dest) else return (-(pos : Int), dest)

/-- `parse_expr` after the comma that follows the base register. -/
def parseIndex : Res (Int × Argument) := do
  let (res, dest) ← parseIndexRegister s pos dest
  if res < 0 then return (res, dest)
  else if (← s.read res.toNat) == ',' then
    let (pos, dest) ← parseScale s (res.toNat + 1) dest
    parseClose s pos dest
  else parseClose s res.toNat dest

/-- `parse_expr` from the opening parenthesis on. -/
def parseAddress : Res (Int × Argument) := do
  if (← s.read pos) != '(' then return (-(pos : Int), dest)
  else
    let (res, dest) ← parseBaseRegister s (pos + 1) dest
    if res < 0 then return (res, dest)
    else if (← s.read res.toNat) == ',' then parseIndex s (res.toNat + 1) dest
    else parseClose s res.toNat dest

/-- `parse_expr` for an operand in memory: displacement and symbol in either order, then the
    address. -/
def parseMemory : Res (Int × Argument) := do
  let c ← s.read pos
  if c.isDigit || c == '-' then
    let (pos, offset) ← parseInt s pos dest.derefOffset
    let dest := { dest with derefOffset := offset }
    if (← s.read pos) == '+' then
      let (pos, ident) ← parseIdentifier s (pos + 1) dest.derefIdent
      let dest := { dest with derefIdent := ident }
      if ident.isNone then return (-(pos : Int), dest) else parseAddress s pos dest
    else parseAddress s pos dest
  else
    let (pos, ident) ← parseIdentifier s pos dest.derefIdent
    let dest := { dest with derefOffset := some 0, derefIdent := ident }
    let c ← s.read pos
    if c == '+' || c == '-' then
      let (pos, offset) ← parseInt s pos dest.derefOffset
      parseAddress s pos { dest with derefOffset := offset }
    else parseAddress s pos dest

/-- `parse_expr`. -/
def parseExpr : Res (Int × Argument) := do
  let c ← s.read pos
  if c == '$' then
    let (stop, constant) ← parseLongLong s (pos + 1) dest.constant
    return (stop, { dest with constant := constant })
  else if c == '%' then parseBaseRegister s pos dest
  else parseMemory s pos dest

/-- `parse_1`: a leading number is the size only if `@` follows it. -/
def parse1 : Res (Int × Argument) := do
  let c ← s.read pos
  if c.isDigit || c == '-' then
    let (m, asize) ← parseInt s pos none
    if (← s.read m) == '@' && asize.isSome then
      parseExpr s (m + 1) { dest with argSize := asize }
    else parseExpr s pos dest
  else parseExpr s pos dest

/-- `ArgumentParser_x64::parse`, with the cursor at `curPos`. -/
def parse (curPos : Nat) : Res ParseOut := do
  if ← done s curPos then return ⟨.rejected, dest, curPos⟩
  else
    let (res, dest) ← parse1 s curPos dest
    if res < 0 then rejectAt s dest ((-res).toNat + 1)
    else
      let c ← s.read res.toNat
      if !isspace c && c != nul then rejectAt s dest res.toNat
      else acceptAt s dest res.toNat

end Bcc.Usdt.X64
