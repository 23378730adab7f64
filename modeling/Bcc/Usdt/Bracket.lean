import Bcc.Usdt.Parser

namespace Bcc.Usdt

open CText

/-!
# USDT — the aarch64 and loongarch64 argument parsers

Both parsers read `[-]<size>@` and then a register, a bracketed memory operand or a
constant.  They differ in the register syntax, and `parse_mem` of loongarch64 has no branch
for a register directly before the closing bracket.

* `parseRegisterOf`, `parseSize`, `parseOffset`, `closeMem`, `parseOf` — the shared bodies;
* `Aarch64.parse`, `Loongarch64.parse` — the two members.
-/

/-! ### The shared bodies -/

/-- `arg_[pos] == m[0] && arg_[pos + 1] == m[1] && …`, read from left to right. -/
def startsAt (s : CStr) : Nat → List Char → Res Bool
  | _, [] => return true
  | pos, x :: xs => do
    let c ← s.read pos
    if c == x then startsAt s (pos + 1) xs else return false

/-- The name of register `n`, where number `sp` is the stack pointer. -/
def registerName (sp n : Int) : String :=
  if n = sp then "sp" else "regs[" ++ toString n ++ "]"

/-- `parse_register`: the new position and the name, or the cursor that `error_return` left.
    `marker` is what stands before the number of a register. -/
def parseRegisterOf (marker : List Char) (sp : Int) (s : CStr) (pos : Nat) :
    Res (Except Nat (Nat × String)) := do
  if ← startsAt s pos marker then
    let start := pos + marker.length
    let (newPos, regNum) ← parseInt s start none
    if newPos = start then return .error (← errorReturn s start)
    match regNum with
    | none => throw .absentValue
    | some n =>
        if n < 0 ∨ 31 < n then return .error (← errorReturn s start)
        else return .ok (newPos, registerName sp n)
  else if ← startsAt s pos ['s', 'p'] then return .ok (pos + 2, "sp")
  else return .error (← errorReturn s pos)

/-- `parse_size`: the new position and the size, or the cursor that `error_return` left. -/
def parseSize (s : CStr) (pos : Nat) : Res (Except Nat (Nat × Int)) := do
  let (newPos, argSize) ← parseInt s pos none
  if newPos = pos then return .error (← errorReturn s pos)
  match argSize with
  | none => throw .absentValue
  | some n =>
      if n.natAbs ∈ [1, 2, 4, 8] then return .ok (newPos, n)
      else return .error (← errorReturn s pos)

/-- How a part of `parse` that fills the argument ends: with a new position, or with the
    cursor that `error_return` left. -/
inductive Filled where
  | go (newPos : Nat) (dest : Argument)
  | fail (curPos : Nat) (dest : Argument)
  deriving DecidableEq, Repr

/-- The branch of `parse_mem` behind the comma at `comma`: a displacement, or an index
    register. -/
def parseOffset (parseRegister : CStr → Nat → Res (Except Nat (Nat × String))) (s : CStr)
    (comma : Nat) (dest : Argument) : Res Filled := do
  let pos := comma + 1
  let (newPos, offset) ← parseInt s pos dest.derefOffset
  let dest := { dest with derefOffset := offset }
  if newPos = pos then
    -- not a number, so it should be a register
    let pos ← skipWhitespaceFrom s pos
    match ← parseRegister s pos with
    | .error _ => return .fail (← errorReturn s pos) dest
    | .ok (newPos, name) =>
        return .go newPos
          { dest with indexRegisterName := some name, scale := some 1, derefOffset := some 0 }
  else return .go newPos dest

/-- The end of `parse_mem`: the closing bracket. -/
def closeMem (s : CStr) : Filled → Res Filled
  | .fail q dest => return .fail q dest
  | .go newPos dest => do
    let c ← s.read newPos
    if c != ']' then return .fail (← errorReturn s newPos) dest
    else return .go (newPos + 1) dest

/-- `parse`, for a register syntax that starts with the characters `startsReg`. -/
def parseOf (startsReg : Char → Bool)
    (parseRegister : CStr → Nat → Res (Except Nat (Nat × String)))
    (parseMem : CStr → Nat → Argument → Res Filled)
    (s : CStr) (dest : Argument) (curPos : Nat) : Res ParseOut := do
  if ← done s curPos then return ⟨.rejected, dest, curPos⟩
  match ← parseSize s curPos with
  | .error q => return ⟨.rejected, dest, q⟩
  | .ok (newPos, argSize) =>
    let dest := { dest with argSize := some argSize }
    -- make sure '@' is present
    let c ← s.read newPos
    if c != '@' then rejectAt s dest newPos
    else
      let pos := newPos + 1
      let c ← s.read pos
      if startsReg c then
        match ← parseRegister s pos with
        | .error q => return ⟨.rejected, dest, q⟩
        | .ok (newPos, name) => acceptAt s { dest with baseRegisterName := some name } newPos
      else if c == '[' then
        match ← parseMem s (pos + 1) dest with
        | .fail q dest => return ⟨.rejected, dest, q⟩
        | .go newPos dest => acceptAt s dest newPos
      else
        let (newPos, val) ← parseLongLong s pos none
        if newPos = pos then rejectAt s dest pos
        else acceptAt s { dest with constant := val } newPos

/-! ### The two members -/

namespace Aarch64

/-- `x<num>` or `sp`; number 31 is the stack pointer. -/
def parseRegister : CStr → Nat → Res (Except Nat (Nat × String)) := parseRegisterOf ['x'] 31

/-- `parse_mem`, from behind the opening bracket. -/
def parseMem (s : CStr) (pos : Nat) (dest : Argument) : Res Filled := do
  match ← parseRegister s pos with
  | .error q => return .fail q dest
  | .ok (newPos, base) =>
    let dest := { dest with baseRegisterName := some base }
    let c ← s.read newPos
    if c == ',' then closeMem s (← parseOffset parseRegister s newPos dest)
    else if c == ']' then closeMem s (.go newPos { dest with derefOffset := some 0 })
    else closeMem s (.go newPos dest)

/-- `ArgumentParser_aarch64::parse`. -/
def parse : CStr → Argument → Nat → Res ParseOut :=
  parseOf (fun c => c == 'x' || c == 's') parseRegister parseMem

end Aarch64

namespace Loongarch64

/-- `$r<num>` or `sp`; number 3 is the stack pointer. -/
def parseRegister : CStr → Nat → Res (Except Nat (Nat × String)) :=
  parseRegisterOf ['$', 'r'] 3

/-- `parse_mem`, from behind the opening bracket.  Without a comma the displacement stays
    unset. -/
def parseMem (s : CStr) (pos : Nat) (dest : Argument) : Res Filled := do
  match ← parseRegister s pos with
  | .error q => return .fail q dest
  | .ok (newPos, base) =>
    let dest := { dest with baseRegisterName := some base }
    let c ← s.read newPos
    if c == ',' then closeMem s (← parseOffset parseRegister s newPos dest)
    else closeMem s (.go newPos dest)

/-- `ArgumentParser_loongarch64::parse`. -/
def parse : CStr → Argument → Nat → Res ParseOut :=
  parseOf (fun c => c == '$' || c == 's') parseRegister parseMem

end Loongarch64

end Bcc.Usdt
