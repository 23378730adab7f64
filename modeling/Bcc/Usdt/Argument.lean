import Bcc.Text.Number
import Mathlib.Data.Nat.Log

namespace Bcc.Usdt

open CText

/-!
# USDT — a probe argument and the code that reads it

* `Argument` — a parsed operand, whose optional fields the parser of an architecture fills;
* `assignToLocal` — turns it into a C statement and dereferences some of them without a check;
* `assignToLocal_fault_iff` — when that goes wrong.
-/

/-- `USDT::Argument`: an operand, as the parsers leave it. -/
structure Argument where
  argSize : Option Int
  constant : Option Int
  derefOffset : Option Int
  derefIdent : Option String
  baseRegisterName : Option String
  indexRegisterName : Option String
  scale : Option Int
  deriving DecidableEq, Repr

namespace Argument

/-- `Argument::Argument()`: every field is absent. -/
def empty : Argument := ⟨none, none, none, none, none, none, none⟩

/-- `arg_size()`: the size of a pointer unless the operand says otherwise. -/
def size (a : Argument) : Int := a.argSize.getD 8

end Argument

/-! ### C types -/

/-- The fixed-width types of `type_names`. -/
inductive CType where
  | int8 | int16 | int32 | int64 | uint8 | uint16 | uint32 | uint64
  deriving DecidableEq, Repr

namespace CType

/-- The type's name in C. -/
def name : CType → String
  | int8 => "int8_t" | int16 => "int16_t" | int32 => "int32_t" | int64 => "int64_t"
  | uint8 => "uint8_t" | uint16 => "uint16_t" | uint32 => "uint32_t" | uint64 => "uint64_t"

/-- `sizeof` the type, in bytes. -/
def sizeof : CType → Nat
  | int8 | uint8 => 1
  | int16 | uint16 => 2
  | int32 | uint32 => 4
  | int64 | uint64 => 8

/-- Whether the type is signed. -/
def signed : CType → Bool
  | int8 | int16 | int32 | int64 => true
  | uint8 | uint16 | uint32 | uint64 => false

end CType

/-- A row of the table `type_names`. -/
def typeNames (signed : Bool) : List CType :=
  if signed then [.int8, .int16, .int32, .int64] else [.uint8, .uint16, .uint32, .uint64]

namespace Argument

/-- `ctype_name()`: the row is chosen by the sign of the size, the column is
    `log2(abs(size))`.  A column outside the table is an out-of-bounds read; so is size `0`,
    whose logarithm is no table index at all. -/
def ctypeName (a : Argument) : Res CType :=
  if a.size = 0 then .error .outOfBounds
  else match (typeNames (a.size < 0))[a.size.natAbs.log2]? with
    | some t => .ok t
    | none => .error .outOfBounds

/-- The column of the table is the logarithm of the size in bytes. -/
theorem sizeof_of_ctypeName {a : Argument} {t : CType} (h : a.ctypeName = .ok t) :
    t.sizeof = 2 ^ a.size.natAbs.log2 := by
  have htable : ∀ signed i, (typeNames signed)[i]? = some t → t.sizeof = 2 ^ i := by
    intro signed i hi
    match signed, i with
    | true, 0 | true, 1 | true, 2 | true, 3
    | false, 0 | false, 1 | false, 2 | false, 3 =>
      cases hi
      rfl
    | true, _ + 4 | false, _ + 4 => simp [typeNames] at hi
  unfold ctypeName at h
  split at h
  · cases h
  · split at h
    · next t' ht =>
      cases h
      exact htable _ _ ht
    · cases h

end Argument

/-- `ctype()` of an operand of a given size: unlike `ctypeName` this prints a width for any
    size. -/
def ctype (size : Int) : String :=
  let s := toInt32 (size * 8)
  if s < 0 then "int" ++ toString (-s) ++ "_t" else "uint" ++ toString s ++ "_t"

/-! ### The emitted statement -/

/-- A statement emitted by `assign_to_local`. -/
inductive Assign where
  /-- The operand is a constant. -/
  | const (value : Int)
  /-- An `xmm` register, which cannot be read: zero is stored. -/
  | zero
  /-- The value of a register. -/
  | reg (name : String)
  /-- `bpf_probe_read_user` of `base + off` or `base + off + index * scale`, as `ctype size`. -/
  | readUser (base : String) (off : Int) (index : Option (String × Int)) (size : Int)
  /-- `bpf_probe_read_user` of a global symbol's address plus `off`, as `ctype size`. -/
  | readGlobal (addr : UInt64) (off : Int) (size : Int)
  deriving DecidableEq, Repr

/-- The address of a global symbol: binary, symbol name and (if there is one) process, as
    `get_global_address` looks it up. -/
abbrev GlobalSymbols := String → String → Option Int → Option UInt64

variable (globals : GlobalSymbols) (a : Argument)

/-- `assign_to_local`: the statement that reads the operand; `none` where the function
    returns false. -/
def Argument.assignToLocal (binpath : String) (pid : Option Int) : Res (Option Assign) :=
  match a.constant, a.derefOffset, a.derefIdent with
  | some c, _, _ => .ok (some (.const c))
  | none, none, _ => do
      let base ← deref a.baseRegisterName
      -- xmm registers cannot be read from BPF
      if base.toList.take 3 = ['x', 'm', 'm'] then return some .zero else return some (.reg base)
  | none, some off, none => do
      let base ← deref a.baseRegisterName
      return some (.readUser base off
        (a.indexRegisterName.map (fun idx => (idx, a.scale.getD 1))) a.size)
  | none, some off, some ident => do
      let base ← deref a.baseRegisterName
      if base = "ip" then
        return (globals binpath ident pid).map (fun addr => .readGlobal addr off a.size)
      else return none

/-! ### Well-formed arguments -/

/-- What a consumer of arguments relies on. -/
structure Argument.WellFormed (a : Argument) : Prop where
  /-- Exactly one of constant and base register is present. -/
  one : a.constant.isSome ≠ a.baseRegisterName.isSome
  /-- An index register or a symbol comes with a displacement. -/
  deref : a.indexRegisterName.isSome ∨ a.derefIdent.isSome → a.derefOffset.isSome

instance : Decidable a.WellFormed :=
  decidable_of_iff ((a.constant.isSome ≠ a.baseRegisterName.isSome) ∧
      (a.indexRegisterName.isSome ∨ a.derefIdent.isSome → a.derefOffset.isSome))
    ⟨fun h => ⟨h.1, h.2⟩, fun h => ⟨h.1, h.2⟩⟩

/-- `assign_to_local` dereferences an absent optional exactly when neither a constant nor a
    base register is present. -/
theorem assignToLocal_fault_iff (binpath : String) (pid : Option Int) :
    (∃ f, a.assignToLocal globals binpath pid = .error f)
      ↔ a.constant = none ∧ a.baseRegisterName = none := by
  obtain ⟨sz, c, off, ident, base, idx, sc⟩ := a
  cases c with
  | some c => simp [Argument.assignToLocal]
  | none =>
    cases base with
    | none =>
      cases off <;> cases ident <;>
        simp [Argument.assignToLocal, deref]
    | some b =>
      cases off <;> cases ident <;>
        simp only [Argument.assignToLocal, deref, bind, Except.bind]
      all_goals (try split) <;> simp

/-- No other fault is possible. -/
theorem assignToLocal_error {globals : GlobalSymbols} {a : Argument} {binpath : String}
    {pid : Option Int} {e : Fault} (h : a.assignToLocal globals binpath pid = .error e) :
    e = .absentValue := by
  unfold Argument.assignToLocal at h
  split at h
  · cases h
  all_goals
    rcases bind_eq_error_iff.mp h with h | ⟨base, -, h⟩
    · exact (deref_eq_error_iff.mp h).1
    · (try split at h) <;> cases h

/-- On a well-formed argument `assign_to_local` returns. -/
theorem assignToLocal_of_wellFormed {a : Argument} (h : a.WellFormed) (binpath : String)
    (pid : Option Int) :
    ∃ r, a.assignToLocal globals binpath pid = .ok r := by
  cases hr : a.assignToLocal globals binpath pid with
  | ok r => exact ⟨r, rfl⟩
  | error f =>
    obtain ⟨h1, h2⟩ := (assignToLocal_fault_iff globals a binpath pid).mp ⟨f, hr⟩
    exact absurd h.one (by simp [h1, h2])

end Bcc.Usdt
