import Bcc.Lua.Slots

namespace Bcc.Lua

open Bpf CText Function

/-!
# The Lua compiler — registers and straight-line code

* `regAlloc`, `vset`, `vreg`, `vcopy` — the part of `create_emitter` that assigns registers;
* `emit` — the bytecodes that have no effect on control flow.

An assertion of the compiler that fails, and the use of `nil`, is a `Fault`.
-/

/-- The order in which `pairs` visits a table: any order of the slots and the two slots for
    temporary values behind them.  Slots without an entry are passed over. -/
structure Order (stackslots : Nat) where
  visit : Table → List Nat
  perm : ∀ V, (visit V).Perm (List.range (stackslots + 2))

/-- `V` and the code that was emitted. -/
structure Emitter where
  V : Table
  code : List Insn

namespace Emitter

variable (s : Emitter)

/-- `code.pc`. -/
def pc : Nat := (s.code.map Insn.size).sum

def emit (i : Insn) : Emitter := { s with code := s.code ++ [i] }

/-- Assignment to fields of an entry. -/
def modify (x : Nat) (f : VInfo → VInfo) : Emitter :=
  { s with V := update s.V x ((s.V x).map f) }

theorem modify_V (x : Nat) (f : VInfo → VInfo) :
    (s.modify x f).V = update s.V x ((s.V x).map f) := rfl

/-- Code is only added. -/
theorem pc_le {s s' : Emitter} {c : List Insn} (h : s'.code = s.code ++ c) :
    s.pc - 1 ≤ s'.pc - 1 := by
  rw [pc, pc, h, List.map_append, List.sum_append]
  omega

end Emitter

/-! ### Registers -/

/-- The stack slot of a variable: `(var + 1) * ffi.sizeof('uint64_t')`. -/
def spillSlot (var : Nat) : Nat := (var + 1) * 8

def regSpill (s : Emitter) (var : Nat) : Res Emitter :=
  match s.V var with
  | none => .error .absentValue
  | some v =>
    match v.reg with
    | none => .error .assertion
    | some r => .ok
      { V := update s.V var (some { v with spill := some (spillSlot var), reg := none })
        code := s.code ++ [.stx (spillSlot var) r] }

section Alloc

variable {stackslots : Nat} (o : Order stackslots)

/-- A bit of `used`: some variable has the register. -/
def named (V : Table) (r : Nat) : Bool :=
  (o.visit V).any fun k => (V k).any fun v => v.reg == some r

/-- The variable that has the register and is not a copy. -/
def occupant (V : Table) (r : Nat) : Option Nat :=
  (o.visit V).find? fun k => (V k).any fun v => v.reg == some r && v.shadow.isNone

/-- The loop of `reg_alloc` that looks for the least recently used register: `last` and
    `last_seen` after one more variable. -/
def older (V : Table) (acc : Option Nat × Nat) (k : Nat) : Option Nat × Nat :=
  match V k with
  | none => acc
  | some v =>
    if v.reg.isSome then
      match v.liveTo with
      | none => (some k, acc.2)
      | some t => if t < acc.2 then (some k, t) else acc
    else acc

def leastRecent (V : Table) : Option Nat := ((o.visit V).foldl (older V) (none, 0xffff)).1

def regAlloc (s : Emitter) : Option Nat → Res (Nat × Emitter)
  | some r =>
    match occupant o s.V r with
    | none => .ok (r, s)
    | some k => do return (r, ← regSpill s k)
  | none =>
    if !named o s.V 7 then .ok (7, s)
    else if !named o s.V 8 then .ok (8, s)
    else if !named o s.V 9 then .ok (9, s)
    else
      match leastRecent o s.V with
      | none => .error .assertion
      | some k =>
        match (s.V k).bind VInfo.reg with
        | none => .error .assertion
        | some r => do return (r, ← regSpill s k)

end Alloc

/-! ### Variables -/

/-- The copies of a variable that is about to be overwritten take its register. -/
def handOver (V : Table) (var : Nat) : Table :=
  match (V var).bind VInfo.reg with
  | none => V
  | some r => fun y => (V y).map fun v =>
    if v.shadow = some var then { v with reg := some r, shadow := none } else v

/-- The type of a new variable. -/
def vsetType (const : Option Const) (vtype : Option CType) : Option CType :=
  match vtype, const with
  | none, some (.cdata _) => some (.bytes 8)
  | vtype, _ => vtype

def vset (s : Emitter) (var : Nat) (reg : Option Nat) (const : Option Const)
    (vtype : Option CType) : Emitter :=
  { s with
    V := update (handOver s.V var) var
      (some ⟨reg, none, const, none, vsetType const vtype, none⟩) }

/-- The code that loads a constant, by its type. -/
def constCode (r : Nat) (type : Option CType) : Const → Res (List Insn)
  | .proxy access => .ok [.movImm r access.off]
  | .num n =>
    -- `bit.rshift` looks at 32 bits of a number only
    if type = some (.bytes 8) then .ok [.ldImm r (BitVec.ofInt 32 n) 0] else .ok [.movImm r n]
  | .cdata w =>
    if type = some (.bytes 8) then .ok [.ldImm r (w.setWidth 32) ((w >>> 32).setWidth 32)]
    else .ok [.movImm r w.toInt]
  | .other _ => .error .assertion

/-- The part of `vreg` that loads the register: the code, and the entry and the type after it. -/
def loadFrom (r : Nat) (src v : VInfo) (vtype : Option CType) :
    Res (List Insn × VInfo × Option CType) :=
  match src.reg, src.spill, src.const with
  | some q, _, _ => .ok ([.mov r q], v, vtype)
  | none, some slot, _ => .ok ([.ldx r slot], { v with spill := none }, vtype)
  | none, none, some c => do
    let code ← constCode r (vtype.or src.type) c
    return (code, if c.isProxy then v else { v with const := none }, vtype.or src.type)
  | none, none, none => .error .assertion

/-- The entry of a variable that was brought into a register. -/
def VInfo.inReg (v : VInfo) (r : Nat) (vtype : Option CType) : VInfo :=
  { v with reg := some r, shadow := none, type := vtype.or v.type }

/-- The part of `vreg` behind `reg_alloc`. -/
def settle (stackslots : Nat) (s : Emitter) (var r : Nat) (reserve : Bool)
    (vtype : Option CType) : Res Emitter :=
  match s.V var with
  | none => .error .absentValue
  | some v => do
    let src ← follow s.V (stackslots + 3) var
    let (code, v, vtype) ← if reserve then .ok ([], v, vtype) else loadFrom r src v vtype
    return ⟨update s.V var (some (v.inReg r vtype)), s.code ++ code⟩

section Variables

variable {stackslots : Nat} (o : Order stackslots)

variable (s : Emitter)

def vreg (var : Nat) (reg : Option Nat) (reserve : Bool) (vtype : Option CType)
    : Res (Nat × Emitter) :=
  match s.V var with
  | none => .error .assertion
  | some v =>
    let s := s.modify var fun v => { v with liveTo := some (s.pc - 1) }
    match v.reg, reg, v.shadow with
    | some r, none, none => .ok (r, s)
    | _, _, _ => do
      let (r, s) ← regAlloc o s reg
      return (r, ← settle stackslots s var r reserve vtype)

def vcopy (dst src : Nat) : Res Emitter :=
  if dst = src then .ok s
  else
    match s.V src with
    | none => .error .absentValue
    | some v => .ok { s with
        V := update s.V dst (some ⟨v.reg, none, v.const, some src, v.type, none⟩) }

/-! ### Arithmetic -/

/-- `cdef.isimmconst`.  A constant without a type is refused too: `ffi.istype` raises. -/
def isimmconst (v : VInfo) : Bool :=
  match v.const, v.type with
  | some (.num _), some t => t ≠ .void
  | some (.cdata _), some t => t = .bytes 8
  | _, _ => false

/-- `const_expr`, for the operations that it has. -/
def constExpr (op : Alu) (c d : Const) : Res Const :=
  match op with
  | .add | .sub =>
    match c, d with
    | .num n, .num k => .ok (.num (if op = .add then n + k else n - k))
    | .num n, .cdata w => .ok (.cdata (op.eval (BitVec.ofInt 64 n) w))
    | .cdata w, .num n => .ok (.cdata (op.eval w (BitVec.ofInt 64 n)))
    | .cdata w, .cdata u => .ok (.cdata (op.eval w u))
    | _, _ => .error .assertion
  | _ => .error .absentValue

/-- The constant of a variable, unless it is a proxy. -/
def foldable (v : VInfo) : Option Const := v.const.filter fun c => !c.isProxy

def aluImm (s : Emitter) (dst a : Nat) (b : Int) (op : Alu) : Res Emitter :=
  match s.V a with
  | none => .error .absentValue
  | some v =>
    match foldable v with
    | some c => do
      if !isimmconst v then throw .assertion
      return vset s dst none (some (← constExpr op c (.num b))) none
    | none => do
      let s ← vcopy s dst a
      let (r, s) ← vreg o s dst none false none
      let s := s.modify dst fun w => { w with type := (s.V a).bind VInfo.type }
      return s.emit (.aluImm op r b)

/-- Both operands are constants. -/
def aluFold (dst a b : Nat) (v w : VInfo) (op : Alu) : Res Emitter := do
  if !isimmconst v || !isimmconst w then throw .assertion
  let s ← vcopy s dst a
  match (s.V a).bind VInfo.const, (s.V b).bind VInfo.const with
  | some c, some d => do
    let e ← constExpr op c d
    return s.modify dst fun w => { w with const := some e }
  | _, _ => .error .assertion

/-- The operands are in registers. -/
def aluVars (dst a b : Nat) (op : Alu) : Res Emitter := do
  let (src, s) ← vreg o s b none false none
  let s ← vcopy s dst a
  let (r, s) ← vreg o s dst none false none
  return s.emit (.alu op r src)

def aluReg (dst a b : Nat) (op : Alu) : Res Emitter :=
  match s.V a, s.V b with
  | some v, some w =>
    if (foldable v).isSome ∧ ¬ (w.const.any Const.isProxy) then aluFold s dst a b v w op
    else do
      let s ← aluVars o s dst a b op
      return s.modify stackslots fun v => { v with reg := none }
  | _, _ => .error .absentValue

/-- `ALU_IMM_NV`. -/
def aluImmNv (dst : Nat) (a : Int) (b : Nat) (op : Alu) : Res Emitter :=
  aluReg o (vset s (stackslots + 1) none (some (.num a)) none) dst (stackslots + 1) b op

/-! ### Loads -/

/-- The load of 1, 2 or 4 bytes of the packet into `R0`, on a little-endian host. -/
def emitLdAbs (w : Nat) (off : Int) : Emitter :=
  let s := s.emit (.ldAbs w off)
  if 1 < w then s.emit (.toBe 0 (w * 8)) else s

def ldAbs (dst w : Nat) (off : Int) : Res Emitter :=
  if w < 8 then do
    let (_, s) ← vreg o s dst (some 0) true (some (.bytes w))
    return emitLdAbs s w off
  else if w = 8 then do
    -- two loads of 4 bytes, combined
    let (_, s) ← vreg o s stackslots (some 0) true (some (.bytes 8))
    let s := emitLdAbs s 4 (off + 4)
    let s ← aluImm o s stackslots stackslots 32 .lsh
    let (_, s) ← vreg o s dst (some 0) true (some (.bytes 8))
    let s := emitLdAbs s 4 off
    let s ← aluReg o s dst dst stackslots .or
    return s.modify stackslots fun v => { v with reg := none }
  else .error .assertion

def ldInd (s : Emitter) (dst src w : Nat) (off : Int) : Res Emitter := do
  let (q, s) ← vreg o s src none false none
  let (_, s) ← vreg o s dst (some 0) true (some (.bytes w))
  let s := s.emit (.ldInd w q off)
  return if 1 < w then s.emit (.toBe 0 (w * 8)) else s

def ldMem (s : Emitter) (dst src w : Nat) (off : Int) : Res Emitter := do
  let (q, s) ← vreg o s src none false none
  let (r, s) ← vreg o s dst none true (some (.bytes w))
  return s.emit (.ldMem w r q off)

/-- `LOAD`, from proxies of packets and contexts; `const_width` has the four sizes. -/
def load (dst src : Nat) (off : Int) (w : Nat) : Res Emitter :=
  if w ∈ [1, 2, 4, 8] then do
    let s ← match (s.V src).bind VInfo.const with
      | some (.proxy (.abs base)) => ldAbs o s dst w (off + base)
      | some (.proxy .ind) => ldInd o s dst src w off
      | some (.proxy .mem) => ldMem o s dst src w off
      | _ => .error .assertion
    return s.modify dst fun v => { v with type := some (.bytes w), const := none }
  else .error .assertion

/-- `call_helper`. -/
def callHelper (dst h w : Nat) : Res Emitter := do
  let s := vset s dst none none none
  let (_, s) ← vreg o s dst (some 0) true (some (.bytes w))
  return (s.emit (.call h)).modify dst fun v => { v with const := none }

end Variables

/-! ### Bytecodes -/

/-- The bytecodes without control flow: constants, copies, sums and differences, loads of a field
    at some offset, and calls of helpers without arguments. -/
inductive Straight where
  | knum (a : Nat) (c : Int)
  | kshort (a : Nat) (d : Int)
  | kcdata (a : Nat) (c : Word)
  | kpri (a d : Nat)
  | kstr (a : Nat) (c : String)
  | gget (a : Nat) (value : Const)
  | mov (a d : Nat)
  | addvn (a b : Nat) (c : Int)
  | subvn (a b : Nat) (c : Int)
  | addnv (a b : Nat) (c : Int)
  | subnv (a b : Nat) (c : Int)
  | addvv (a b d : Nat)
  | subvv (a b d : Nat)
  | tget (a b : Nat) (off : Int) (w : Nat)
  | call (a h w : Nat)
  deriving DecidableEq, Repr

section Bytecodes

variable {stackslots : Nat} (o : Order stackslots)

/-- `TGETB` and `TGETS` on a proxy. -/
def tget (s : Emitter) (a b : Nat) (off : Int) (w : Nat) : Res Emitter :=
  load o (if a = b then s else vset s a none none none) a b off w

/-- The entries of `BC`. -/
def Straight.emit (s : Emitter) : Straight → Res Emitter
  | .knum a c => .ok (vset s a none (some (.num c))
      (some (.bytes (if c < 2147483648 then 4 else 8))))
  | .kshort a d => .ok (vset s a none (some (.num d)) (some (.bytes 2)))
  | .kcdata a c => .ok (vset s a none (some (.cdata c)) (some (.bytes 8)))
  | .kpri a d => .ok (vset s a none (some (.num (if d < 2 then 0 else 1)))
      (some (if d < 1 then .void else .bytes 1)))
  | .kstr a c => .ok (vset s a none (some (.other c)) (some (.bytes 0)))
  | .gget a value => .ok (vset s a none (some value) none)
  | .mov a d => vcopy s a d
  | .addvn a b c => aluImm o s a b c .add
  | .subvn a b c => aluImm o s a b c .sub
  | .addnv a b c => aluImm o s a b c .add
  | .subnv a b c => aluImmNv o s a c b .sub
  | .addvv a b d => aluReg o s a b d .add
  | .subvv a b d => aluReg o s a b d .sub
  | .tget a b off w => Lua.tget o s a b off w
  | .call a h w => callHelper o s a h w

/-- Bytecodes one after the other. -/
def compile (s : Emitter) (ops : List Straight) : Res Emitter := ops.foldlM (Straight.emit o) s

end Bytecodes

/-- The start of `create_emitter`: the context is in `R6`. -/
def start (stackslots : Nat) (params : Bool) : Emitter :=
  let s : Emitter := ⟨fun _ => none, [.mov 6 1]⟩
  let s := if params then vset s 0 (some 6) (some (.proxy .mem)) none else s
  vset (vset s stackslots none none none) (stackslots + 1) none none none

end Bcc.Lua
