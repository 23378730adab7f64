import Mathlib.Algebra.Order.Ring.Int
import Mathlib.Logic.Function.Basic

namespace Bpf

/-!
# BPF — a machine for code without loops

* `Insn` — the instructions that a compiler for scalar values emits;
* `World` — what comes from outside: the packet, memory behind pointers, the results of helpers and
  the registers a call scratches;
* `exec`, `exec_append` — what code does to the registers and to the stack.
-/

/-- The content of a register. -/
abbrev Word := BitVec 64

/-- Operations of `ALU64`. -/
inductive Alu where
  | add
  | sub
  | lsh
  | or
  deriving DecidableEq, Repr

def Alu.eval : Alu → Word → Word → Word
  | .add, x, y => x + y
  | .sub, x, y => x - y
  | .lsh, x, y => x <<< (y % 64)
  | .or, x, y => x ||| y

/-- Conditions of jumps, on unsigned values. -/
inductive Cond where
  | jeq
  | jne
  | jgt
  | jge
  deriving DecidableEq, Repr

def Cond.eval : Cond → Word → Word → Bool
  | .jeq, x, y => x == y
  | .jne, x, y => x != y
  | .jgt, x, y => y < x
  | .jge, x, y => y ≤ x

/-- The value of a 32-bit immediate. -/
def imm32 (imm : Int) : Word := (BitVec.ofInt 32 imm).signExtend 64

/-- Instructions; stack slots are addressed by their distance below `R10`. -/
inductive Insn where
  | mov (dst src : Nat)
  | movImm (dst : Nat) (imm : Int)
  /-- The load of a 64-bit immediate, which takes the place of two instructions. -/
  | ldImm (dst : Nat) (lo hi : BitVec 32)
  | alu (op : Alu) (dst src : Nat)
  | aluImm (op : Alu) (dst : Nat) (imm : Int)
  | ldx (dst slot : Nat)
  | stx (slot src : Nat)
  | ldAbs (width : Nat) (off : Int)
  | ldInd (width src : Nat) (off : Int)
  | ldMem (width dst src : Nat) (off : Int)
  | toBe (dst bits : Nat)
  | call (helper : Nat)
  | jmp (cond : Cond) (dst src : Nat) (off : Int)
  | jmpImm (cond : Cond) (dst : Nat) (imm : Int) (off : Int)
  | exit
  deriving DecidableEq, Repr

/-- How many places of the program an instruction takes. -/
def Insn.size : Insn → Nat
  | .ldImm .. => 2
  | _ => 1

/-! ### Running code -/

/-- What is outside of the machine. -/
structure World where
  packet : Nat → Word → Word
  memory : Nat → Word → Word
  /-- Conversion to big endian, by the number of bits. -/
  toBe : Nat → Word → Word
  /-- The result of the `k`-th call. -/
  helper : Nat → Nat → Word
  /-- What a call leaves in a register that it may scratch. -/
  scratch : Nat → Nat → Word

structure Machine where
  regs : Nat → Word
  stack : Nat → Word
  calls : Nat

namespace Machine

variable (m : Machine)

def set (r : Nat) (x : Word) : Machine := { m with regs := Function.update m.regs r x }

def store (slot : Nat) (x : Word) : Machine := { m with stack := Function.update m.stack slot x }

/-- `R1` to `R5` do not survive a call, nor a load from the packet. -/
def scratched (w : World) : Machine :=
  { m with regs := fun r => if 1 ≤ r ∧ r ≤ 5 then w.scratch m.calls r else m.regs r }

@[simp] theorem set_regs_self (r : Nat) (x : Word) : (m.set r x).regs r = x :=
  Function.update_self ..

theorem set_regs_of_ne {q r : Nat} (h : q ≠ r) (x : Word) : (m.set r x).regs q = m.regs q :=
  Function.update_of_ne h ..

@[simp] theorem set_stack (r : Nat) (x : Word) : (m.set r x).stack = m.stack := rfl

@[simp] theorem set_calls (r : Nat) (x : Word) : (m.set r x).calls = m.calls := rfl

@[simp] theorem store_stack_self (slot : Nat) (x : Word) : (m.store slot x).stack slot = x :=
  Function.update_self ..

theorem store_stack_of_ne {s slot : Nat} (h : s ≠ slot) (x : Word) :
    (m.store slot x).stack s = m.stack s :=
  Function.update_of_ne h ..

@[simp] theorem scratched_stack (w : World) : (m.scratched w).stack = m.stack := rfl

@[simp] theorem scratched_calls (w : World) : (m.scratched w).calls = m.calls := rfl

theorem scratched_regs {r : Nat} (h : r = 0 ∨ 6 ≤ r) (w : World) :
    (m.scratched w).regs r = m.regs r :=
  if_neg (by omega)

end Machine

/-- One instruction.  Jumps go on with the next one here. -/
def exec1 (w : World) (m : Machine) : Insn → Machine
  | .mov dst src => m.set dst (m.regs src)
  | .movImm dst imm => m.set dst (imm32 imm)
  | .ldImm dst lo hi => m.set dst (hi ++ lo)
  | .alu op dst src => m.set dst (op.eval (m.regs dst) (m.regs src))
  | .aluImm op dst imm => m.set dst (op.eval (m.regs dst) (imm32 imm))
  | .ldx dst slot => m.set dst (m.stack slot)
  | .stx slot src => m.store slot (m.regs src)
  | .ldAbs width off => (m.scratched w).set 0 (w.packet width (BitVec.ofInt 64 off))
  | .ldInd width src off =>
    (m.scratched w).set 0 (w.packet width (m.regs src + BitVec.ofInt 64 off))
  | .ldMem width dst src off => m.set dst (w.memory width (m.regs src + BitVec.ofInt 64 off))
  | .toBe dst bits => m.set dst (w.toBe bits (m.regs dst))
  | .call h => { (m.scratched w).set 0 (w.helper m.calls h) with calls := m.calls + 1 }
  | .jmp .. | .jmpImm .. | .exit => m

/-- Instructions one after the other. -/
def exec (w : World) (m : Machine) (code : List Insn) : Machine := code.foldl (exec1 w) m

@[simp] theorem exec_nil (w : World) (m : Machine) : exec w m [] = m := rfl

@[simp] theorem exec_cons (w : World) (m : Machine) (i : Insn) (code : List Insn) :
    exec w m (i :: code) = exec w (exec1 w m i) code := rfl

@[simp] theorem exec_append (w : World) (m : Machine) (c c' : List Insn) :
    exec w m (c ++ c') = exec w (exec w m c) c' :=
  List.foldl_append ..

end Bpf
