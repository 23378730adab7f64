import Bcc.Bpf.Machine

namespace Bpf

/-!
# BPF — code with forward jumps

* `Step`, `run` — all operations of `ALU64`, loads from the stack and jumps ahead, on the registers
  alone.
-/

/-- Operations of `ALU64`.  A division by zero gives zero, and leaves the remainder as it is. -/
inductive Op where
  | mov | add | sub | div | mod | lsh | rsh | arsh | and | or | xor | neg
  deriving DecidableEq, Repr

def Op.eval : Op → Word → Word → Word
  | .mov, _, y => y
  | .add, x, y => x + y
  | .sub, x, y => x - y
  | .div, x, y => x / y
  | .mod, x, y => x % y
  | .lsh, x, y => x <<< (y.toNat % 64)
  | .rsh, x, y => x >>> (y.toNat % 64)
  | .arsh, x, y => x.sshiftRight (y.toNat % 64)
  | .and, x, y => x &&& y
  | .or, x, y => x ||| y
  | .xor, x, y => x ^^^ y
  | .neg, x, _ => -x

/-- Instructions.  Memory on the stack is addressed by its distance from `R10`. -/
inductive Step where
  | imm (op : Op) (dst : Nat) (k : Int)
  | reg (op : Op) (dst src : Nat)
  | ldx (width dst : Nat) (off : Int)
  | jmpImm (cond : Cond) (dst : Nat) (k : Int) (off : Nat)
  deriving DecidableEq, Repr

/-- The content of the registers. -/
abbrev Regs := Nat → Word

/-- Instructions one after the other, of which the first `skip` are jumped over. -/
def run (load : Nat → Int → Word) : Nat → List Step → Regs → Regs
  | _, [], regs => regs
  | skip + 1, _ :: code, regs => run load skip code regs
  | 0, .imm op dst k :: code, regs =>
    run load 0 code (Function.update regs dst (op.eval (regs dst) (imm32 k)))
  | 0, .reg op dst src :: code, regs =>
    run load 0 code (Function.update regs dst (op.eval (regs dst) (regs src)))
  | 0, .ldx width dst off :: code, regs =>
    run load 0 code (Function.update regs dst (load width off))
  | 0, .jmpImm cond dst k off :: code, regs =>
    run load (if cond.eval (regs dst) (imm32 k) then off else 0) code regs

end Bpf
