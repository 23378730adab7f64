import Bcc.Usdt.Argument
import Mathlib.Data.Int.ModEq

namespace Bcc.Usdt

open CText

/-!
# USDT — the emitted readers and what they do

For each argument of a probe the code emits a C function that stores the argument's value
at the location the program has reached.  A `Reader` is such a function, kept as a tree instead
of its text, and `Reader.exec` what it stores when it runs on a `Machine`.

On the other side stands the meaning of an operand, `Argument.denote`: a constant is itself,
and a register or a place in memory is read as an integer of the operand's size and sign.

* `eval_assignToLocal` — the emitted statement yields the operand's value, unless the operand
  is a register, whose size the statement does not look at;
* `stores_iff` — hence a reader of type `t` stores the value of every register only if the
  register is at least as wide as `t`.
-/

/-! ### Fixed-width integers -/

/-- An integer, reduced to `bytes` bytes. -/
def wrapInt (signed : Bool) (bytes : Nat) (v : Int) : Int :=
  if signed then v.bmod (2 ^ (8 * bytes)) else v % (2 ^ (8 * bytes) : Nat)

@[simp] theorem wrapInt_zero (signed : Bool) (bytes : Nat) : wrapInt signed bytes 0 = 0 := by
  cases signed <;> simp [wrapInt]

theorem wrapInt_modEq (signed : Bool) (bytes : Nat) (v : Int) :
    wrapInt signed bytes v ≡ v [ZMOD (2 ^ (8 * bytes) : Nat)] := by
  unfold wrapInt
  split
  · exact Int.bmod_emod
  · exact Int.mod_modEq _ _

variable {bytes : Nat}

/-- Reducing depends on the low bytes only. -/
theorem wrapInt_congr (signed : Bool) {u v : Int} (h : u ≡ v [ZMOD (2 ^ (8 * bytes) : Nat)]) :
    wrapInt signed bytes u = wrapInt signed bytes v := by
  unfold wrapInt
  split
  · rw [← Int.emod_bmod u, ← Int.emod_bmod v, h.eq]
  · exact h.eq

variable {signed : Bool}

theorem wrapInt_eq_iff {u v : Int} :
    wrapInt signed bytes u = wrapInt signed bytes v ↔ u ≡ v [ZMOD (2 ^ (8 * bytes) : Nat)] := by
  constructor
  · intro h
    exact (wrapInt_modEq signed bytes u).symm.trans (h ▸ wrapInt_modEq signed bytes v)
  · exact wrapInt_congr signed

variable {bytes' : Nat} {signed' : Bool}

/-- Reducing first to at least as many bytes changes nothing. -/
theorem wrapInt_wrapInt (h : bytes ≤ bytes') (v : Int) :
    wrapInt signed bytes (wrapInt signed' bytes' v) = wrapInt signed bytes v := by
  apply wrapInt_congr
  have hdvd : ((2 ^ (8 * bytes) : Nat) : Int) ∣ ((2 ^ (8 * bytes') : Nat) : Int) :=
    Int.natCast_dvd_natCast.mpr (Nat.pow_dvd_pow 2 (by omega))
  exact (wrapInt_modEq signed' bytes' v).of_dvd hdvd

/-- Reducing first to fewer bytes loses the bit just above them. -/
theorem wrapInt_narrow (h : bytes' < bytes) :
    wrapInt signed bytes (wrapInt signed' bytes' (2 ^ (8 * bytes') : Nat))
      ≠ wrapInt signed bytes (2 ^ (8 * bytes') : Nat) := by
  have hzero : wrapInt signed' bytes' (2 ^ (8 * bytes') : Nat) = 0 := by
    rw [wrapInt_congr signed' (Int.modEq_zero_iff_dvd.mpr (Int.dvd_refl _)), wrapInt_zero]
  rw [hzero, Ne, wrapInt_eq_iff, Int.modEq_comm, Int.modEq_zero_iff_dvd, Int.natCast_dvd_natCast]
  intro hdvd
  have hle := Nat.le_of_dvd (Nat.two_pow_pos _) hdvd
  have hlt : 2 ^ (8 * bytes') < 2 ^ (8 * bytes) := Nat.pow_lt_pow_right (by decide) (by omega)
  omega

/-- Reducing keeps the lowest bit. -/
theorem wrapInt_wrapInt_one (h : 0 < bytes) (h' : 0 < bytes') :
    wrapInt signed bytes (wrapInt signed' bytes' 1) ≠ 0 := by
  have htwo : ∀ {n : Nat}, 0 < n → ((2 : Nat) : Int) ∣ ((2 ^ (8 * n) : Nat) : Int) := by
    intro n hn
    exact Int.natCast_dvd_natCast.mpr (dvd_pow_self 2 (by omega))
  intro hzero
  have hodd : (0 : Int) ≡ 1 [ZMOD (2 : Nat)] := by
    rw [← hzero]
    exact ((wrapInt_modEq signed bytes _).of_dvd (htwo h)).trans
      ((wrapInt_modEq signed' bytes' 1).of_dvd (htwo h'))
  cases hodd

/-- A conversion to a C type. -/
def CType.convert (t : CType) (v : Int) : Int := wrapInt t.signed t.sizeof v

theorem CType.sizeof_pos (t : CType) : 0 < t.sizeof := by cases t <;> decide

theorem CType.sizeof_le (t : CType) : t.sizeof ≤ 8 := by cases t <;> decide

/-! ### Running the emitted code -/

/-- The state of the traced program when the reader runs. -/
structure Machine where
  /-- `PT_REGS_IP(ctx)`. -/
  ip : UInt64
  /-- The low 64 bits of each register. -/
  reg : String → UInt64
  /-- So many bytes of user memory at an address, as an unsigned number; `0` where
      `bpf_probe_read_user` fails. -/
  read : UInt64 → Nat → Nat

namespace Machine

/-- Memory at an address, read as an integer of the given size and sign. -/
def readInt (m : Machine) (size : Int) (addr : UInt64) : Int :=
  wrapInt (size < 0) size.natAbs (m.read addr size.natAbs)

/-- `base + off`, or `base + off + index * scale`. -/
def effective (m : Machine) (base : UInt64) (off : Int) (index : Option (String × Int)) : UInt64 :=
  base + UInt64.ofInt off + (match index with
    | some (idx, scale) => m.reg idx * UInt64.ofInt scale
    | none => 0)

end Machine

/-- The value of the right-hand side of the emitted assignment. -/
def Assign.eval (m : Machine) : Assign → Int
  | .const v => v
  | .zero => 0
  | .reg r => (m.reg r).toNat
  | .readUser base off index size => m.readInt size (m.effective (m.reg base) off index)
  | .readGlobal addr off size => m.readInt size (m.effective addr off none)

/-- The body of a reader: one statement, or a switch on the instruction pointer. -/
inductive Body where
  | single (stmt : Assign)
  /-- The switch is on `PT_REGS_IP(ctx) % modulus`, or on `PT_REGS_IP(ctx)`. -/
  | switch (modulus : Option UInt64) (cases : List (UInt64 × Assign))
  deriving DecidableEq, Repr

namespace Body

/-- The case labels. -/
def labels : Body → List UInt64
  | single _ => []
  | switch _ cases => cases.map Prod.fst

/-- The statement that runs at an instruction pointer; `none` if no label is hit. -/
def select (ip : UInt64) : Body → Option Assign
  | single stmt => some stmt
  | switch (some k) cases => cases.lookup (ip % k)
  | switch none cases => cases.lookup ip

end Body

/-- A function emitted by `usdt_getarg`. -/
structure Reader where
  probeFunc : String
  argNo : Nat
  ctype : CType
  body : Body
  deriving DecidableEq, Repr

namespace Reader

/-- The name of the reader of an argument, for a function. -/
def symbolOf (probeFunc : String) (argNo : Nat) : String :=
  "_bpf_readarg_" ++ probeFunc ++ "_" ++ toString argNo

/-- The name of the function. -/
def symbol (r : Reader) : String := symbolOf r.probeFunc r.argNo

/-- What a call stores at `dest`; `none` if it returns -1. -/
def exec (r : Reader) (m : Machine) (len : Nat) : Option Int :=
  if len = r.ctype.sizeof then (r.body.select m.ip).map (fun stmt => r.ctype.convert (stmt.eval m))
  else none

end Reader

/-! ### The meaning of an operand -/

namespace Argument

/-- The value an operand denotes at a machine state, in a binary mapped into a process: a
    constant itself; a register or memory as an integer of the operand's size and sign. -/
def denote (m : Machine) (globals : GlobalSymbols) (a : Argument) (binpath : String)
    (pid : Option Int) : Option Int :=
  match a.constant, a.baseRegisterName, a.derefOffset, a.derefIdent with
  | some c, _, _, _ => some c
  | none, none, _, _ => none
  | none, some base, none, _ => some (wrapInt (a.size < 0) a.size.natAbs (m.reg base).toNat)
  | none, some base, some off, none =>
      some (m.readInt a.size (m.effective (m.reg base) off
        (a.indexRegisterName.map (fun idx => (idx, a.scale.getD 1)))))
  | none, some base, some off, some ident =>
      if base = "ip" then
        (globals binpath ident pid).map (fun addr => m.readInt a.size (m.effective addr off none))
      else none

/-- The operand is a register. -/
def IsRegister (a : Argument) (base : String) : Prop :=
  a.constant = none ∧ a.derefOffset = none ∧ a.baseRegisterName = some base

/-- A register that cannot be read from BPF. -/
def isXmm (base : String) : Bool := base.toList.take 3 == ['x', 'm', 'm']

variable {m : Machine} {globals : GlobalSymbols} {a : Argument} {binpath base : String}
  {pid : Option Int} {stmt : Assign}

/-- What is emitted for a register. -/
theorem assignToLocal_register (h : a.IsRegister base) :
    a.assignToLocal globals binpath pid
      = .ok (some (if isXmm base then .zero else .reg base)) := by
  obtain ⟨hc, ho, hb⟩ := h
  unfold assignToLocal
  rw [hc, ho, hb]
  dsimp only [deref]
  by_cases hx : base.toList.take 3 = ['x', 'm', 'm'] <;> simp [hx, isXmm]

/-- **Meaning.**  For an operand that is no register the emitted statement yields the value
    the operand denotes. -/
theorem eval_assignToLocal (h : a.assignToLocal globals binpath pid = .ok (some stmt))
    (hr : ∀ base, ¬ a.IsRegister base) :
    a.denote m globals binpath pid = some (stmt.eval m) := by
  obtain ⟨sz, c, off, ident, base, idx, sc⟩ := a
  cases c with
  | some c =>
    obtain rfl : Assign.const c = stmt := by simpa [assignToLocal] using h
    rfl
  | none =>
    cases base with
    | none =>
      cases off <;> cases ident <;> simp [assignToLocal, deref] at h
    | some base =>
      cases off with
      | none => exact absurd ⟨rfl, rfl, rfl⟩ (hr base)
      | some off =>
        cases ident with
        | none =>
          obtain rfl := by simpa [assignToLocal, deref] using h
          rfl
        | some ident =>
          by_cases hip : base = "ip"
          · simp only [assignToLocal, deref, ok_bind, hip, if_true, pure_eq_ok,
              Except.ok.injEq, Option.map_eq_some_iff] at h
            obtain ⟨addr, haddr, rfl⟩ := h
            simp [denote, hip, haddr, Assign.eval]
          · simp [assignToLocal, deref, hip] at h

/-- A reader of type `t` is no wider than the operand, if that is a register; and the operand
    is not one that reads as zero, but for an operand of no size. -/
def FitsReader (t : CType) (a : Argument) : Prop :=
  ∀ base, a.IsRegister base → if isXmm base then a.size = 0 else t.sizeof ≤ a.size.natAbs

/-- A narrower reader fits where a wider one does. -/
theorem FitsReader.mono {t t' : CType} (h : a.FitsReader t)
    (hle : t'.sizeof ≤ t.sizeof) : a.FitsReader t' := by
  intro base hbase
  have hthis := h base hbase
  by_cases hx : isXmm base = true
  · rwa [if_pos hx] at hthis ⊢
  · rw [if_neg hx] at hthis ⊢
    exact hle.trans hthis

/-- **Storing.**  The statement, assigned to a variable of type `t`, stores the operand's value
    in every state at the instruction pointer, exactly if the operand fits. -/
theorem stores_iff (h : a.assignToLocal globals binpath pid = .ok (some stmt)) (t : CType)
    (ip : UInt64) :
    (∀ m : Machine, m.ip = ip →
        some (t.convert (stmt.eval m)) = (a.denote m globals binpath pid).map t.convert)
      ↔ a.FitsReader t := by
  by_cases hr : ∃ base, a.IsRegister base
  · obtain ⟨base, hbase⟩ := hr
    have hfits : a.FitsReader t ↔ if isXmm base then a.size = 0 else t.sizeof ≤ a.size.natAbs := by
      refine ⟨fun hall => hall base hbase, ?_⟩
      intro hthis base' hbase'
      obtain rfl : base = base' := Option.some.inj (hbase.2.2.symm.trans hbase'.2.2)
      exact hthis
    have hden : ∀ m : Machine, a.denote m globals binpath pid
        = some (wrapInt (a.size < 0) a.size.natAbs (m.reg base).toNat) := by
      intro m
      unfold denote
      rw [hbase.1, hbase.2.1, hbase.2.2]
    have hstmt := Option.some.inj (Except.ok.inj (h.symm.trans (assignToLocal_register hbase)))
    simp only [hfits, hden, Option.map_some, Option.some.injEq, hstmt, CType.convert]
    by_cases hx : isXmm base = true
    · -- zero is stored, whatever the register holds
      simp only [if_pos hx, Assign.eval, wrapInt_zero]
      constructor
      · intro hall
        have h1 := hall ⟨ip, fun _ => 1, fun _ _ => 0⟩ rfl
        by_contra hne
        exact wrapInt_wrapInt_one t.sizeof_pos (by omega) h1.symm
      · intro hz m _
        simp [hz, wrapInt]
    · simp only [if_neg hx, Assign.eval]
      constructor
      · intro hall
        by_contra hlt
        have hsz := t.sizeof_le
        have hval : (UInt64.ofNat (2 ^ (8 * a.size.natAbs))).toNat = 2 ^ (8 * a.size.natAbs) := by
          exact Nat.mod_eq_of_lt (Nat.pow_lt_pow_right (by decide) (by omega))
        have h1 := hall ⟨ip, fun _ => UInt64.ofNat (2 ^ (8 * a.size.natAbs)), fun _ _ => 0⟩ rfl
        simp only [hval] at h1
        exact wrapInt_narrow (by omega) h1.symm
      · intro hle m _
        rw [wrapInt_wrapInt hle]
  · have hnot : ∀ base, ¬ a.IsRegister base := fun base hb => hr ⟨base, hb⟩
    constructor
    · intro _ base hb
      exact absurd hb (hnot base)
    · intro _ m _
      rw [eval_assignToLocal h hnot]
      rfl

end Argument

end Bcc.Usdt
