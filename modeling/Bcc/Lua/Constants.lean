import Bcc.Lua.Vreg

namespace Bcc.Lua

open BitVec Bpf CText Function

/-!
# The Lua compiler — constants in registers

`vreg` loads a constant with a move of 32 bits, or with a load of 64 bits if its type has 8 bytes.

* `ldImmX` — computes the upper half with `bit.rshift`, which looks at 32 bits of a number, and
  shifts the immediate to the left, so that its upper half is zero;
* `constants_left_iff` — which constants arrive.
-/

variable {stackslots : Nat} {o : Order stackslots}

/-- `LD_IMM_X` for an immediate of 8 bytes.  Numbers are shifted as 32 bits, cdata as 64. -/
def ldImmX (r : Nat) : Const → Res (List Insn)
  | .num n => .ok [.ldImm r (BitVec.ofInt 32 n) (BitVec.ofInt 32 n <<< 16 <<< 16)]
  | .cdata w => .ok [.ldImm r (w.setWidth 32) ((w <<< 16 <<< 16).setWidth 32)]
  | _ => .error .assertion

/-- The code leaves the value of the constant in the register, in all 64 bits. -/
def Leaves (code : List Insn) (r : Nat) (c : Const) : Prop :=
  ∀ w m, c.word = some ((exec w m code).regs r)

/-- An integer from `-2 ^ 31` to `2 ^ 53`, or any cdata. -/
def Const.Numeric : Const → Prop
  | .num n => -2 ^ 31 ≤ n ∧ n ≤ 2 ^ 53
  | .cdata _ => True
  | _ => False

/-! ### The code for a constant -/

/-- What the last instruction loads is what is left. -/
theorem leaves_iff {i : Insn} {r : Nat} {x y : Word} {c : Const}
    (h : ∀ w m, exec1 w m i = m.set r x) (hc : c.word = some y) (pre : List Insn) :
    Leaves (pre ++ [i]) r c ↔ x = y := by
  have hregs : ∀ w m, (exec w m (pre ++ [i])).regs r = x := fun w m => by
    rw [exec_append, exec_cons, exec_nil, h, Machine.set_regs_self]
  constructor
  · intro hl
    have := hl ⟨fun _ _ => 0, fun _ _ => 0, fun _ x => x, fun _ _ => 0, fun _ _ => 0⟩
      ⟨fun _ => 0, fun _ => 0, 0⟩
    rw [hregs, hc] at this
    exact (Option.some.inj this).symm
  · rintro rfl w m
    rw [hregs, hc]

theorem imm32_eq_iff {n : Int} (h : -2 ^ 63 ≤ n ∧ n < 2 ^ 63) :
    imm32 n = BitVec.ofInt 64 n ↔ -2 ^ 31 ≤ n ∧ n < 2 ^ 31 := by
  refine ⟨fun heq => ?_, imm32_of_fits⟩
  have hint : (BitVec.ofInt 64 n).toInt = n := by
    rw [toInt_ofInt]
    exact Int.bmod_eq_of_le (by omega) (by omega)
  rw [← heq, imm32, toInt_signExtend_of_le (by decide)] at hint
  have hlow := (BitVec.ofInt 32 n).le_toInt
  have hhigh := (BitVec.ofInt 32 n).toInt_lt
  omega

theorem zero_append_eq_iff {n : Int} (h : -2 ^ 63 ≤ n ∧ n < 2 ^ 63) :
    ((0 : BitVec 32) ++ BitVec.ofInt 32 n : Word) = BitVec.ofInt 64 n ↔ 0 ≤ n ∧ n < 2 ^ 32 := by
  refine ⟨fun heq => ?_, zero_append_ofInt⟩
  have hnat := congrArg BitVec.toNat heq
  rw [toNat_append] at hnat
  simp at hnat
  omega

theorem zero_append_setWidth_iff (y : Word) :
    ((0 : BitVec 32) ++ y.setWidth 32 : Word) = y ↔ y.toNat < 2 ^ 32 := by
  rw [← toNat_inj, toNat_append]
  simp

/-- Which constants the code for a type leaves as they are. -/
theorem constCode_leaves_iff {c : Const} (hc : c.Numeric) {r : Nat} {type : Option CType}
    {code : List Insn} (h : constCode r type c = .ok code) (pre : List Insn) :
    Leaves (pre ++ code) r c ↔ c.Fits type := by
  cases c with
  | other text => exact hc.elim
  | proxy access => exact hc.elim
  | num n =>
    obtain ⟨hlow, hhigh⟩ := hc
    rw [constCode] at h
    rw [Const.Fits]
    split at h <;> rename_i htype <;> cases h
    · rw [if_pos htype, ← zero_append_eq_iff (by omega)]
      exact leaves_iff (fun _ _ => rfl) rfl pre
    · rw [if_neg htype, ← imm32_eq_iff (by omega)]
      exact leaves_iff (fun _ _ => rfl) rfl pre
  | cdata w =>
    rw [constCode] at h
    rw [Const.Fits]
    split at h <;> rename_i htype <;> cases h
    · refine iff_of_true ?_ (.inl htype)
      exact (leaves_iff (fun _ _ => rfl) rfl pre).mpr (high_append_low w)
    · have hw := w.toInt_lt
      have hw' := w.le_toInt
      rw [or_iff_right htype, ← imm32_eq_iff (by omega), ofInt_toInt]
      exact leaves_iff (fun _ _ => rfl) rfl pre

/-! ### The code of `vreg` -/

/-- `reg_alloc` adds code, and leaves variables without a register alone. -/
theorem regAlloc_other {s s' : Emitter} {reg : Option Nat} {r : Nat}
    (h : regAlloc o s reg = .ok (r, s')) :
    (∃ pre, s'.code = s.code ++ pre)
      ∧ ∀ x v, s.V x = some v → v.reg = none → s'.V x = some v := by
  have hspill : ∀ k s₁, regSpill s k = .ok s₁ → (∃ pre, s₁.code = s.code ++ pre)
      ∧ ∀ x v, s.V x = some v → v.reg = none → s₁.V x = some v := by
    intro k s₁ hk
    unfold regSpill at hk
    split at hk
    · cases hk
    split at hk
    · cases hk
    · next u hu q hq =>
      cases hk
      refine ⟨⟨_, rfl⟩, fun x v hv hr => ?_⟩
      have hne : x ≠ k := by
        rintro rfl
        simp_all
      exact (update_of_ne hne ..).trans hv
  have hself : (∃ pre, s.code = s.code ++ pre) ∧ ∀ x v, s.V x = some v → v.reg = none →
      s.V x = some v := ⟨⟨[], by simp⟩, fun _ _ hv _ => hv⟩
  unfold regAlloc at h
  repeat' split at h
  all_goals first
    | (cases h; exact hself)
    | (obtain ⟨s₁, hs₁, hret⟩ := bind_eq_ok_iff.mp h
       cases hret; exact hspill _ _ hs₁)
    | cases h

/-- **The code that loads a constant** is that for its type, behind a spill if there is one. -/
theorem vreg_constCode {s s' : Emitter} {x r : Nat} {v : VInfo} {c : Const} {reg : Option Nat}
    {vtype : Option CType} (hv : s.V x = some v) (hr : v.reg = none) (hslot : v.spill = none)
    (hs : v.shadow = none) (hc : v.const = some c) (h : vreg o s x reg false vtype = .ok (r, s')) :
    ∃ pre code, s'.code = s.code ++ pre ++ code
      ∧ constCode r (vtype.or v.type) c = .ok code := by
  rw [vreg_late hv fun _ hset => by simp [VInfo.Settled, hr] at hset] at h
  obtain ⟨⟨q, s₁⟩, hs₁, h⟩ := bind_eq_ok_iff.mp h
  obtain ⟨s₂, hs₂, hret⟩ := bind_eq_ok_iff.mp h
  cases hret
  obtain ⟨⟨pre, hpre⟩, hkeep⟩ := regAlloc_other hs₁
  have htouch : (touch s x).V x = some { v with liveTo := some (s.pc - 1) } := by
    rw [touch_V hv, update_self]
  have hx := hkeep x _ htouch hr
  simp only [settle, hx, follow, hs, ok_bind, hr, hslot, hc] at hs₂
  obtain ⟨⟨code, v₁, t⟩, hload, hret⟩ := bind_eq_ok_iff.mp hs₂
  obtain ⟨code', hcode, hload⟩ := bind_eq_ok_iff.mp hload
  obtain ⟨rfl, -⟩ := Prod.mk.inj (Except.ok.inj hload)
  cases hret
  exact ⟨pre, code', congrArg (· ++ code') hpre, hcode⟩

/-- **Constants in registers.**  `vreg` leaves a constant as it is exactly if it fits into the code
    for its type: below `2 ^ 32` and not negative for numbers with a type of 8 bytes, signed with 32
    bits for constants with other types.  `LD_IMM_X` does exactly if it is below `2 ^ 32` and not
    negative. -/
theorem constants_left_iff {c : Const} (hc : c.Numeric) (r : Nat) :
    (∀ (s s' : Emitter) (x : Nat) (v : VInfo) (reg : Option Nat) (vtype : Option CType),
      s.V x = some v → v.reg = none → v.spill = none → v.shadow = none → v.const = some c →
      vreg o s x reg false vtype = .ok (r, s') →
      ∃ code, s'.code = s.code ++ code ∧ (Leaves code r c ↔ c.Fits (vtype.or v.type)))
    ∧ ∃ code, ldImmX r c = .ok code ∧ (Leaves code r c ↔ ∀ w ∈ c.word, w.toNat < 2 ^ 32) := by
  constructor
  · intro s s' x v reg vtype hv hr hslot hs hconst h
    obtain ⟨pre, code, hcode, hc'⟩ := vreg_constCode hv hr hslot hs hconst h
    exact ⟨pre ++ code, by rw [hcode, List.append_assoc], constCode_leaves_iff hc hc' pre⟩
  · cases c with
    | other text => exact hc.elim
    | proxy access => exact hc.elim
    | num n =>
      refine ⟨_, rfl, (leaves_iff (fun _ _ => rfl) rfl []).trans ?_⟩
      have hhigh : BitVec.ofInt 32 n <<< 16 <<< 16 = 0 := by
        rw [← shiftLeft_add]
        exact shiftLeft_eq_zero (by decide)
      have hlow : BitVec.ofInt 32 n = (BitVec.ofInt 64 n).setWidth 32 := by
        apply eq_of_toNat_eq
        simp
        omega
      rw [hhigh, hlow, zero_append_setWidth_iff]
      simp [Const.word]
    | cdata w =>
      refine ⟨_, rfl, (leaves_iff (fun _ _ => rfl) rfl []).trans ?_⟩
      have hhigh : (w <<< 16 <<< 16).setWidth 32 = 0 := by
        simp
      rw [hhigh, zero_append_setWidth_iff]
      simp [Const.word]

/-- One slot, and the two for temporary values. -/
def oneSlot : Order 1 := ⟨fun _ => List.range 3, fun _ => .refl _⟩

/-- The slot is a number that `KNUM` has put there. -/
def withNumber (n : Int) : Emitter :=
  vset (start 1 false) 0 none (some (.num n)) (some (.bytes (if n < 2147483648 then 4 else 8)))

theorem constants_left_five : ∃ s' code,
    vreg oneSlot (withNumber 5) 0 (some 0) false none = .ok (0, s')
    ∧ s'.code = (withNumber 5).code ++ code ∧ Leaves code 0 (.num 5) := by
  obtain ⟨code, hcode, hiff⟩ := (@constants_left_iff 1 oneSlot (.num 5) ⟨by decide, by decide⟩ 0).1
    (withNumber 5) _ 0 _ (some 0) none rfl rfl rfl rfl rfl rfl
  exact ⟨_, code, rfl, hcode, hiff.mpr ⟨by decide, by decide⟩⟩

/-- `vreg` loses the upper half of a number, and `LD_IMM_X` its sign. -/
theorem constants_cut :
    (∃ s', vreg oneSlot (withNumber (2 ^ 32)) 0 (some 0) false none = .ok (0, s')
      ∧ s'.code = (withNumber (2 ^ 32)).code ++ [.ldImm 0 0 0])
    ∧ ¬ Leaves [.ldImm 0 0 0] 0 (.num (2 ^ 32))
    ∧ ldImmX 0 (.num (-1)) = .ok [.ldImm 0 0xffffffff 0]
    ∧ ¬ Leaves [.ldImm 0 0xffffffff 0] 0 (.num (-1)) := by
  refine ⟨⟨_, rfl, rfl⟩, fun h => ?_, rfl, fun h => ?_⟩
  · exact absurd ((leaves_iff (fun _ _ => rfl) rfl []).mp h) (by decide)
  · exact absurd ((leaves_iff (fun _ _ => rfl) rfl []).mp h) (by decide)

end Bcc.Lua
