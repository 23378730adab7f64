import Mathlib.Algebra.Order.Ring.Int

namespace Bcc.Hist

open Nat

/-!
# Histograms — the slot of a value

A value is counted in the slot of its highest bit.  In four stages the code looks whether anything
is in the upper half of what is left, and keeps that half.

* `bpfLog2l_eq`, `log2l_eq` — this is the highest bit.
-/

/-! ### The code -/

/-- One stage: `shift = (v > limit) << k; v >>= shift; r |= shift`. -/
def narrow (limit k : UInt32) (s : UInt32 × UInt32) : UInt32 × UInt32 :=
  let shift := (if s.1 > limit then 1 else 0) <<< k
  (s.1 >>> shift, s.2 ||| shift)

/-- `bpf_log2`. -/
def bpfLog2 (v : UInt32) : UInt32 :=
  let s := narrow 0x3 1 (narrow 0xF 2 (narrow 0xFF 3 (narrow 0xFFFF 4 (v, 0))))
  s.2 ||| (s.1 >>> 1)

/-- `bpf_log2l`. -/
def bpfLog2l (v : UInt64) : UInt32 :=
  let hi := (v >>> 32).toUInt32
  if hi ≠ 0 then bpfLog2 hi + 32 + 1 else bpfLog2 v.toUInt32 + 1

/-- `log2`, which differs from `bpf_log2` in the type of its result only. -/
def log2 (v : UInt32) : UInt64 := (bpfLog2 v).toUInt64

/-- `log2l`. -/
def log2l (v : UInt64) : UInt64 :=
  let hi := (v >>> 32).toUInt32
  if hi ≠ 0 then log2 hi + 32 else log2 v.toUInt32

/-! ### Stages -/

/-- What is left of a number when it is narrowed to `n` bits: its upper bits, and a multiple of
    `n` that says how many were shifted out. -/
structure Narrowed (n : Nat) (v : UInt32) (s : UInt32 × UInt32) : Prop where
  rest : s.1.toNat = v.toNat / 2 ^ s.2.toNat
  lt : s.1.toNat < 2 ^ n
  ne_zero : v ≠ 0 → s.1 ≠ 0
  dvd : n ∣ s.2.toNat
  le : s.2.toNat + n ≤ 32

theorem one_shiftLeft : ∀ k < 5, ((1 : UInt32) <<< UInt32.ofNat k).toNat = 2 ^ k := by decide

/-- The bits of `r |= shift` do not overlap. -/
theorem or_eq_add {r m k : Nat} (hr : 2 ^ k ∣ r) (hm : m < 2 ^ k) : r ||| m = r + m := by
  obtain ⟨q, rfl⟩ := hr
  exact (two_pow_add_eq_or_of_lt hm q).symm

/-- A stage keeps the upper half if anything is in it. -/
theorem narrow_spec {k : Nat} {v limit : UInt32} {s : UInt32 × UInt32} (hk : k < 5)
    (hlimit : limit.toNat = 2 ^ 2 ^ k - 1) (h : Narrowed (2 ^ (k + 1)) v s) :
    Narrowed (2 ^ k) v (narrow limit (UInt32.ofNat k) s) := by
  have hhalf : 2 ^ (k + 1) = 2 ^ k + 2 ^ k := by omega
  have hpos : 0 < 2 ^ 2 ^ k := Nat.two_pow_pos _
  have hbits : 0 < 2 ^ k := Nat.two_pow_pos k
  have hle := h.le
  by_cases hgt : s.1 > limit
  · have hshift := one_shiftLeft k hk
    have hupper : 2 ^ 2 ^ k ≤ s.1.toNat := by
      have := UInt32.lt_iff_toNat_lt.mp hgt
      omega
    have hfst : (narrow limit (UInt32.ofNat k) s).1.toNat = s.1.toNat / 2 ^ 2 ^ k := by
      rw [narrow, if_pos hgt, UInt32.toNat_shiftRight, hshift, mod_eq_of_lt (by omega),
        shiftRight_eq_div_pow]
    have hsnd : (narrow limit (UInt32.ofNat k) s).2.toNat = s.2.toNat + 2 ^ k := by
      rw [narrow, if_pos hgt, UInt32.toNat_or, hshift, or_eq_add h.dvd (by omega)]
    refine ⟨?_, ?_, fun _ hzero => ?_, ?_, by omega⟩
    · rw [hfst, hsnd, h.rest, Nat.div_div_eq_div_mul, ← Nat.pow_add]
    · rw [hfst, Nat.div_lt_iff_lt_mul hpos, ← Nat.pow_add, ← hhalf]
      exact h.lt
    · have := Nat.div_pos hupper hpos
      rw [← hfst, hzero] at this
      exact absurd this (Nat.lt_irrefl 0)
    · rw [hsnd]
      exact Nat.dvd_add ((Nat.pow_dvd_pow 2 k.le_succ).trans h.dvd) (Nat.dvd_refl _)
  · have hzero : (0 : UInt32) <<< UInt32.ofNat k = 0 := UInt32.zero_shiftLeft
    have hsame : narrow limit (UInt32.ofNat k) s = s := by
      rw [narrow, if_neg hgt, hzero, UInt32.shiftRight_zero, UInt32.or_zero]
    rw [hsame]
    refine ⟨h.rest, ?_, h.ne_zero, (Nat.pow_dvd_pow 2 k.le_succ).trans h.dvd, by omega⟩
    have := UInt32.le_iff_toNat_le.mp (UInt32.not_lt.mp hgt)
    omega

/-- **The highest bit.** -/
theorem bpfLog2_eq (v : UInt32) : (bpfLog2 v).toNat = v.toNat.log2 := by
  by_cases hv : v = 0
  · subst hv
    rfl
  have h₀ : Narrowed (2 ^ 5) v (v, 0) := ⟨by simp, v.toNat_lt, id, by simp, by simp⟩
  have h₁ : Narrowed (2 ^ 4) v (narrow 0xFFFF 4 (v, 0)) := narrow_spec (by decide) rfl h₀
  have h₂ : Narrowed (2 ^ 3) v (narrow 0xFF 3 _) := narrow_spec (by decide) rfl h₁
  have h₃ : Narrowed (2 ^ 2) v (narrow 0xF 2 _) := narrow_spec (by decide) rfl h₂
  have h₄ : Narrowed (2 ^ 1) v (narrow 0x3 1 _) := narrow_spec (by decide) rfl h₃
  unfold bpfLog2
  generalize narrow 0x3 1 _ = s at h₄ ⊢
  -- two bits are left, and the upper one of them is the last bit of the result
  have hlt : s.1.toNat < 4 := h₄.lt
  have hpos : 0 < s.1.toNat := Nat.pos_of_ne_zero fun h => h₄.ne_zero hv (UInt32.toNat_inj.mp h)
  have hres : (s.2 ||| (s.1 >>> 1)).toNat = s.2.toNat + s.1.toNat / 2 := by
    exact or_eq_add h₄.dvd (show s.1.toNat / 2 < 2 by omega)
  have hv' : v.toNat ≠ 0 := fun h => hv (UInt32.toNat_inj.mp h)
  rw [hres, eq_comm, log2_eq_iff hv']
  have hrest := h₄.rest
  have hunit : 0 < 2 ^ s.2.toNat := Nat.two_pow_pos _
  have hlower : 2 ^ s.2.toNat * s.1.toNat ≤ v.toNat := by
    rw [hrest]
    exact mul_div_le _ _
  have hupper : v.toNat < 2 ^ s.2.toNat * (s.1.toNat + 1) := by
    rw [hrest]
    exact lt_mul_div_succ _ hunit
  obtain ⟨hhalf, hone⟩ | ⟨hhalf, htwo⟩ :
      s.1.toNat / 2 = 0 ∧ s.1.toNat = 1 ∨ s.1.toNat / 2 = 1 ∧ 2 ≤ s.1.toNat := by omega
  · rw [hone] at hlower hupper
    rw [hhalf, Nat.add_zero]
    omega
  · have hlower' := (Nat.mul_le_mul_left (2 ^ s.2.toNat) htwo).trans hlower
    have hupper' := hupper.trans_le (Nat.mul_le_mul_left (2 ^ s.2.toNat) hlt)
    rw [hhalf]
    omega

/-! ### 64 bits -/

variable (v : UInt64)

/-- A number by its two halves. -/
theorem toNat_halves : v.toNat = (v >>> 32).toUInt32.toNat * 2 ^ 32 + v.toUInt32.toNat := by
  have hv := v.toNat_lt
  rw [UInt64.toNat_toUInt32, UInt64.toNat_shiftRight, shiftRight_eq_div_pow]
  show v.toNat = v.toNat / 2 ^ 32 % 2 ^ 32 * 2 ^ 32 + v.toNat % 2 ^ 32
  omega

/-- The highest bit is that of the upper half, if there is one. -/
theorem log2_halves : v.toNat.log2 = if (v >>> 32).toUInt32 ≠ 0
    then (v >>> 32).toUInt32.toNat.log2 + 32 else v.toUInt32.toNat.log2 := by
  rw [toNat_halves v]
  generalize (v >>> 32).toUInt32 = hi
  have hlow := v.toUInt32.toNat_lt
  by_cases hhi : hi = 0
  · subst hhi
    simp
  · have hpos : hi.toNat ≠ 0 := fun h => hhi (UInt32.toNat_inj.mp h)
    rw [if_pos hhi, log2_eq_iff (by omega)]
    have hlower := log2_self_le hpos
    have hupper : hi.toNat < 2 ^ (hi.toNat.log2 + 1) := lt_log2_self
    rw [Nat.add_right_comm, Nat.pow_add, Nat.pow_add _ (_ + 1)]
    omega

theorem log2_lt_64 : v.toNat.log2 < 64 := by
  by_cases hv : v.toNat = 0
  · rw [hv]
    decide
  · exact (log2_lt hv).mpr v.toNat_lt

/-- **Slots of the helpers.** -/
theorem bpfLog2l_eq : (bpfLog2l v).toNat = v.toNat.log2 + 1 := by
  have hlt := log2_lt_64 v
  rw [log2_halves] at hlt ⊢
  unfold bpfLog2l
  dsimp only
  split
  · next hhi =>
    rw [if_pos hhi] at hlt
    rw [UInt32.toNat_add, UInt32.toNat_add, bpfLog2_eq, show (32 : UInt32).toNat = 32 from rfl,
      UInt32.toNat_one]
    omega
  · next hhi =>
    rw [if_neg hhi] at hlt
    rw [UInt32.toNat_add, bpfLog2_eq, UInt32.toNat_one]
    omega

/-- **Slots of libbpf-tools.** -/
theorem log2l_eq : (log2l v).toNat = v.toNat.log2 := by
  have hlt := log2_lt_64 v
  rw [log2_halves] at hlt ⊢
  unfold log2l log2
  dsimp only
  split
  · next hhi =>
    rw [if_pos hhi] at hlt
    rw [UInt64.toNat_add, UInt32.toNat_toUInt64, bpfLog2_eq, show (32 : UInt64).toNat = 32 from rfl]
    omega
  · rw [UInt32.toNat_toUInt64, bpfLog2_eq]

end Bcc.Hist
