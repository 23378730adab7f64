import Bcc.Bpf.Forward
import Mathlib.Data.Nat.Log

namespace Bcc.Lua

open BitVec Bpf Function Nat

/-!
# The Lua compiler — `math.log2`

The builtin looks for the highest bit by halving the bits that are left.  It works on the inverted
number, for which it takes the negated one, that is the inversion of the number less one.

* `log2Code_eq` — so it finds the highest bit of the number less one;
* `log2_iff` — when that is the right one.
-/

/-- One round: `if !upper_half(x)` over `v >>= k` and `r |= k`.  The number in the comparison is
    `bit.bnot(bit.lshift(1, k))`. -/
def log2Round (r v k : Nat) : List Step :=
  [.jmpImm .jgt v (-2 ^ k - 1) 2, .imm .arsh v k, .imm .or r k]

/-- `builtins[math.log2]`, for a number in the register `src`. -/
def log2Code (r v src : Nat) : List Step :=
  [.imm .mov r 0, .reg .mov v src, .imm .neg v 0] ++ [16, 8, 4, 2, 1].flatMap (log2Round r v)

/-! ### One round -/

/-- The immediates of the rounds. -/
theorem imm32_round : ∀ i < 5, imm32 (2 ^ i) = BitVec.ofNat 64 (2 ^ i)
    ∧ imm32 (-2 ^ 2 ^ i - 1) = ~~~ BitVec.ofNat 64 (2 ^ 2 ^ i) := by
  decide

/-- What a round does to the bits that are left and to those that were found. -/
def halve (p : Nat × Nat) (k : Nat) : Nat × Nat :=
  if p.1 < 2 ^ k then p else (p.1 / 2 ^ k, p.2 + k)

theorem not_lt_not_ofNat {a b : Nat} (ha : a < 2 ^ 64) (hb : b < 2 ^ 64) :
    ~~~ BitVec.ofNat 64 a < ~~~ BitVec.ofNat 64 b ↔ b < a := by
  rw [lt_def, toNat_not, toNat_not, toNat_ofNat, toNat_ofNat, mod_eq_of_lt ha, mod_eq_of_lt hb]
  omega

theorem not_sshiftRight_ofNat {z k : Nat} (hz : z < 2 ^ 63) :
    (~~~ BitVec.ofNat 64 z).sshiftRight k = ~~~ BitVec.ofNat 64 (z / 2 ^ k) := by
  have hmsb : (~~~ BitVec.ofNat 64 z).msb = true := by
    rw [msb_eq_decide]
    simp
    omega
  rw [sshiftRight_eq_of_msb_true hmsb, BitVec.not_not]
  congr 1
  apply eq_of_toNat_eq
  have hle : z / 2 ^ k ≤ z := Nat.div_le_self ..
  rw [toNat_ushiftRight, toNat_ofNat, toNat_ofNat, shiftRight_eq_div_pow,
    mod_eq_of_lt (by omega), mod_eq_of_lt (by omega)]

/-- The bits found so far are above the one that is looked for. -/
theorem ofNat_or_two_pow {acc i : Nat} (h : 2 ^ (i + 1) ∣ acc) :
    BitVec.ofNat 64 acc ||| BitVec.ofNat 64 (2 ^ i) = BitVec.ofNat 64 (acc + 2 ^ i) := by
  obtain ⟨a, rfl⟩ := h
  have hlt : 2 ^ i < 2 ^ (i + 1) := Nat.pow_lt_pow_right (by omega) (by omega)
  rw [two_pow_add_eq_or_of_lt hlt, ofNat_or]

/-- The registers hold the bits that are left, inverted, and those that were found. -/
structure Holds (r v : Nat) (p : Nat × Nat) (regs : Regs) : Prop where
  left : regs v = ~~~ BitVec.ofNat 64 p.1
  found : regs r = BitVec.ofNat 64 p.2

variable (load : Nat → Int → Word)

theorem round_holds {r v i : Nat} (hi : i < 5) (hrv : r ≠ v) {p : Nat × Nat} (hp : p.1 < 2 ^ 32)
    (hacc : 2 ^ (i + 1) ∣ p.2) {regs : Regs} (h : Holds r v p regs) (rest : List Step) :
    ∃ regs', run load 0 (log2Round r v (2 ^ i) ++ rest) regs = run load 0 rest regs'
      ∧ Holds r v (halve p (2 ^ i)) regs' := by
  obtain ⟨hk, htest⟩ := imm32_round i hi
  have hsmall : 2 ^ i < 64 := (Nat.pow_lt_pow_right (by omega) hi).trans (by decide : 2 ^ 5 < 64)
  have hpow : 2 ^ 2 ^ i < 2 ^ 64 := Nat.pow_lt_pow_right (by omega) hsmall
  have hcond : Cond.jgt.eval (regs v) (imm32 (-2 ^ 2 ^ i - 1)) = decide (p.1 < 2 ^ 2 ^ i) := by
    rw [htest, h.left]
    exact decide_eq_decide.mpr (not_lt_not_ofNat hpow (by omega))
  rw [halve]
  by_cases hlt : p.1 < 2 ^ 2 ^ i
  · refine ⟨regs, ?_, by rwa [if_pos hlt]⟩
    simp [log2Round, run, hcond, hlt]
  refine ⟨_, by simp [log2Round, run, hcond, hlt]; rfl, ?_⟩
  rw [if_neg hlt]
  constructor
  · rw [update_of_ne hrv.symm, update_self, Op.eval, hk, h.left, toNat_ofNat,
      mod_mod_of_dvd _ (by decide), mod_eq_of_lt hsmall, not_sshiftRight_ofNat (by omega)]
  · rw [update_self, update_of_ne hrv, Op.eval, hk, h.found, ofNat_or_two_pow hacc]

/-! ### All rounds -/

/-- A round keeps the logarithm. -/
theorem halve_spec {p : Nat × Nat} {i : Nat} (hp : p.1 < 2 ^ 2 ^ (i + 1))
    (hacc : 2 ^ (i + 1) ∣ p.2) :
    (halve p (2 ^ i)).1 < 2 ^ 2 ^ i ∧ 2 ^ i ∣ (halve p (2 ^ i)).2
      ∧ (halve p (2 ^ i)).2 + Nat.log 2 (halve p (2 ^ i)).1 = p.2 + Nat.log 2 p.1 := by
  have hdvd : 2 ^ i ∣ p.2 := Nat.dvd_trans (Nat.pow_dvd_pow 2 (by omega)) hacc
  rw [halve]
  split
  · next hlt => exact ⟨hlt, hdvd, rfl⟩
  · next hnot =>
    have hsq : 2 ^ 2 ^ (i + 1) = 2 ^ 2 ^ i * 2 ^ 2 ^ i := by
      rw [← Nat.pow_add, Nat.pow_succ, Nat.mul_two]
    have hle : 2 ^ i ≤ Nat.log 2 p.1 := le_log_of_pow_le (by omega) (by omega)
    refine ⟨Nat.div_lt_of_lt_mul (hsq ▸ hp), Nat.dvd_add hdvd (Nat.dvd_refl _), ?_⟩
    rw [log_div_base_pow]
    omega

/-- The rounds from some bit down to the last one. -/
theorem rounds_hold {r v : Nat} (hrv : r ≠ v) {p : Nat × Nat} {regs : Regs} {n : Nat} (hn : n ≤ 5)
    (hp : p.1 < 2 ^ 2 ^ n) (hacc : 2 ^ n ∣ p.2) (h : Holds r v p regs) :
    (run load 0 (((List.range n).reverse.map (2 ^ ·)).flatMap (log2Round r v)) regs) r
      = BitVec.ofNat 64 (p.2 + Nat.log 2 p.1) := by
  induction n generalizing p regs with
  | zero =>
    have hzero : Nat.log 2 p.1 = 0 := log_of_lt hp
    rw [hzero]
    exact h.found
  | succ i ih =>
    have hlt : p.1 < 2 ^ 32 := hp.trans_le
      (Nat.pow_le_pow_right (by omega) (Nat.pow_le_pow_right (by omega) hn : _ ≤ 2 ^ 5))
    rw [List.range_succ, List.reverse_append, List.reverse_singleton, List.singleton_append,
      List.map_cons, List.flatMap_cons]
    obtain ⟨regs', hrun, h'⟩ := round_holds load hn hrv hlt hacc h _
    obtain ⟨hp', hacc', hlog⟩ := halve_spec hp hacc
    rw [hrun, ih (by omega) hp' hacc' h', hlog]

/-- **What the builtin leaves.** -/
theorem log2Code_eq {r v src : Nat} (hrv : r ≠ v) (hsrc : src ≠ r) {regs : Regs} {x : Nat}
    (hx : regs src = BitVec.ofNat 64 x) (hpos : 1 ≤ x) (hlt : x < 2 ^ 32) :
    (run load 0 (log2Code r v src) regs) r = BitVec.ofNat 64 (Nat.log 2 (x - 1)) := by
  have hneg : -BitVec.ofNat 64 x = ~~~ BitVec.ofNat 64 (x - 1) := by
    apply eq_of_toNat_eq
    rw [toNat_neg, toNat_not, toNat_ofNat, toNat_ofNat, mod_eq_of_lt (by omega)]
    omega
  have hcode : log2Code r v src = .imm .mov r 0 :: .reg .mov v src :: .imm .neg v 0
      :: ((List.range 5).reverse.map (2 ^ ·)).flatMap (log2Round r v) := rfl
  rw [hcode, run, run, run, rounds_hold load (p := (x - 1, 0)) hrv (Nat.le_refl 5)
    (Nat.lt_of_le_of_lt (sub_le x 1) hlt) (Nat.dvd_zero _), Nat.zero_add]
  constructor
  · simp [Op.eval, update_of_ne hsrc, hx, hneg]
  · simp [Op.eval, update_of_ne hrv, imm32]

/-- The logarithm of a number less one. -/
theorem log_pred_eq_iff {x : Nat} (hpos : 1 ≤ x) :
    Nat.log 2 (x - 1) = Nat.log 2 x ↔ x = 1 ∨ ∀ k, x ≠ 2 ^ k := by
  have hle : 2 ^ Nat.log 2 x ≤ x := pow_log_le_self 2 (by omega)
  have hlt : x < 2 ^ (Nat.log 2 x + 1) := lt_pow_succ_log_self (by omega) x
  constructor
  · intro h
    by_cases hone : x = 1
    · exact .inl hone
    · refine .inr ?_
      rintro k rfl
      rw [log_pow (by omega)] at h
      have hk := pow_log_le_self 2 (show 2 ^ k - 1 ≠ 0 by omega)
      rw [h] at hk
      omega
  · rintro (rfl | hne)
    · rfl
    · have hne := hne (Nat.log 2 x)
      rw [log_eq_iff (.inr ⟨by omega, by omega⟩)]
      omega

/-- **`math.log2`.**  The code leaves the logarithm, rounded down, exactly if the number is one or
    no power of two. -/
theorem log2_iff (load : Nat → Int → Word) {r v src : Nat} (hrv : r ≠ v) (hsrc : src ≠ r)
    {regs : Regs} {x : Nat} (hx : regs src = BitVec.ofNat 64 x) (hpos : 1 ≤ x)
    (hlt : x < 2 ^ 32) :
    (run load 0 (log2Code r v src) regs) r = BitVec.ofNat 64 (Nat.log 2 x)
      ↔ x = 1 ∨ ∀ k, x ≠ 2 ^ k := by
  have hbound : ∀ n ≤ x, Nat.log 2 n < 2 ^ 64 := fun n hn =>
    (log_le_self 2 n).trans_lt (by omega)
  rw [log2Code_eq load hrv hsrc hx hpos hlt, ← log_pred_eq_iff hpos]
  constructor
  · intro h
    have hnat := congrArg BitVec.toNat h
    rwa [toNat_ofNat, toNat_ofNat, mod_eq_of_lt (hbound _ (sub_le x 1)),
      mod_eq_of_lt (hbound x (Nat.le_refl x))] at hnat
  · intro h
    rw [h]

theorem log2_three :
    (run (fun _ _ => 0) 0 (log2Code 7 2 8) (fun _ => BitVec.ofNat 64 3)) 7 = 1 := by
  have hiff := @log2_iff (fun _ _ => 0) 7 2 8 (by decide) (by decide) (fun _ => BitVec.ofNat 64 3) 3
    rfl (by decide) (by decide)
  refine (hiff.mpr (.inr fun k hk => ?_)).trans (by decide)
  have hlt : k < 2 :=
    (Nat.pow_lt_pow_iff_right (by omega : 1 < 2)).mp (hk ▸ (by decide : 3 < 2 ^ 2))
  obtain rfl | rfl : k = 0 ∨ k = 1 := by omega
  · cases hk
  · cases hk

/-- The logarithm of 4 is taken for 1. -/
theorem log2_four :
    (run (fun _ _ => 0) 0 (log2Code 7 2 8) (fun _ => BitVec.ofNat 64 4)) 7 = 1
      ∧ Nat.log 2 4 = 2 := by
  decide

end Bcc.Lua
