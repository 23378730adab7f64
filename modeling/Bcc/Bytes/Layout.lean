import Bcc.Text.Outcome
import Mathlib.Algebra.Order.Ring.Int
import Mathlib.Data.List.Basic

namespace Bytes

open CText List

/-!
# Bytes — little-endian numbers and what stands where

Files are lists of bytes.  A read names its place and its width, and goes wrong outside the file.

* `le`, `readLE` — a little-endian number, and its read;
* `At` — bytes stand in others from an offset on;
* `at_append` — a record stands somewhere exactly if each field stands at its own offset.
-/

/-! ### Numbers -/

/-- The `w` bytes of a number, the lowest first. -/
def le : Nat → Nat → List UInt8
  | 0, _ => []
  | w + 1, n => UInt8.ofNat n :: le w (n / 256)

/-- The number that bytes stand for, the lowest first. -/
def leNat : List UInt8 → Nat
  | [] => 0
  | x :: xs => x.toNat + 256 * leNat xs

@[simp] theorem length_le (w n : Nat) : (le w n).length = w := by
  induction w generalizing n with
  | zero => rfl
  | succ w ih => exact congrArg Nat.succ (ih (n / 256))

theorem leNat_le (w n : Nat) : leNat (le w n) = n % 256 ^ w := by
  induction w generalizing n with
  | zero => exact (Nat.mod_one n).symm
  | succ w ih =>
    show (UInt8.ofNat n).toNat + 256 * leNat (le w (n / 256)) = n % 256 ^ (w + 1)
    rw [ih]
    have hpow : 256 ^ (w + 1) = 256 * 256 ^ w := Nat.pow_succ'
    rw [hpow]
    exact Nat.mod_mul.symm

theorem leNat_lt (b : List UInt8) : leNat b < 256 ^ b.length := by
  induction b with
  | nil => exact Nat.one_pos
  | cons x xs ih =>
    have hx : x.toNat < 256 := x.toNat_lt
    show x.toNat + 256 * leNat xs < 256 ^ (xs.length + 1)
    omega

theorem le_leNat (b : List UInt8) : le b.length (leNat b) = b := by
  induction b with
  | nil => rfl
  | cons x xs ih =>
    have hx : x.toNat < 256 := x.toNat_lt
    have hmod : UInt8.ofNat (x.toNat + 256 * leNat xs) = x := by
      apply UInt8.toNat_inj.mp
      rw [UInt8.toNat_ofNat']
      omega
    have hdiv : (x.toNat + 256 * leNat xs) / 256 = leNat xs := by omega
    show UInt8.ofNat (x.toNat + 256 * leNat xs) :: le xs.length ((x.toNat + 256 * leNat xs) / 256)
      = x :: xs
    rw [hmod, hdiv, ih]

/-! ### Reads -/

/-- The bytes from `off` on, at most `len`. -/
def slice (b : List UInt8) (off len : Nat) : List UInt8 := (b.drop off).take len

/-- The `len` bytes at `off`; they must be there. -/
def readBytes (b : List UInt8) (off len : Nat) : Res (List UInt8) :=
  if off + len ≤ b.length then .ok (slice b off len) else .error .outOfBounds

/-- The number of `w` bytes at `off`; they must be there. -/
def readLE (b : List UInt8) (off w : Nat) : Res Nat :=
  if off + w ≤ b.length then .ok (leNat (slice b off w)) else .error .outOfBounds

variable {b : List UInt8} {off len w n : Nat} {x y : List UInt8}

theorem length_slice (h : off + len ≤ b.length) : (slice b off len).length = len := by
  rw [slice, length_take, List.length_drop]
  omega

theorem readBytes_eq (h : off + len ≤ b.length) : readBytes b off len = .ok (slice b off len) :=
  if_pos h

theorem readLE_eq (h : off + w ≤ b.length) : readLE b off w = .ok (leNat (slice b off w)) :=
  if_pos h

/-- A number that was read fits its width. -/
theorem readLE_lt (h : readLE b off w = .ok n) : n < 256 ^ w := by
  unfold readLE at h
  split at h
  · next hle =>
    cases h
    have hlt := leNat_lt (slice b off w)
    rwa [length_slice hle] at hlt
  · cases h

theorem leNat_slice_lt (b : List UInt8) (off w : Nat) : leNat (slice b off w) < 256 ^ w := by
  refine Nat.lt_of_lt_of_le (leNat_lt _) (Nat.pow_le_pow_right (by decide) ?_)
  rw [slice, length_take]
  exact Nat.min_le_left _ _

/-! ### What stands where -/

/-- The bytes `x` stand in `b` from `off` on. -/
def At (b : List UInt8) (off : Nat) (x : List UInt8) : Prop := x <+: b.drop off

/-- Fields behind each other. -/
theorem at_append : At b off (x ++ y) ↔ At b off x ∧ At b (off + x.length) y := by
  constructor
  · rintro ⟨t, ht⟩
    refine ⟨⟨y ++ t, by rw [← append_assoc, ht]⟩, t, ?_⟩
    rw [← drop_drop, ← ht, append_assoc, drop_left]
  · rintro ⟨⟨s, hs⟩, t, ht⟩
    rw [← drop_drop, ← hs, drop_left] at ht
    exact ⟨t, by rw [append_assoc, ht, hs]⟩

/-- What stands somewhere lies inside. -/
theorem At.le_length (h : At b off x) (hx : x ≠ []) : off + x.length ≤ b.length := by
  have hlen := h.length_le
  rw [List.length_drop] at hlen
  have hpos := length_pos_iff.mpr hx
  omega

theorem At.slice_eq (h : At b off x) : slice b off x.length = x := by
  obtain ⟨t, ht⟩ := h
  rw [slice, ← ht, take_left]

/-- A read finds the bytes. -/
theorem At.readBytes (h : At b off x) (hle : off ≤ b.length) :
    readBytes b off x.length = .ok x := by
  have hlen := List.IsPrefix.length_le h
  rw [List.length_drop] at hlen
  rw [readBytes_eq (by omega), h.slice_eq]

/-- A read finds the number. -/
theorem At.readLE (h : At b off (le w n)) (hw : 0 < w) (hn : n < 256 ^ w) :
    readLE b off w = .ok n := by
  have hne : le w n ≠ [] := by
    intro hnil
    have := congrArg List.length hnil
    rw [length_le] at this
    exact absurd this (Nat.ne_of_gt hw)
  have hle := h.le_length hne
  have hs := h.slice_eq
  rw [length_le] at hle hs
  rw [readLE_eq hle, hs, leNat_le, Nat.mod_eq_of_lt hn]

/-- A piece of a concatenation stands behind what comes before it. -/
theorem at_append_length (pre x post : List UInt8) : At (pre ++ (x ++ post)) pre.length x := by
  unfold At
  rw [drop_left]
  exact prefix_append x post

end Bytes
