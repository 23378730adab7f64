import Bcc.Bytes.Records

namespace Bytes

open List

/-!
# Bytes — bits in network order

The bits of a byte string, counted from the most significant bit of its first byte, and the
numbers that stretches of them stand for.

* `bitAt`, `field` — a bit, and the number in a stretch of bits;
* `beNat`, `bswap` — numbers with the highest byte first;
* `bitAt_patch`, `bitAt_reverse_le` — the bits after a write, and those of a number.
-/

/-- Bit `i`, counted from the most significant bit of the first byte. -/
def bitAt (b : List UInt8) (i : Nat) : Bool := (b.getD (i / 8) 0).toNat.testBit (7 - i % 8)

/-- The number that bytes stand for, the highest first. -/
def beNat (b : List UInt8) : Nat := leNat b.reverse

/-- The number in the `n` bits from `pos` on, the highest first. -/
def field (bits : Nat → Bool) (pos : Nat) : Nat → Nat
  | 0 => 0
  | n + 1 => 2 * field bits pos n + (bits (pos + n)).toNat

variable {b x : List UInt8} {off n i : Nat}

theorem testBit_field (bits : Nat → Bool) (pos n k : Nat) :
    (field bits pos n).testBit k = (decide (k < n) && bits (pos + (n - 1 - k))) := by
  induction n generalizing k with
  | zero => simp [field]
  | succ n ih =>
    rw [field]
    cases k with
    | zero =>
      cases hb : bits (pos + n) <;> simp [hb]
    | succ k =>
      have hhalf : (2 * field bits pos n + (bits (pos + n)).toNat) / 2 = field bits pos n := by
        have := Bool.toNat_lt (bits (pos + n))
        omega
      rw [Nat.testBit_succ, hhalf, ih]
      simp only [Nat.add_lt_add_iff_right]
      rw [show n + 1 - 1 - (k + 1) = n - 1 - k by omega]

/-! ### The bits of a number -/

theorem testBit_leNat (b : List UInt8) (i : Nat) :
    (leNat b).testBit i = (b.getD (i / 8) 0).toNat.testBit (i % 8) := by
  induction b generalizing i with
  | nil => simp [leNat]
  | cons x xs ih =>
    have hx : x.toNat < 2 ^ 8 := x.toNat_lt
    rw [leNat, Nat.add_comm, Nat.testBit_two_pow_mul_add _ hx]
    split
    · next hi => rw [Nat.div_eq_of_lt hi, Nat.mod_eq_of_lt hi]; rfl
    · next hi =>
      obtain ⟨j, rfl⟩ := Nat.exists_eq_add_of_le' (Nat.not_lt.mp hi)
      rw [ih, Nat.add_mod_right, Nat.add_div_right j (by decide)]
      rfl

/-- The lowest bit of a number is the last one of its bytes. -/
theorem testBit_beNat (b : List UInt8) (i : Nat) :
    (beNat b).testBit i = (decide (i < 8 * b.length) && bitAt b (8 * b.length - 1 - i)) := by
  rw [beNat, testBit_leNat]
  by_cases hi : i < 8 * b.length
  · have hbyte : (8 * b.length - 1 - i) / 8 = b.length - 1 - i / 8 := by omega
    have hbit : 7 - (8 * b.length - 1 - i) % 8 = i % 8 := by omega
    have hget : b.reverse.getD (i / 8) 0 = b.getD (b.length - 1 - i / 8) 0 := by
      rw [getD_eq_getElem?_getD, getD_eq_getElem?_getD, getElem?_reverse (by omega)]
    rw [decide_eq_true hi, Bool.true_and, bitAt, hbyte, hbit, hget]
  · have hget : b.reverse.getD (i / 8) 0 = 0 := by
      rw [getD_eq_getElem?_getD, getElem?_eq_none (by rw [length_reverse]; omega)]
      rfl
    rw [decide_eq_false hi, hget]
    simp

/-! ### Bits after a write -/

theorem getD_slice (b : List UInt8) (off : Nat) (hi : i < n) :
    (slice b off n).getD i 0 = b.getD (off + i) 0 := by
  rw [slice, getD_eq_getElem?_getD, getD_eq_getElem?_getD, getElem?_take_of_lt hi, getElem?_drop]

theorem bitAt_slice (b : List UInt8) (off : Nat) (hi : i < 8 * n) :
    bitAt (slice b off n) i = bitAt b (8 * off + i) := by
  have hbyte : (8 * off + i) / 8 = off + i / 8 := by omega
  have hbit : (8 * off + i) % 8 = i % 8 := by omega
  rw [bitAt, bitAt, getD_slice b off (by omega), hbyte, hbit]

theorem getD_patch (h : off + x.length ≤ b.length) (i : Nat) :
    (patch b off x).getD i 0
      = if off ≤ i ∧ i < off + x.length then x.getD (i - off) 0 else b.getD i 0 := by
  have hfront : (b.take off).length = off := length_take_of_le (by omega)
  simp only [patch, getD_eq_getElem?_getD]
  by_cases hbefore : i < off
  · rw [if_neg (by omega), getElem?_append_left (by omega), getElem?_take_of_lt hbefore]
  · rw [getElem?_append_right (by omega), hfront]
    by_cases hinside : i < off + x.length
    · rw [if_pos (by omega), getElem?_append_left (by omega)]
    · rw [if_neg (by omega), getElem?_append_right (by omega), getElem?_drop]
      congr 2
      omega

theorem bitAt_patch (h : off + x.length ≤ b.length) (i : Nat) :
    bitAt (patch b off x) i
      = if 8 * off ≤ i ∧ i < 8 * (off + x.length) then bitAt x (i - 8 * off) else bitAt b i := by
  rw [bitAt, getD_patch h]
  by_cases hi : 8 * off ≤ i ∧ i < 8 * (off + x.length)
  · have hbyte : (i - 8 * off) / 8 = i / 8 - off := by omega
    have hbit : (i - 8 * off) % 8 = i % 8 := by omega
    rw [if_pos (by omega), if_pos hi, bitAt, hbyte, hbit]
  · rw [if_neg (by omega), if_neg hi, bitAt]

/-- The bytes of a number, the highest first, hold its bits. -/
theorem bitAt_reverse_le {v : Nat} (hi : i < 8 * n) :
    bitAt (le n v).reverse i = v.testBit (8 * n - 1 - i) := by
  have hnat := testBit_beNat (le n v).reverse (8 * n - 1 - i)
  rw [beNat, reverse_reverse, leNat_le, length_reverse, length_le,
    show 8 * n - 1 - (8 * n - 1 - i) = i by omega, show 256 ^ n = 2 ^ (8 * n) by rw [Nat.pow_mul],
    Nat.testBit_mod_two_pow, decide_eq_true (by omega)] at hnat
  exact hnat.symm

/-! ### Swapped words -/

/-- `__builtin_bswap32` and `__builtin_bswap64`: the bytes in memory, read the other way
    round. -/
def bswap {w : Nat} (val : BitVec w) : BitVec w := BitVec.ofNat w (beNat (le (w / 8) val.toNat))

/-- A swapped word has its bytes in memory the other way round. -/
theorem le_bswap {v : BitVec (8 * n)} : le n (bswap v).toNat = (le n v.toNat).reverse := by
  have hlen : (le n v.toNat).reverse.length = n := by rw [length_reverse, length_le]
  have hlt : beNat (le n v.toNat) < 2 ^ (8 * n) := by
    have := leNat_lt (le n v.toNat).reverse
    rwa [hlen, show 256 ^ n = 2 ^ (8 * n) by rw [Nat.pow_mul]] at this
  have hback := le_leNat (le n v.toNat).reverse
  rw [hlen] at hback
  rw [bswap, Nat.mul_div_cancel_left n (by decide), BitVec.toNat_ofNat, Nat.mod_eq_of_lt hlt]
  exact hback

end Bytes
