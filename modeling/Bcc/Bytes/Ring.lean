import Bcc.Bytes.Records
import Mathlib.Data.List.Range

namespace Bytes

open Function List Nat

/-!
# Bytes — memory that is used round and round

* `around` — bytes of a ring of `n` bytes.  Positions grow without bound, and the byte at a position
  is at the offset that is left over by division by `n`;
* `around_eq_flat_append` — bytes that wrap, as two pieces of memory.
-/

/-- The `len` bytes from the offset `off` on. -/
def flat (mem : Nat → UInt8) (off len : Nat) : List UInt8 :=
  (List.range len).map (fun i => mem (off + i))

/-- The `len` bytes from the position `pos` on. -/
def around (mem : Nat → UInt8) (n pos len : Nat) : List UInt8 :=
  (List.range len).map (fun i => mem ((pos + i) % n))

variable {mem : Nat → UInt8} {n pos off len k m : Nat}

@[simp] theorem length_flat (mem : Nat → UInt8) (off len : Nat) :
    (flat mem off len).length = len := by
  rw [flat, length_map, length_range]

@[simp] theorem length_around (mem : Nat → UInt8) (n pos len : Nat) :
    (around mem n pos len).length = len := by
  rw [around, length_map, length_range]

theorem flat_add (mem : Nat → UInt8) (off k m : Nat) :
    flat mem off (k + m) = flat mem off k ++ flat mem (off + k) m := by
  unfold flat
  rw [range_add, map_append, map_map]
  congr 1
  apply map_congr_left
  intro i _
  show mem (off + (k + i)) = mem (off + k + i)
  rw [Nat.add_assoc]

/-- Bytes in two parts. -/
theorem around_add (mem : Nat → UInt8) (n pos k m : Nat) :
    around mem n pos (k + m) = around mem n pos k ++ around mem n (pos + k) m := by
  unfold around
  rw [range_add, map_append, map_map]
  congr 1
  apply map_congr_left
  intro i _
  show mem ((pos + (k + i)) % n) = mem ((pos + k + i) % n)
  rw [Nat.add_assoc]

/-- Counters that wrap where the ring does are as good as positions. -/
theorem around_mod (mem : Nat → UInt8) {w : Nat} (h : n ∣ w) (pos len : Nat) :
    around mem n (pos % w) len = around mem n pos len := by
  apply map_congr_left
  intro i _
  show mem ((pos % w + i) % n) = mem ((pos + i) % n)
  rw [add_mod, mod_mod_of_dvd pos h, ← add_mod]

/-- Bytes that do not go past the end of the memory. -/
theorem around_eq_flat (h : pos % n + len ≤ n) : around mem n pos len = flat mem (pos % n) len := by
  apply map_congr_left
  intro i hi
  have hi := mem_range.mp hi
  show mem ((pos + i) % n) = mem (pos % n + i)
  rw [add_mod, mod_eq_of_lt (show i < n by omega), mod_eq_of_lt (by omega)]

/-- Bytes that go past the end of the memory, in two pieces. -/
theorem around_eq_flat_append (hn : 0 < n) (h : n ≤ pos % n + len) (hlen : len ≤ n) :
    around mem n pos len
      = flat mem (pos % n) (n - pos % n) ++ flat mem 0 (len - (n - pos % n)) := by
  have hlt := mod_lt pos hn
  have hsplit : len = (n - pos % n) + (len - (n - pos % n)) := by omega
  have hback : (pos + (n - pos % n)) % n = 0 := by
    have hpos := div_add_mod pos n
    have heq : pos + (n - pos % n) = n * (pos / n + 1) := by
      rw [Nat.mul_add]
      omega
    rw [heq, mul_mod_right]
  conv_lhs => rw [hsplit]
  rw [around_add, around_eq_flat (by omega)]
  rw [around_eq_flat (by omega), hback]

/-- Positions less than a round apart are different places. -/
theorem mod_ne_of_lt {a b : Nat} (h : a < b) (hn : b < a + n) : a % n ≠ b % n := by
  intro heq
  have hzero : (b - a) % n = 0 := sub_mod_eq_zero_of_mod_eq heq.symm
  rw [mod_eq_of_lt (by omega)] at hzero
  omega

/-- A write behind the bytes, less than a round after their start, does not touch them. -/
theorem around_update {i : Nat} (h : len ≤ i) (hn : i < n) (x : UInt8) :
    around (update mem ((pos + i) % n) x) n pos len = around mem n pos len := by
  apply map_congr_left
  intro j hj
  have hj := mem_range.mp hj
  exact update_of_ne (mod_ne_of_lt (by omega) (by omega)) _ _

end Bytes
