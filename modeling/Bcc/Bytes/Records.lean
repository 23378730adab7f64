import Bcc.Bytes.Layout

namespace Bytes

open List

/-!
# Bytes — slices, records and writes

* `records` — bytes that are cut into records of one length;
* `patch` — bytes with some of them overwritten.
-/

variable {b : List UInt8} {off m n w : Nat}

/-- A slice in two parts. -/
theorem slice_add (b : List UInt8) (off m n : Nat) :
    slice b off (m + n) = slice b off m ++ slice b (off + m) n := by
  unfold slice
  rw [take_add, drop_drop]

/-- The bytes of a number that was read are those it was read from. -/
theorem le_leNat_slice (h : off + w ≤ b.length) : le w (leNat (slice b off w)) = slice b off w := by
  have hle := le_leNat (slice b off w)
  rwa [length_slice h] at hle

theorem le_injective (hm : m < 256 ^ w) (hn : n < 256 ^ w) (h : le w m = le w n) : m = n := by
  have hnat := congrArg leNat h
  rwa [leNat_le, leNat_le, Nat.mod_eq_of_lt hm, Nat.mod_eq_of_lt hn] at hnat

/-- What is at a place stands there. -/
theorem at_slice (b : List UInt8) (off n : Nat) : At b off (slice b off n) := take_prefix n _

/-- The first `n` records of `r` bytes. -/
def records (r : Nat) : Nat → List UInt8 → List (List UInt8)
  | 0, _ => []
  | n + 1, b => b.take r :: records r n (b.drop r)

theorem length_records (r n : Nat) (b : List UInt8) : (records r n b).length = n := by
  induction n generalizing b with
  | zero => rfl
  | succ n ih => exact congrArg Nat.succ (ih _)

/-- The records have their length and are, put together, the bytes. -/
theorem flatten_records {r : Nat} (h : b.length = n * r) :
    (records r n b).flatten = b ∧ ∀ x ∈ records r n b, x.length = r := by
  induction n generalizing b with
  | zero =>
    rw [Nat.zero_mul] at h
    exact ⟨(eq_nil_of_length_eq_zero h).symm, fun x hx => absurd hx not_mem_nil⟩
  | succ n ih =>
    rw [Nat.succ_mul] at h
    obtain ⟨hflat, hlen⟩ := ih (show (b.drop r).length = n * r by rw [List.length_drop]; omega)
    constructor
    · rw [records, flatten_cons, hflat, take_append_drop]
    · intro x hx
      rcases mem_cons.mp hx with rfl | hx
      · rw [length_take]
        omega
      · exact hlen x hx

/-! ### Writes -/

/-- The bytes with `x` in the place of those from `off` on. -/
def patch (b : List UInt8) (off : Nat) (x : List UInt8) : List UInt8 :=
  b.take off ++ (x ++ b.drop (off + x.length))

variable {x y : List UInt8}

section

variable (h : off + x.length ≤ b.length)
include h

theorem length_patch : (patch b off x).length = b.length := by
  rw [patch, length_append, length_append, length_take, List.length_drop]
  omega

/-- A write into the front of a text. -/
theorem patch_append : patch (b ++ y) off x = patch b off x ++ y := by
  unfold patch
  rw [take_append_of_le_length (by omega), drop_append_of_le_length h]
  simp

/-- What is before a write stays. -/
theorem slice_patch_before (hn : n + w ≤ off) : slice (patch b off x) n w = slice b n w := by
  have hlen : (b.take off).length = off := by
    rw [length_take]
    omega
  unfold slice patch
  rw [drop_append_of_le_length (by omega),
    take_append_of_le_length (by rw [List.length_drop]; omega), drop_take, take_take,
    Nat.min_eq_left (by omega)]

end

theorem take_patch (h : off ≤ b.length) : (patch b off x).take off = b.take off := by
  have hlen : (b.take off).length = off := length_take_of_le h
  unfold patch
  rw [take_left' hlen]

/-- The front of the bytes, with all that was written. -/
theorem take_patch_add (h : off ≤ b.length) (k : Nat) : (patch b off x).take (off + x.length + k)
    = b.take off ++ (x ++ (b.drop (off + x.length)).take k) := by
  have hlen : (b.take off ++ x).length = off + x.length := by
    rw [length_append, length_take_of_le h]
  unfold patch
  rw [← append_assoc, ← hlen, take_length_add_append, append_assoc]

theorem drop_patch (h : off + x.length ≤ b.length) (hn : off + x.length ≤ n) :
    (patch b off x).drop n = b.drop n := by
  have hlen : (b.take off ++ x).length = off + x.length := by
    rw [length_append, length_take]
    omega
  obtain ⟨k, rfl⟩ := Nat.exists_eq_add_of_le hn
  unfold patch
  rw [← append_assoc, ← drop_drop, drop_left' hlen, drop_drop]

/-- What is behind a write stays. -/
theorem slice_patch_behind (h : off + x.length ≤ b.length) (hn : off + x.length ≤ n) :
    slice (patch b off x) n w = slice b n w := by
  unfold slice
  rw [drop_patch h hn]

/-- The bytes that were written. -/
theorem slice_patch_self (h : off ≤ b.length) : slice (patch b off x) off x.length = x := by
  have hlen : (b.take off).length = off := by
    rw [length_take]
    omega
  unfold slice patch
  rw [drop_left' hlen, take_left]

/-- Bytes that are written where they already stand. -/
theorem patch_self (h : slice b off x.length = x) : patch b off x = b := by
  have hback : x ++ b.drop (off + x.length) = b.drop off := by
    calc x ++ b.drop (off + x.length)
        = (b.drop off).take x.length ++ (b.drop off).drop x.length := by
          rw [drop_drop]
          exact congrArg (· ++ _) h.symm
      _ = b.drop off := take_append_drop _ _
  rw [patch, hback, take_append_drop]

/-- A read before a write. -/
theorem readLE_patch_before (h : off + x.length ≤ b.length) (hn : n + w ≤ off) :
    readLE (patch b off x) n w = readLE b n w := by
  unfold readLE
  rw [length_patch h, slice_patch_before h hn]

/-- A slice of the front of a text. -/
theorem slice_append_left (h : off + n ≤ b.length) : slice (b ++ y) off n = slice b off n := by
  unfold slice
  rw [drop_append_of_le_length (by omega),
    take_append_of_le_length (by rw [List.length_drop]; omega)]

/-- A read in the front of a text. -/
theorem readLE_append_left (h : off + w ≤ b.length) :
    readLE (b ++ y) off w = .ok (leNat (slice b off w)) := by
  rw [readLE_eq (by rw [length_append]; omega), slice_append_left h]

/-- A read stays what it is when something is added behind. -/
theorem readLE_append_of_ok (h : readLE b off w = .ok n) : readLE (b ++ y) off w = .ok n := by
  unfold readLE at h
  split at h
  · next hle =>
    rw [readLE_append_left hle]
    exact h
  · cases h

end Bytes
