import Bcc.Rw.Reader

namespace Bcc.Rw

open CText

/-!
# Table entries as text — the round trip

* `roundTrips_iff` — the text that the writer makes of a value is read as the value, if the reader
  does not clamp its integers.
-/

mutual

/-- The integers in a value. -/
def ints : Val → List Nat
  | .num n => [n]
  | .chars _ => []
  | .seq vs => allInts vs

/-- The integers in the parts of a value. -/
def allInts : List Val → List Nat
  | [] => []
  | v :: vs => ints v ++ allInts vs

end

mutual

theorem clamp_eq_iff (v : Val) : clamp v = v ↔ ∀ n ∈ ints v, n < 2 ^ 63 := by
  cases v with
  | num n => simp [clamp, ints]; omega
  | chars cs => simp [clamp, ints]
  | seq vs => simp [clamp, ints, clamps_eq_iff vs]

theorem clamps_eq_iff (vs : List Val) : clamps vs = vs ↔ ∀ n ∈ allInts vs, n < 2 ^ 63 := by
  cases vs with
  | nil => simp [clamps, allInts]
  | cons v vs => simp [clamps, allInts, clamp_eq_iff v, clamps_eq_iff vs, or_imp, forall_and]

end

/-- What the writer puts into a buffer that is large enough is read back, into a zeroed object, as
    the value it was written from. -/
def RoundTrips (T : Ty) (v : Val) : Prop :=
  ∃ t, (∀ len, t.length < len → write T v len = .ok (t.length, t))
    ∧ read T t (zero T) = .ok (0, v)

theorem roundTrips_iff_clamp {T : Ty} {v : Val} (hv : isValue T v = true) :
    RoundTrips T v ↔ clamp v = v := by
  constructor
  · rintro ⟨t, hwrite, hread⟩
    -- A long buffer shows that there is only one text.
    have hlong := hwrite (t.length + (text T v).length + 1) (by omega)
    rw [write_eq hv (by omega)] at hlong
    obtain rfl : text T v = t := (Prod.mk.inj (Except.ok.inj hlong)).2
    rw [read_eq hv] at hread
    exact (Prod.mk.inj (Except.ok.inj hread)).2
  · intro hclamp
    refine ⟨text T v, fun len hlen => write_eq hv hlen, ?_⟩
    rw [read_eq hv, hclamp]

/-- **The round trip.**  A value is read back exactly if its integers are below `2 ^ 63`. -/
theorem roundTrips_iff {T : Ty} {v : Val} (hv : isValue T v = true) :
    RoundTrips T v ↔ ∀ n ∈ ints v, n < 2 ^ 63 := by
  rw [roundTrips_iff_clamp hv, clamp_eq_iff]

/-- A struct with the largest integer that is read back, a string, and two structs in an array one
    of which has an empty string. -/
theorem roundTrips_nested :
    RoundTrips
      (.struct [.int 64, .array 4 (.int 8), .array 2 (.struct [.int 32, .array 2 (.int 8)])])
      (.seq [.num (2 ^ 63 - 1), .chars ['h', 'i', nul, nul],
        .seq [.seq [.num 0xffffffff, .chars [nul, nul]], .seq [.num 0, .chars [' ', nul]]]]) :=
  (roundTrips_iff (by decide)).mpr (by decide)

/-- `0xffffffffffffffff` is read as `0x7fffffffffffffff`. -/
theorem not_roundTrips_of_top_bit :
    isValue (.int 64) (.num 0xffffffffffffffff) = true
      ∧ read (.int 64) "0xffffffffffffffff".toList (zero (.int 64))
        = .ok (0, .num 0x7fffffffffffffff)
      ∧ ¬ RoundTrips (.int 64) (.num 0xffffffffffffffff) := by
  have hv : isValue (.int 64) (.num 0xffffffffffffffff) = true := by decide
  refine ⟨hv, read_eq hv, fun h => ?_⟩
  have hclamp := (roundTrips_iff_clamp hv).mp h
  exact absurd (Val.num.inj hclamp) (by decide)

end Bcc.Rw
