import Mathlib.Data.List.Basic

namespace CLayout

/-!
# C structs — where members are placed

* `place`, `finish` — the members of a struct are placed one after the other, each at the next
  offset that its alignment allows;
* `Abi` — says how long a member is and how it is aligned; nothing else is assumed about it.
-/

/-- Sizes and alignments of members. -/
structure Abi (M : Type) where
  size : M → Nat
  align : M → Nat

/-- The next multiple. -/
def roundUp (n a : Nat) : Nat := n + (a - n % a) % a

theorem roundUp_of_dvd {n a : Nat} (h : a ∣ n) : roundUp n a = n := by
  rw [roundUp, Nat.mod_eq_zero_of_dvd h, Nat.sub_zero, Nat.mod_self, Nat.add_zero]

section Place

variable {M : Type} (abi : Abi M)

/-- The members with their offsets, the first due at `pos`. -/
def place : Nat → List M → List (M × Nat)
  | _, [] => []
  | pos, m :: ms =>
    (m, roundUp pos (abi.align m)) :: place (roundUp pos (abi.align m) + abi.size m) ms

/-- The offset behind the members. -/
def finish : Nat → List M → Nat
  | pos, [] => pos
  | pos, m :: ms => finish (roundUp pos (abi.align m) + abi.size m) ms

theorem finish_append (pos : Nat) (ms ns : List M) :
    finish abi pos (ms ++ ns) = finish abi (finish abi pos ms) ns := by
  induction ms generalizing pos with
  | nil => rfl
  | cons m ms ih => exact ih _

variable {abi}

/-- A member that is due at an aligned offset is placed there. -/
theorem place_singleton {pos : Nat} {m : M} (h : abi.align m ∣ pos) :
    place abi pos [m] = [(m, pos)] ∧ finish abi pos [m] = pos + abi.size m := by
  rw [place, finish, roundUp_of_dvd h]
  exact ⟨rfl, rfl⟩

/-- Members of one byte fill up. -/
theorem finish_bytes {pos : Nat} {ms : List M} (h : ∀ m ∈ ms, abi.size m = 1 ∧ abi.align m = 1) :
    finish abi pos ms = pos + ms.length := by
  induction ms generalizing pos with
  | nil => rfl
  | cons m ms ih =>
    obtain ⟨⟨hsize, halign⟩, hms⟩ := List.forall_mem_cons.mp h
    rw [finish, halign, roundUp_of_dvd (Nat.one_dvd pos), ih hms, List.length_cons]
    omega

end Place

end CLayout
