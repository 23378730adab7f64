import Mathlib.Data.List.Nodup
import Mathlib.Data.List.Perm.Subperm

namespace Posix

open List

/-!
# File descriptors

The descriptors of a process: numbers, each open on something.

* `Fds` — the open descriptors; a number is open on one thing.
* `freeFrom`, `free` — the lowest number that is free, from a number on or of all.
* `addFrom`, `add`, `close` — a new descriptor gets the lowest number that is free.
-/

variable {κ : Type}

/-- The descriptors of a process, and what they are open on. -/
structure Fds (κ : Type) where
  entries : List (Nat × κ)
  nodup : (entries.map Prod.fst).Nodup

namespace Fds

/-- The numbers of the open descriptors. -/
def nums (t : Fds κ) : List Nat := t.entries.map Prod.fst

variable {t : Fds κ} {n : Nat}

theorem mem_nums : n ∈ t.nums ↔ ∃ k, (n, k) ∈ t.entries := by
  simp [nums]

/-- A number is open on one thing. -/
theorem eq_of_mem {k k' : κ} (h : (n, k) ∈ t.entries) (h' : (n, k') ∈ t.entries) : k = k' :=
  congrArg Prod.snd (inj_on_of_nodup_map t.nodup h h' rfl)

/-- What a number is open on. -/
def lookup (t : Fds κ) (n : Nat) : Option κ := (t.entries.find? (fun e => e.1 == n)).map Prod.snd

theorem mem_of_lookup {k : κ} (h : t.lookup n = some k) : (n, k) ∈ t.entries := by
  obtain ⟨⟨m, k'⟩, hfind, hk⟩ := Option.map_eq_some_iff.mp h
  obtain rfl : m = n := by simpa using find?_some hfind
  obtain rfl : k' = k := hk
  exact mem_of_find?_eq_some hfind

/-- The lowest number that is free, of those from `low` on. -/
def freeFrom (t : Fds κ) (low : Nat) : Nat :=
  ((List.range' low (t.entries.length + 1)).find? (fun n => n ∉ t.nums)).getD 0

/-- The lowest number that is free. -/
def free (t : Fds κ) : Nat := t.freeFrom 0

theorem find_freeFrom (t : Fds κ) (low : Nat) :
    (List.range' low (t.entries.length + 1)).find? (fun n => n ∉ t.nums)
      = some (t.freeFrom low) := by
  -- One of so many numbers is not among those of the entries.
  have hsome : ((List.range' low (t.entries.length + 1)).find? (fun n => n ∉ t.nums)).isSome := by
    by_contra hnone
    rw [Bool.not_eq_true, Option.isSome_eq_false_iff, Option.isNone_iff_eq_none,
      find?_eq_none] at hnone
    have hsub : List.range' low (t.entries.length + 1) ⊆ t.nums := fun n hn => by
      simpa using hnone n hn
    have hlength := ((nodup_range' 1).subperm hsub).length_le
    simp only [length_range', nums, length_map] at hlength
    omega
  obtain ⟨n, hn⟩ := Option.isSome_iff_exists.mp hsome
  rw [freeFrom, hn]
  rfl

theorem freeFrom_notMem (t : Fds κ) (low : Nat) : t.freeFrom low ∉ t.nums := by
  simpa using find?_some (t.find_freeFrom low)

theorem free_notMem (t : Fds κ) : t.free ∉ t.nums := t.freeFrom_notMem 0

theorem le_freeFrom (t : Fds κ) (low : Nat) : low ≤ t.freeFrom low :=
  (mem_range'_1.mp (mem_of_find?_eq_some (t.find_freeFrom low))).1

/-- Open a descriptor whose number is at least `low`. -/
def addFrom (t : Fds κ) (low : Nat) (k : κ) : Fds κ :=
  ⟨(t.freeFrom low, k) :: t.entries, nodup_cons.mpr ⟨t.freeFrom_notMem low, t.nodup⟩⟩

/-- Open a descriptor. -/
def add (t : Fds κ) (k : κ) : Fds κ := t.addFrom 0 k

/-- Close a descriptor, if it is open. -/
def close (t : Fds κ) (n : Nat) : Fds κ :=
  ⟨t.entries.filter (fun e => e.1 ≠ n), t.nodup.sublist (filter_sublist.map _)⟩

@[simp] theorem entries_add (t : Fds κ) (k : κ) :
    (t.add k).entries = (t.free, k) :: t.entries := rfl

@[simp] theorem nums_add (t : Fds κ) (k : κ) : (t.add k).nums = t.free :: t.nums := rfl

theorem mem_close {m : Nat} {k : κ} :
    (m, k) ∈ (t.close n).entries ↔ (m, k) ∈ t.entries ∧ m ≠ n := by
  simp [close]

@[simp] theorem mem_nums_close {m : Nat} : m ∈ (t.close n).nums ↔ m ∈ t.nums ∧ m ≠ n := by
  simp [nums, close]

end Fds

end Posix
