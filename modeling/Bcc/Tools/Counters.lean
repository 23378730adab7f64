import Bcc.Run.Shared
import Mathlib.Algebra.BigOperators.Pi
import Mathlib.Algebra.Order.BigOperators.Group.Finset
import Mathlib.Data.UInt

namespace Bcc.Tools

open Finset Run Shared

/-!
# Tools — counters in maps

`memleak` and `klockstat` count in maps that all processors share.

* `updateStatisticsAdd_counts` — the size and the number are added as one word of 64 bits, to an
  entry that is made with `BPF_NOEXIST`;
* `account_counts` — counters are added to one by one, in an entry made with `BPF_ANY`.
-/

variable {ι : Type*} [DecidableEq ι]

/-- `incremental_cinfo.bits`. -/
def incrementalCinfo (sz : UInt64) : UInt64 := UInt64.ofNat (sz.toNat % 2 ^ 40 + 1 * 2 ^ 40)

/-- `total_size` and `number_of_allocs` of a `union combined_alloc_info`. -/
def combinedAllocInfo (bits : UInt64) : Nat × Nat := (bits.toNat % 2 ^ 40, bits.toNat / 2 ^ 40)

/-- A step of `update_statistics_add`, with `bpf_map_lookup_or_try_init` in it. -/
def updateStatisticsAdd (stackId sz : ι → UInt64) :
    State ι UInt64 UInt64 → ι → State ι UInt64 UInt64 :=
  step .noexist stackId fun i => [incrementalCinfo (sz i)]

theorem toNat_sum (f : ι → UInt64) (s : Finset ι) :
    (∑ i ∈ s, f i).toNat = (∑ i ∈ s, (f i).toNat) % 2 ^ 64 := by
  induction s using Finset.induction_on with
  | empty => rfl
  | insert i s hi ih =>
    rw [sum_insert hi, sum_insert hi, UInt64.toNat_add, ih, Nat.add_mod_mod]

/-- The parts of a sum, as long as there is room for them. -/
theorem combinedAllocInfo_sum (sz : ι → UInt64) {s : Finset ι}
    (hsize : ∑ i ∈ s, (sz i).toNat < 2 ^ 40) (hcard : #s < 2 ^ 24) :
    combinedAllocInfo (∑ i ∈ s, incrementalCinfo (sz i)) = (∑ i ∈ s, (sz i).toNat, #s) := by
  have hone : ∀ i ∈ s, (incrementalCinfo (sz i)).toNat = (sz i).toNat + 2 ^ 40 := by
    intro i hi
    have hle := single_le_sum_of_canonicallyOrdered (f := fun i => (sz i).toNat) hi
    rw [incrementalCinfo, UInt64.toNat_ofNat']
    omega
  have hsum : (∑ i ∈ s, incrementalCinfo (sz i)).toNat
      = ∑ i ∈ s, (sz i).toNat + #s * 2 ^ 40 := by
    rw [toNat_sum, sum_congr rfl hone, sum_add_distrib, sum_const, smul_eq_mul]
    omega
  rw [combinedAllocInfo]
  ext <;> dsimp only <;> omega

variable [Fintype ι]

/-- **No update is lost in `memleak`.**  After any steps by which the executions get to their ends,
    each has found an entry, no entry was made twice for a key, and an entry has the sum of the
    sizes and the number of the executions for its key. -/
theorem updateStatisticsAdd_counts (stackId sz : ι → UInt64) (ts : List ι)
    {s : State ι UInt64 UInt64} (hs : ts.foldl (updateStatisticsAdd stackId sz) start = s)
    (hend : ∀ i, (s.pc i).ended) :
    (∀ i, ∃ gen bits, s.pc i = .add gen [] ∧ s.map (stackId i) = some (gen, bits))
    ∧ (∀ k, ∀ e ∈ s.map k, e.1 = 0)
    ∧ ∀ k, ∑ i with stackId i = k, (sz i).toNat < 2 ^ 40 → #{i | stackId i = k} < 2 ^ 24 →
      combinedAllocInfo (value (s.map k))
        = (∑ i with stackId i = k, (sz i).toNat, #{i | stackId i = k}) := by
  have hspares : Each (updateStatisticsAdd stackId sz) (Spares .noexist stackId) start ts :=
    @each_of_inv _ _ _ _ (fun _ => True) (fun _ _ _ => ⟨fun h => (nomatch h), trivial⟩) _ trivial ts
  obtain ⟨hfound, hvalue⟩ := run_ended hspares hs hend
  refine ⟨hfound, fun k => hs ▸ run_noexist ts k, fun k hsize hcard => ?_⟩
  rw [hvalue]
  simp only [List.sum_singleton]
  exact combinedAllocInfo_sum sz hsize hcard

/-- Two executions that both find no entry. -/
theorem updateStatisticsAdd_counts_both :
    combinedAllocInfo (value (([0, 1, 0, 1, 1, 0, 0, 1].foldl
      (updateStatisticsAdd (fun _ : Fin 2 => 7) fun _ => 16) start).map 7)) = (32, 2) :=
  (updateStatisticsAdd_counts (fun _ : Fin 2 => 7) (fun _ => 16) [0, 1, 0, 1, 1, 0, 0, 1] rfl
    (by decide)).2.2 7 (by decide) (by decide)

/-- The counters of a `struct lock_stat`. -/
inductive LockStat where
  | acqCount
  | acqTotalTime
  | hldCount
  | hldTotalTime
  deriving DecidableEq

structure LockholderInfo where
  stackId : UInt32
  taskId : UInt64
  tryAt : UInt64
  acqAt : UInt64
  relAt : UInt64

def LockholderInfo.key (perThread : Bool) (li : LockholderInfo) : UInt32 :=
  if perThread then li.taskId.toUInt32 else li.stackId

/-- A step of `account`, as far as the counters go. -/
def account (perThread : Bool) (li : ι → LockholderInfo) :
    State ι UInt32 (LockStat → UInt64) → ι → State ι UInt32 (LockStat → UInt64) :=
  step .any (fun i => (li i).key perThread) fun i =>
    [Pi.single .acqCount 1, Pi.single .acqTotalTime ((li i).acqAt - (li i).tryAt),
      Pi.single .hldCount 1, Pi.single .hldTotalTime ((li i).relAt - (li i).acqAt)]

/-- What an execution is to count. -/
def LockholderInfo.counts (li : LockholderInfo) : LockStat → UInt64
  | .acqCount | .hldCount => 1
  | .acqTotalTime => li.acqAt - li.tryAt
  | .hldTotalTime => li.relAt - li.acqAt

/-- **The counters of `klockstat`** are those of all executions for the key if no execution makes
    an entry for a key when another has already found one. -/
theorem account_counts (perThread : Bool) (li : ι → LockholderInfo) (ts : List ι)
    {s : State ι UInt32 (LockStat → UInt64)} (hs : ts.foldl (account perThread li) start = s)
    (hend : ∀ i, (s.pc i).ended)
    (hspares : Each (account perThread li) (Spares .any fun i => (li i).key perThread) start ts)
    (k : UInt32) (c : LockStat) :
    value (s.map k) c = ∑ i with (li i).key perThread = k, (li i).counts c := by
  rw [(run_ended hspares hs hend).2 k, Finset.sum_apply]
  refine sum_congr rfl fun i _ => ?_
  cases c <;> simp [LockholderInfo.counts]

/-- Two releases that both look up, both update, and only then look up again. -/
theorem account_counts_both :
    value (([0, 1, 0, 1, 1, 0, 0, 1, 0, 1, 1, 0, 1, 0].foldl
      (account false fun _ : Fin 2 => ⟨5, 0, 10, 20, 50⟩) start).map 5) .hldTotalTime = 60 :=
  account_counts false (fun _ : Fin 2 => ⟨5, 0, 10, 20, 50⟩)
    [0, 1, 0, 1, 1, 0, 0, 1, 0, 1, 1, 0, 1, 0] rfl (by decide)
    (by refine ⟨?_, ?_, ?_, ?_, ?_, ?_, ?_, ?_, ?_, ?_, ?_, ?_, ?_, ?_, trivial⟩ <;> decide)
    5 .hldTotalTime

/-- Of two first releases at one place, the second replaces the entry of the first. -/
theorem account_loses :
    ∃ s, [0, 1, 0, 0, 0, 0, 0, 0, 1, 1, 1, 1, 1, 1].foldl
        (account false fun _ : Fin 2 => ⟨5, 0, 10, 20, 50⟩) start = s
      ∧ (∀ i, (s.pc i).ended) ∧ value (s.map 5) .acqCount = 1 :=
  ⟨_, rfl, by decide, by decide⟩

end Bcc.Tools
