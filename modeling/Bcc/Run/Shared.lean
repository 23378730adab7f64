import Bcc.Run.Ledger
import Mathlib.Algebra.BigOperators.Group.Finset.Piecewise
import Mathlib.Data.Fintype.Defs

namespace Shared

open Finset Function Run

/-!
# Counters that are shared

* `At`, `next` — an execution looks up the entry of its key in a map, makes one if there is none,
  looks it up again and adds to it, in steps that come in any order with those of others;
* `kept_step`, `run_ended` — what is added to an entry that has been replaced is in no entry.
-/

/-- Whether an update replaces the entry that there is. -/
inductive Flag where
  | any
  | noexist
  deriving DecidableEq

/-- Where an execution is: in front of the first lookup, of the update or of the second lookup,
    with the number of the entry it has found and what it has still to add, or at its end without
    an entry. -/
inductive At (V : Type*) where
  | lookup
  | update
  | again
  | add (gen : Nat) (rest : List V)
  | failed

structure State (ι K V : Type*) where
  map : K → Option (Nat × V)
  pc : ι → At V

variable {ι K V : Type*} [AddCommGroup V]

/-- What a step does to the entry of the key, and where the execution is then. -/
def next (flag : Flag) (adds : List V) (e : Option (Nat × V)) : At V → Option (Nat × V) × At V
  | .lookup => (e, e.elim .update fun e => .add e.1 adds)
  | .update => (some (e.elim (0, 0) fun e => if flag = .any then (e.1 + 1, 0) else e), .again)
  | .again => (e, e.elim .failed fun e => .add e.1 adds)
  | .add gen (a :: rest) =>
    (e.map fun e => (e.1, if e.1 = gen then e.2 + a else e.2), .add gen rest)
  | .add gen [] => (e, .add gen [])
  | .failed => (e, .failed)

/-- No entries, and executions that have not begun. -/
def start : State ι K V := ⟨fun _ => none, fun _ => .lookup⟩

/-- The execution is in front of the update. -/
def At.updates : At V → Bool
  | .update => true
  | _ => false

/-- The execution has found an entry. -/
def At.found : At V → Bool
  | .add _ _ => true
  | _ => false

/-- The execution is at its end. -/
def At.ended : At V → Bool
  | .add _ [] | .failed => true
  | _ => false

/-- What is in an entry. -/
def value (e : Option (Nat × V)) : V := e.elim 0 Prod.snd

/-- What an execution has added. -/
def made (adds : List V) : At V → V
  | .add _ rest => adds.sum - rest.sum
  | _ => 0

/-- The entry is there that an execution goes by. -/
def Holds (e : Option (Nat × V)) : At V → Prop
  | .lookup | .update => True
  | .again => e.isSome
  | .add gen _ => ∃ v, e = some (gen, v)
  | .failed => False

section Next

variable {flag : Flag} (as : List V) {e : Option (Nat × V)} {p q : At V}

/-- An entry of zeros may be replaced. -/
theorem next_value (he : Holds e p) (hzero : flag = .any → p.updates → value e = 0) :
    value (next flag as e p).1 + made as p = value e + made as (next flag as e p).2 := by
  cases p with
  | update =>
    by_cases hf : flag = .any
    · have hrest : value (next flag as e .update).1 = 0 := by cases e <;> simp [next, value, hf]
      rw [hrest, hzero hf rfl]
      rfl
    · cases e <;> simp [next, made, value, hf]
  | add gen rest =>
    obtain ⟨v, rfl⟩ := he
    cases rest with
    | nil => rfl
    | cons a rest =>
      simp only [next, made, value, Option.map_some, Option.elim_some, if_true, List.sum_cons]
      abel
  | _ => cases e <;> simp [next, made]

theorem holds_next (he : Holds e p) : Holds (next flag as e p).1 (next flag as e p).2 := by
  cases p with
  | add gen rest => cases rest <;> grind [next, Holds]
  | _ => cases e <;> grind [next, Holds]

/-- The entry stays for another execution. -/
theorem holds_next_of (hq : Holds e q)
    (hspares : flag = .any → p.updates → q.found = false) :
    Holds (next flag as e p).1 q := by
  cases p with
  | add gen rest => cases rest <;> cases q <;> grind [next, Holds, At.updates, At.found]
  | update => cases q <;> grind [next, Holds, At.updates, At.found]
  | _ => exact hq

theorem next_noexist (he : ∀ x ∈ e, x.1 = 0) : ∀ x ∈ (next .noexist as e p).1, x.1 = 0 := by
  cases p with
  | update => cases e <;> grind [next]
  | add gen rest => cases e <;> cases rest <;> grind [next]
  | _ => exact he

end Next

variable [DecidableEq ι] [DecidableEq K] (flag : Flag) (key : ι → K) (adds : ι → List V)

def step (s : State ι K V) (t : ι) : State ι K V :=
  let r := next flag (adds t) (s.map (key t)) (s.pc t)
  ⟨update s.map (key t) r.1, update s.pc t r.2⟩

/-- An update does not replace an entry that an execution has found. -/
def Spares (s : State ι K V) (t : ι) : Prop :=
  flag = .any → (s.pc t).updates → ∀ i, key i = key t → (s.pc i).found = false

instance [Fintype ι] (s : State ι K V) (t : ι) : Decidable (Spares flag key s t) :=
  inferInstanceAs (Decidable (_ → _ → ∀ _, _))

/-- An entry has what was added by the executions for its key. -/
structure Kept [Fintype ι] (s : State ι K V) : Prop where
  holds : ∀ i, Holds (s.map (key i)) (s.pc i)
  value_eq : ∀ k, value (s.map k) = ∑ i with key i = k, made (adds i) (s.pc i)

variable {flag key adds}

/-- **One step.** -/
theorem kept_step [Fintype ι] {s : State ι K V} {t : ι} (h : Kept key adds s)
    (ht : Spares flag key s t) : Kept key adds (step flag key adds s t) where
  holds i := by
    show Holds (update s.map (key t) _ (key i)) (update s.pc t _ i)
    by_cases hi : i = t
    · subst hi
      rw [update_self, update_self]
      exact holds_next _ (h.holds i)
    rw [update_of_ne hi]
    by_cases hk : key i = key t
    · rw [hk, update_self]
      exact holds_next_of _ (hk ▸ h.holds i) fun hf hp => ht hf hp i hk
    · rw [update_of_ne hk]
      exact h.holds i
  value_eq k := by
    show value (update s.map (key t) _ k)
      = ∑ i with key i = k, made (adds i) (update s.pc t _ i)
    simp only [apply_update (fun i => made (adds i))]
    by_cases hk : key t = k
    · subst hk
      have hzero : flag = .any → (s.pc t).updates → value (s.map (key t)) = 0 := by
        intro hf hp
        rw [h.value_eq]
        refine sum_eq_zero fun i hi => ?_
        have hnot := ht hf hp i (mem_filter.mp hi).2
        cases hpc : s.pc i with
        | add gen rest => exact absurd (hpc ▸ hnot) Bool.noConfusion
        | _ => rfl
      have hmem : t ∈ univ.filter fun i => key i = key t := by simp
      have hnext := next_value (adds t) (h.holds t) hzero
      rw [h.value_eq, sum_eq_add_sum_sdiff_singleton_of_mem hmem] at hnext
      rw [update_self, sum_update_of_mem hmem]
      apply add_right_cancel (b := made (adds t) (s.pc t))
      rw [hnext]
      abel
    · rw [update_of_ne (Ne.symm hk), h.value_eq, sum_update_of_notMem (by simp [hk])]

/-- An entry that is not replaced is the first of its key. -/
theorem run_noexist (ts : List ι) (k : K) :
    ∀ x ∈ (ts.foldl (step .noexist key adds) start).map k, x.1 = 0 := by
  refine List.foldlRecOn ts _ (motive := fun s : State ι K V => ∀ k, ∀ x ∈ s.map k, x.1 = 0) ?_ ?_ k
  · exact fun _ _ h => nomatch h
  · intro s hs t _ k
    by_cases hk : k = key t
    · subst hk
      simpa [step] using next_noexist (adds t) (hs (key t))
    · simpa [step, hk] using hs k

theorem kept_run [Fintype ι] {s : State ι K V} (h : Kept key adds s) {ts : List ι}
    (hts : Each (step flag key adds) (Spares flag key) s ts) :
    Kept key adds (ts.foldl (step flag key adds) s) := by
  induction ts generalizing s with
  | nil => exact h
  | cons t ts ih => exact ih (kept_step h hts.1) hts.2

/-- **No addition is lost** if no update replaces an entry that an execution has found. -/
theorem run_ended [Fintype ι] {ts : List ι}
    (hts : Each (step flag key adds) (Spares flag key) start ts) {s : State ι K V}
    (hs : ts.foldl (step flag key adds) start = s) (hend : ∀ i, (s.pc i).ended) :
    (∀ i, ∃ gen v, s.pc i = .add gen [] ∧ s.map (key i) = some (gen, v))
    ∧ ∀ k, value (s.map k) = ∑ i with key i = k, (adds i).sum := by
  have hkept : Kept key adds s := by
    rw [← hs]
    exact kept_run (s := start) ⟨fun _ => trivial, fun _ => sum_const_zero.symm⟩ hts
  have hfound : ∀ i, ∃ gen v, s.pc i = .add gen [] ∧ s.map (key i) = some (gen, v) := by
    intro i
    have hholds := hkept.holds i
    have hended := hend i
    cases hpc : s.pc i with
    | add gen rest =>
      rw [hpc] at hholds hended
      obtain ⟨v, hv⟩ := hholds
      cases rest with
      | nil => exact ⟨gen, v, rfl, hv⟩
      | cons a rest => exact Bool.noConfusion hended
    | _ => grind [Holds, At.ended]
  refine ⟨hfound, fun k => ?_⟩
  rw [hkept.value_eq]
  refine sum_congr rfl fun i _ => ?_
  obtain ⟨gen, v, hpc, -⟩ := hfound i
  rw [hpc, made, List.sum_nil, sub_zero]

end Shared
