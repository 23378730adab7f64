import Bcc.Text.Search
import Mathlib.Data.Finset.Sort

namespace Bcc.Perf.CpuRange

open CText List

/-!
# CPU lists — `read_cpu_range` and `_read_cpu_range`

* `readCpuRange`, `pyReadCpuRange` — the CPUs named in a file such as
  `/sys/devices/system/cpu/online`; `none` for an exception or an overflow;
* `readCpuRange_cpulist` — what they read.
-/

/-! ### The code -/

/-- The pieces of a text, as `std::getline` returns them: an empty last one is not returned. -/
def getlineAll (delim : Char) (text : List Char) : List (List Char) :=
  let pieces := text.splitOn delim
  if pieces.getLast? = some [] then pieces.dropLast else pieces

/-- `int(text)`, where the text has no underscores. -/
def pyInt (text : List Char) : Option Int :=
  let m := scan decimalRadix text
  if m.used = 0 ∨ (text.drop m.used).all isspace = false then none else some m.value

/-- `range(start, stop + 1)` -/
def countUp (start stop : Int) : List Int :=
  (List.range (stop + 1 - start).toNat).map fun k : Nat => start + k

/-- The values of `int i` in the loop from `start` to `stop`. -/
def intLoop (start stop : Int) : Option (List Int) :=
  if start ≤ stop ∧ stop = 2 ^ 31 - 1 then none else some (countUp start stop)

/-- The CPUs of a piece, with the reader of a number and the loop. -/
def piece (number : List Char → Option Int) (loop : Int → Int → Option (List Int))
    (cpuRange : List Char) : Option (List Int) :=
  match find ['-'] cpuRange with
  | none => (number cpuRange).map ([·])
  | some rangeop => do
    let start ← number (cpuRange.take rangeop)
    let stop ← number (cpuRange.drop (rangeop + 1))
    loop start stop

/-- `read_cpu_range` -/
def readCpuRange (text : List Char) : Option (List Int) :=
  ((getlineAll ',' text).mapM (piece stoi intLoop)).map List.flatten

/-- `_read_cpu_range` -/
def pyReadCpuRange (text : List Char) : Option (List Int) :=
  ((text.splitOn ',').mapM (piece pyInt fun a b => some (countUp a b))).map List.flatten

/-! ### The text of the kernel -/

/-- The maximal runs of an ascending list: the first number of each, and how many follow it. -/
def runs : List Nat → List (Nat × Nat)
  | [] => []
  | c :: l =>
    match runs l with
    | [] => [(c, 0)]
    | (a, n) :: rs => if a = c + 1 then (c, n + 1) :: rs else (c, 0) :: (a, n) :: rs

def runText : Nat × Nat → List Char
  | (a, 0) => Nat.toDigits 10 a
  | (a, n + 1) => Nat.toDigits 10 a ++ '-' :: Nat.toDigits 10 (a + (n + 1))

def joined (rs : List (Nat × Nat)) : List Char := [','].intercalate (rs.map runText) ++ ['\n']

/-- The list of the CPUs of a set. -/
def cpulist (s : Finset Nat) : List Char := joined (runs s.sort)

/-! ### Reading it -/

/-- The CPUs of a run. -/
def cpus (r : Nat × Nat) : List Nat := List.range' r.1 (r.2 + 1)

theorem countUp_add (a n : Nat) : countUp a (a + n : Nat) = (cpus (a, n)).map Nat.cast := by
  have hlen : ((a + n : Nat) + 1 - (a : Int)).toNat = n + 1 := by omega
  rw [countUp, hlen, cpus, range'_eq_map_range]
  simp

theorem flatMap_runs (l : List Nat) : (runs l).flatMap cpus = l := by
  induction l with
  | nil => rfl
  | cons c l ih =>
    cases hruns : runs l with
    | nil =>
      rw [hruns] at ih
      simp [runs, cpus, ← ih]
    | cons r rs =>
      rw [hruns, flatMap_cons] at ih
      by_cases ha : r.1 = c + 1
      · simp only [runs, hruns, if_pos ha]
        rw [← ih, flatMap_cons, cpus, cpus, ha]
        rfl
      · simp only [runs, hruns, if_neg ha]
        rw [← ih]
        rfl

/-- The newline stands behind the last run. -/
def Ending (e : List Char) : Prop := e = [] ∨ e = ['\n']

variable {e : List Char}

theorem Ending.isBreak (he : Ending e) : IsBreak e := by
  rcases he with rfl | rfl <;> decide

theorem Ending.not_mem (he : Ending e) {c : Char} (hc : c ≠ '\n') : c ∉ e := by
  rcases he with rfl | rfl <;> simp [hc]

theorem comma_not_mem_runText (r : Nat × Nat) : ',' ∉ runText r := by
  match r with
  | (a, 0) => exact not_mem_toDigits (by decide) a
  | (a, n + 1) => simp [runText, not_mem_toDigits]

/-- What a reader of numbers does with the numbers of the list. -/
def Reads (number : List Char → Option Int) : Prop :=
  ∀ n e, n < 2 ^ 31 → Ending e → number (Nat.toDigits 10 n ++ e) = some (n : Int)

theorem reads_stoi : Reads stoi := fun _ _ hn he => stoi_toDigits_append hn he.isBreak

theorem reads_pyInt : Reads pyInt := by
  intro n e _ he
  have hall : e.all isspace = true := by rcases he with rfl | rfl <;> decide
  unfold pyInt
  rw [scan_toDigits n he.isBreak]
  simp [hall, Scan.value]

/-- What a splitter at the commas does. -/
structure Splits (split : List Char → List (List Char)) : Prop where
  first : ∀ p t, ',' ∉ p → split (p ++ ',' :: t) = p :: split t
  last : ∀ p, ',' ∉ p → p ≠ [] → split p = [p]

theorem splits_splitOn : Splits fun text => text.splitOn ',' where
  first _ t hp := splitOn_append_cons_self_of_not_mem hp t
  last _ hp _ := splitOn_eq_singleton hp

theorem splits_getlineAll : Splits (getlineAll ',') where
  first p t hp := by
    unfold getlineAll
    rw [splits_splitOn.first p t hp]
    cases h : t.splitOn ',' with
    | nil => exact absurd h (splitOn_ne_nil _ _)
    | cons q qs =>
      simp [apply_ite (p :: ·)]
  last p hp hne := by
    unfold getlineAll
    rw [splits_splitOn.last p hp hne]
    simp [hne]

section Read

variable {split : List Char → List (List Char)} {number : List Char → Option Int}
  {loop : Int → Int → Option (List Int)} (hs : Splits split) (hnumber : Reads number)
  (hloop : ∀ a b : Nat, b + 1 < 2 ^ 31 → loop a b = some (countUp a b))
include hnumber hloop

theorem piece_runText {r : Nat × Nat} (hlt : r.1 + r.2 + 1 < 2 ^ 31) (he : Ending e) :
    piece number loop (runText r ++ e) = some ((cpus r).map Nat.cast) := by
  have hdash : ∀ n, '-' ∉ Nat.toDigits 10 n := not_mem_toDigits (by decide)
  unfold piece
  match r with
  | (a, 0) =>
    have hnone := find_append (show ['-'].head? = some '-' from rfl)
      (show '-' ∉ Nat.toDigits 10 a ++ e by simp [hdash, he.not_mem]) []
    rw [append_nil] at hnone
    rw [runText, hnone, hnumber a e (by omega) he]
    rfl
  | (a, n + 1) =>
    have hfind : find ['-'] (runText (a, n + 1) ++ e) = some (Nat.toDigits 10 a).length := by
      rw [runText, append_assoc]
      exact find_append_self rfl (hdash a) _
    have hstart := hnumber a [] (by omega) (Or.inl rfl)
    rw [append_nil] at hstart
    rw [hfind, ← countUp_add, ← hloop _ _ hlt]
    simp [runText, hstart, hnumber _ _ (Nat.lt_of_succ_lt hlt) he]

include hs

theorem mapM_split {rs : List (Nat × Nat)} (hne : rs ≠ [])
    (hlt : ∀ r ∈ rs, r.1 + r.2 + 1 < 2 ^ 31) :
    (split (joined rs)).mapM (piece number loop)
      = some (rs.map fun r => (cpus r).map Nat.cast) := by
  induction rs with
  | nil => exact absurd rfl hne
  | cons r rs ih =>
    obtain ⟨hr, hrs⟩ := forall_mem_cons.mp hlt
    have hcomma := comma_not_mem_runText r
    cases rs with
    | nil =>
      have hlast := hs.last (runText r ++ ['\n']) (by simp [hcomma]) (by simp)
      simp [joined, hlast, piece_runText hnumber hloop hr (Or.inr rfl)]
    | cons r' rs =>
      have hfirst : joined (r :: r' :: rs) = runText r ++ ',' :: joined (r' :: rs) := by
        simp [joined]
      have hpiece := piece_runText hnumber hloop hr (Or.inl rfl)
      rw [append_nil] at hpiece
      rw [hfirst, hs.first _ _ hcomma, mapM_cons, hpiece, ih (by simp) hrs]
      rfl

theorem mapM_cpulist {s : Finset Nat} (hne : s.Nonempty) (hint : ∀ c ∈ s, c + 1 < 2 ^ 31) :
    ((split (cpulist s)).mapM (piece number loop)).map List.flatten
      = some (s.sort.map Nat.cast) := by
  have hruns := flatMap_runs s.sort
  have hlt : ∀ r ∈ runs s.sort, r.1 + r.2 + 1 < 2 ^ 31 := by
    intro r hr
    refine hint _ ((Finset.mem_sort (· ≤ ·)).mp ?_)
    rw [← hruns]
    exact mem_flatMap.mpr ⟨r, hr, by simp [cpus]⟩
  have hsome : runs s.sort ≠ [] := by
    intro h
    obtain ⟨c, hc⟩ := hne
    rw [← Finset.mem_sort (· ≤ ·), ← hruns, h] at hc
    exact absurd hc not_mem_nil
  rw [cpulist, mapM_split hs hnumber hloop hsome hlt, Option.map_some, ← flatMap_def,
    ← map_flatMap, hruns]

end Read

/-- **Both read the set.**  Where the number of CPUs is an `int`, both bindings read the list of
    the kernel as the ascending list of the set. -/
theorem readCpuRange_cpulist (s : Finset Nat) (hs : s.Nonempty) (hint : ∀ c ∈ s, c + 1 < 2 ^ 31) :
    readCpuRange (cpulist s) = some (s.sort.map Nat.cast)
      ∧ pyReadCpuRange (cpulist s) = some (s.sort.map Nat.cast) :=
  ⟨mapM_cpulist splits_getlineAll reads_stoi (fun _ _ _ => if_neg (by omega)) hs hint,
    mapM_cpulist splits_splitOn reads_pyInt (fun _ _ _ => rfl) hs hint⟩

theorem readCpuRange_three :
    readCpuRange (cpulist {0, 1, 3}) = some (({0, 1, 3} : Finset Nat).sort.map Nat.cast) :=
  (readCpuRange_cpulist {0, 1, 3} (by simp) (by simp)).1

end Bcc.Perf.CpuRange
