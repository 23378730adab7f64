import Bcc.Hist.Log2

namespace Bcc.Hist

open List

/-!
# Histograms — what is printed

Three functions print a histogram from an array of counts: `_print_log2_hist` of the Python
bindings, and `print_log2_hist` and `print_linear_hist` of libbpf-tools.  Each looks for the last
count that is not zero and for the largest one, and then prints one row for each slot up to there.

Counts are numbers below `2 ^ 32` in libbpf-tools, and a row is given by what is formatted in it.

* `scan`, `scan_spec` — the first loop, and what it finds;
* `printLog2Hist`, `printLinearHist` — the functions of libbpf-tools, over `printStars`;
* `pyPrintLog2Hist` — the one of the Python bindings.
-/

/-! ### The counts -/

/-- What the first loop finds: the first and the last place of a count that is not zero, or `-1`,
    and the largest count.  Only `print_linear_hist` looks at the first place. -/
structure Scan where
  idxMin : Int
  idxMax : Int
  valMax : Nat
  deriving DecidableEq, Repr

/-- A turn of the loop. -/
def Scan.next (s : Scan) (i : Nat) (val : Nat) : Scan where
  idxMin := if val > 0 ∧ s.idxMin < 0 then i else s.idxMin
  idxMax := if val > 0 then i else s.idxMax
  valMax := if val > s.valMax then val else s.valMax

/-- The loop, from a place on. -/
def scanFrom (s : Scan) : Nat → List Nat → Scan
  | _, [] => s
  | i, val :: vals => scanFrom (s.next i val) (i + 1) vals

def scan (vals : List Nat) : Scan := scanFrom ⟨-1, -1, 0⟩ 0 vals

/-- What the loop has found after some counts. -/
structure Scanned (vals : List Nat) (s : Scan) : Prop where
  le_valMax : ∀ val ∈ vals, val ≤ s.valMax
  valMax_mem : s.valMax = 0 ∨ s.valMax ∈ vals
  between : ∀ i : Nat, 0 < vals.getD i 0 → s.idxMin ≤ i ∧ (i : Int) ≤ s.idxMax
  found : s.idxMin = -1 ∧ s.idxMax = -1
    ∨ 0 ≤ s.idxMin ∧ s.idxMin ≤ s.idxMax ∧ 0 < vals.getD s.idxMax.toNat 0

/-- One more count. -/
theorem getD_concat (vals : List Nat) (val i : Nat) :
    (vals ++ [val]).getD i 0 = if i = vals.length then val else vals.getD i 0 := by
  rw [getD_eq_getElem?_getD, getD_eq_getElem?_getD]
  split
  · next h => simp [h]
  · next h =>
    rcases Nat.lt_or_gt_of_ne h with hlt | hgt
    · rw [getElem?_append_left hlt]
    · rw [getElem?_eq_none (by simp; omega), getElem?_eq_none (by omega)]

theorem lt_length_of_pos {vals : List Nat} {i : Nat} (h : 0 < vals.getD i 0) : i < vals.length := by
  by_contra hge
  rw [getD_eq_getElem?_getD, getElem?_eq_none (Nat.not_lt.mp hge)] at h
  exact absurd h (Nat.lt_irrefl 0)

theorem Scanned.next {vals : List Nat} {s : Scan} (h : Scanned vals s) (val : Nat) :
    Scanned (vals ++ [val]) (s.next vals.length val) := by
  have hfound := h.found
  have hle : s.idxMin ≤ vals.length := by
    rcases hfound with ⟨hmin, -⟩ | ⟨-, hle, hpos⟩
    · omega
    · have hlt := lt_length_of_pos hpos
      omega
  refine ⟨fun v hv => ?_, ?_, fun i hi => ?_, ?_⟩
  · have hle : v ≤ s.valMax ∨ v = val := by
      rcases mem_append.mp hv with hv | hv
      · exact .inl (h.le_valMax v hv)
      · exact .inr (mem_singleton.mp hv)
    dsimp only [Scan.next]
    split <;> omega
  · dsimp only [Scan.next]
    split
    · exact .inr (by simp)
    · exact h.valMax_mem.imp_right (mem_append_left _)
  · rw [getD_concat] at hi
    dsimp only [Scan.next]
    by_cases hlast : i = vals.length
    · subst hlast
      rw [if_pos rfl] at hi
      split <;> omega
    · rw [if_neg hlast] at hi
      have hlt := lt_length_of_pos hi
      have hbetween := h.between i hi
      constructor <;> split <;> omega
  · dsimp only [Scan.next]
    by_cases hval : val > 0
    · refine .inr ⟨by split <;> omega, by split <;> omega, ?_⟩
      rw [if_pos hval, getD_concat, if_pos (Int.toNat_natCast _)]
      exact hval
    · rw [if_neg fun h => hval h.1, if_neg hval, getD_concat]
      refine hfound.imp_right fun ⟨hmin, hle, hpos⟩ => ⟨hmin, hle, ?_⟩
      rwa [if_neg (lt_length_of_pos hpos).ne]

theorem scanFrom_spec {done vals : List Nat} {s : Scan} (h : Scanned done s) :
    Scanned (done ++ vals) (scanFrom s done.length vals) := by
  induction vals generalizing done s with
  | nil => rwa [append_nil]
  | cons val vals ih =>
    have hnext := ih (h.next val)
    rwa [length_append, append_assoc] at hnext

/-- **The first loop.** -/
theorem scan_spec (vals : List Nat) : Scanned vals (scan vals) :=
  @scanFrom_spec [] vals _ ⟨by simp, .inl rfl, by simp, .inl ⟨rfl, rfl⟩⟩

/-! ### libbpf-tools -/

/-- `print_stars`; `none` if it divides by zero.  The product is one of unsigned integers of 32
    bits. -/
def printStars (val valMax width : Nat) : Option (List Char) :=
  if valMax = 0 then none
  else
    let numStars := min val valMax * width % 2 ^ 32 / valMax
    let numSpaces := width - numStars
    let needPlus := val > valMax
    some (List.replicate numStars '*' ++ List.replicate numSpaces ' '
      ++ if needPlus then ['+'] else [])

/-- A row of a histogram by powers of two: its interval, its count and its bar, and whether there
    is room for long numbers. -/
structure Row (β : Type) where
  low : Nat
  high : Nat
  val : Nat
  bar : β
  wide : Bool
  deriving DecidableEq, Repr

/-- What is printed: a heading with the name of the values, and the rows. -/
structure Printed (ρ : Type) where
  heading : Option (String × Bool)
  rows : List ρ
  deriving DecidableEq, Repr

/-- The interval of a slot in `print_log2_hist`. -/
def interval (i : Nat) : UInt64 × UInt64 :=
  let low := (1 <<< UInt64.ofNat (i + 1)) >>> 1
  let high := (1 <<< UInt64.ofNat (i + 1)) - 1
  (if low = high then low - 1 else low, high)

/-- The longest bar, of which half the length is left if the numbers are long. -/
def starsMax : Nat := 40

def Scan.stars (s : Scan) : Nat := if s.idxMax ≤ 32 then starsMax else starsMax / 2

/-- The row of a slot in `print_log2_hist`. -/
def log2Row (vals : List Nat) (s : Scan) (i : Nat) : Row (Option (List Char)) where
  low := (interval i).1.toNat
  high := (interval i).2.toNat
  val := vals.getD i 0
  bar := printStars (vals.getD i 0) s.valMax s.stars
  wide := s.idxMax > 32

/-- `print_log2_hist`.  From the 64th slot on, the shift in the interval is undefined. -/
def printLog2Hist (vals : List Nat) (valType : String) : Printed (Row (Option (List Char))) :=
  let s := scan vals
  if s.idxMax < 0 then ⟨none, []⟩
  else
    { heading := some (valType, s.idxMax > 32)
      rows := (List.range (s.idxMax + 1).toNat).map (log2Row vals s) }

/-- What `%d` prints of an `unsigned int`: from `2 ^ 31` on a negative number. -/
def printedInt (n : Nat) : Int := (n : Int).bmod (2 ^ 32)

/-- A row of `print_linear_hist`, with its numbers as they are printed. -/
structure LinearRow where
  value : Int
  val : Int
  bar : Option (List Char)
  deriving DecidableEq, Repr

/-- `print_linear_hist`.  Slots without a count are left out. -/
def printLinearHist (vals : List Nat) (base step : Nat) (valType : String) : Printed LinearRow :=
  let s := scan vals
  if s.idxMax < 0 then ⟨none, []⟩
  else
    { heading := some (valType, false)
      rows := ((List.range (s.idxMax + 1 - s.idxMin).toNat).map (· + s.idxMin.toNat)).filterMap
        fun i =>
          let val := vals.getD i 0
          if val = 0 then none
          else some ⟨printedInt (base + i * step), printedInt val,
            printStars val s.valMax starsMax⟩ }

/-! ### Python -/

/-- `log2_index_max`, the number of slots. -/
def log2IndexMax : Nat := 65

/-- The interval of a slot in `_print_log2_hist`. -/
def pyInterval (i : Nat) : Nat × Nat :=
  let low := (1 <<< i) >>> 1
  let high := (1 <<< i) - 1
  (if low = high then low - 1 else low, high)

/-- The loop over the rows: with `strip_leading_zero`, the first row is one with a count. -/
def stripRows {β : Type} : Bool → List (Row β) → List (Row β)
  | _, [] => []
  | false, r :: rows => r :: stripRows false rows
  | true, r :: rows => if r.val ≠ 0 then r :: stripRows false rows else stripRows true rows

/-- The row of a slot in `_print_log2_hist`; its bar is given by the arguments of `_stars`. -/
def pyLog2Row (vals : List Nat) (s : Scan) (i : Nat) : Row (Nat × Nat × Nat) where
  low := (pyInterval i).1
  high := (pyInterval i).2
  val := vals.getD i 0
  bar := (vals.getD i 0, s.valMax, s.stars)
  wide := s.idxMax > 32

/-- `_print_log2_hist`. -/
def pyPrintLog2Hist (vals : List Nat) (valType : String) (stripLeadingZero : Bool) :
    Printed (Row (Nat × Nat × Nat)) :=
  let s := scan vals
  { heading := if s.idxMax > 0 then some (valType, s.idxMax > 32) else none
    rows := stripRows stripLeadingZero
      ((List.range s.idxMax.toNat).map fun n => pyLog2Row vals s (n + 1)) }

end Bcc.Hist
