import Bcc.Hist.Print

namespace Bcc.Hist

open List Nat

/-!
# Histograms — each value is in the row that counts it

The kernel side decides in which slot a value is counted, and the user side which interval is
printed for a slot; slots are numbered from one in the helpers and from zero in libbpf-tools.

* `Agrees`, `Counted` — slots and intervals belong together, and rows count the values in them;
* `log2_rows_agree`, `printLinearHist_rows` — the rows that are printed.
-/

/-! ### Slots and intervals -/

/-- **Agreement** of a slot function, on some values, with the intervals of the slots from `first`
    to `last`. -/
structure Agrees (slot : UInt64 → Nat) (interval : Nat → Nat × Nat) (dom : UInt64 → Prop)
    (first last : Nat) : Prop where
  first_le : ∀ v, dom v → first ≤ slot v
  le_last : ∀ v, dom v → slot v ≤ last
  contains : ∀ v, dom v → (interval (slot v)).1 ≤ v.toNat ∧ v.toNat ≤ (interval (slot v)).2
  nonempty : ∀ i, first ≤ i → i ≤ last → (interval i).1 ≤ (interval i).2
  adjacent : ∀ i, first ≤ i → i < last → (interval (i + 1)).1 = (interval i).2 + 1

section Agrees

variable {slot : UInt64 → Nat} {interval : Nat → Nat × Nat} {dom : UInt64 → Prop}
  {first last : Nat}

/-- The intervals are disjoint, in the order of the slots. -/
theorem Agrees.lt (h : Agrees slot interval dom first last) {i j : Nat} (hi : first ≤ i)
    (hij : i < j) (hj : j ≤ last) : (interval i).2 < (interval j).1 := by
  induction j with
  | zero => omega
  | succ j ih =>
    rw [h.adjacent j (by omega) hj]
    rcases Nat.lt_or_eq_of_le (le_of_lt_succ hij) with hlt | rfl
    · have := h.nonempty j (by omega) (by omega)
      omega
    · exact lt_succ_self _

/-- **A value is in the interval of its slot only.** -/
theorem Agrees.contains_iff (h : Agrees slot interval dom first last) {v : UInt64} (hv : dom v)
    {i : Nat} (hi : first ≤ i) (hi' : i ≤ last) :
    ((interval i).1 ≤ v.toNat ∧ v.toNat ≤ (interval i).2) ↔ slot v = i := by
  constructor
  · intro hmem
    have hown := h.contains v hv
    rcases Nat.lt_trichotomy (slot v) i with hlt | heq | hgt
    · have := h.lt (h.first_le v hv) hlt hi'
      omega
    · exact heq
    · have := h.lt hi hgt (h.le_last v hv)
      omega
  · rintro rfl
    exact h.contains v hv

end Agrees

/-! ### Counting -/

/-- The counters of `n` slots, of `w` bits each, after some values. -/
def record (w : Nat) (slot : UInt64 → Nat) (n : Nat) (vs : List UInt64) : List Nat :=
  vs.foldl (fun vals v => vals.modify (slot v) fun c => (c + 1) % 2 ^ w) (List.replicate n 0)

variable {i : Nat}

theorem getD_foldl_modify (w : Nat) (slot : UInt64 → Nat) (vs : List UInt64) {vals : List Nat}
    (hi : i < vals.length) (hlt : vals.getD i 0 < 2 ^ w) :
    (vs.foldl (fun vals v => vals.modify (slot v) fun c => (c + 1) % 2 ^ w) vals).getD i 0
      = (vals.getD i 0 + vs.countP (fun v => slot v = i)) % 2 ^ w := by
  induction vs generalizing vals with
  | nil => exact (mod_eq_of_lt hlt).symm
  | cons v vs ih =>
    have hget : (vals.modify (slot v) fun c => (c + 1) % 2 ^ w).getD i 0
        = if slot v = i then (vals.getD i 0 + 1) % 2 ^ w else vals.getD i 0 := by
      simp only [getD_eq_getElem?_getD, getElem?_modify, getElem?_eq_getElem hi]
      split <;> simp
    have hlt' : (vals.modify (slot v) fun c => (c + 1) % 2 ^ w).getD i 0 < 2 ^ w := by
      rw [hget]
      split
      · exact mod_lt _ (Nat.two_pow_pos w)
      · exact hlt
    rw [foldl_cons, ih (by rwa [length_modify]) hlt', hget]
    by_cases hv : slot v = i
    · simp [hv, Nat.add_assoc, Nat.add_comm 1]
    · simp [hv]

theorem length_record (w : Nat) (slot : UInt64 → Nat) (n : Nat) (vs : List UInt64) :
    (record w slot n vs).length = n := by
  unfold record
  generalize hvals : List.replicate n 0 = vals
  have hlen : vals.length = n := by rw [← hvals, length_replicate]
  clear hvals
  induction vs generalizing vals with
  | nil => exact hlen
  | cons v vs ih => exact ih _ (by rw [length_modify, hlen])

variable {w n : Nat} {slot : UInt64 → Nat} {vs : List UInt64}

/-- The counter of a slot. -/
theorem getD_record (hi : i < n) :
    (record w slot n vs).getD i 0 = vs.countP (fun v => slot v = i) % 2 ^ w := by
  have hzero : (List.replicate n 0).getD i 0 = 0 := by simp [hi]
  rw [record, getD_foldl_modify w slot vs (by rwa [length_replicate])
    (by rw [hzero]; exact Nat.two_pow_pos w), hzero, Nat.zero_add]

/-- The value is in the interval of the row. -/
def Row.Contains {β : Type} (r : Row β) (v : UInt64) : Prop := r.low ≤ v.toNat ∧ v.toNat ≤ r.high

instance {β : Type} (r : Row β) (v : UInt64) : Decidable (r.Contains v) :=
  inferInstanceAs (Decidable (_ ∧ _))

/-- **The rows count the values.**  A row has the number of values in its interval, as far as the
    counters go, and while they do each value is in the interval of one row. -/
structure Counted {β : Type} (w : Nat) (vs : List UInt64) (rows : List (Row β)) : Prop where
  counts : ∀ r ∈ rows, r.val = vs.countP (fun v => r.Contains v) % 2 ^ w
  once : vs.length < 2 ^ w → ∀ v ∈ vs, ∃! r, r ∈ rows ∧ r.Contains v

/-- Rows with the intervals and the counters of their slots, of which none is left out that has
    a count. -/
theorem Agrees.counted {β : Type} {interval : Nat → Nat × Nat}
    {dom : UInt64 → Prop} {first last : Nat} (h : Agrees slot interval dom first last)
    (hvs : ∀ v ∈ vs, dom v) (row : Nat → Row β) {rows : List (Row β)}
    (hrow : ∀ i, first ≤ i → i ≤ last → (row i).low = (interval i).1 ∧ (row i).high = (interval i).2
      ∧ (row i).val = vs.countP (fun v => slot v = i) % 2 ^ w)
    (hrows : ∀ r ∈ rows, ∃ i, first ≤ i ∧ i ≤ last ∧ r = row i)
    (hall : ∀ i, first ≤ i → i ≤ last → (row i).val ≠ 0 → row i ∈ rows) : Counted w vs rows := by
  have hcontains : ∀ i, first ≤ i → i ≤ last → ∀ v ∈ vs, (row i).Contains v ↔ slot v = i := by
    intro i hi hi' v hv
    obtain ⟨hlow, hhigh, -⟩ := hrow i hi hi'
    rw [Row.Contains, hlow, hhigh, h.contains_iff (hvs v hv) hi hi']
  constructor
  · intro r hr
    obtain ⟨i, hi, hi', rfl⟩ := hrows r hr
    rw [(hrow i hi hi').2.2]
    congr 1
    apply countP_congr
    intro v hv
    simp [hcontains i hi hi' v hv]
  · intro hlen v hv
    have hi := h.first_le v (hvs v hv)
    have hi' := h.le_last v (hvs v hv)
    refine ⟨row (slot v), ⟨hall _ hi hi' ?_, (hcontains _ hi hi' v hv).mpr rfl⟩, ?_⟩
    · -- the counter is that of at least one value, and has not run over
      rw [(hrow _ hi hi').2.2]
      have hpos : 0 < vs.countP (fun u => slot u = slot v) :=
        countP_pos_iff.mpr ⟨v, hv, by simp⟩
      have hle : vs.countP (fun u => slot u = slot v) ≤ vs.length := countP_le_length
      rw [mod_eq_of_lt (by omega)]
      omega
    · rintro r ⟨hr, hmem⟩
      obtain ⟨j, hj, hj', rfl⟩ := hrows r hr
      rw [(hcontains j hj hj' v hv).mp hmem]

/-! ### The intervals -/

/-- The interval of the first slot has zero and one, the others the numbers with one highest bit. -/
theorem pyInterval_succ (n : Nat) :
    pyInterval (n + 1) = (if n = 0 then 0 else 2 ^ n, 2 ^ (n + 1) - 1) := by
  have hlow : (1 <<< (n + 1)) >>> 1 = 2 ^ n := by
    omega
  rw [pyInterval, hlow, Nat.one_shiftLeft]
  cases n with
  | zero => rfl
  | succ n =>
    have hpos : 0 < 2 ^ n := Nat.two_pow_pos n
    rw [if_neg n.succ_ne_zero, if_neg (by omega)]

/-- The intervals of libbpf-tools are the same, one slot before, up to the slot of the last bit
    but one. -/
theorem interval_eq (hi : i ≤ 62) :
    ((interval i).1.toNat, (interval i).2.toNat) = pyInterval (i + 1) := by
  have hlt : 2 ^ (i + 1) < 2 ^ 64 := Nat.pow_lt_pow_right (by decide) (by omega)
  have hpos : 0 < 2 ^ i := Nat.two_pow_pos i
  have hshift : ((1 : UInt64) <<< UInt64.ofNat (i + 1)).toNat = 1 <<< (i + 1) := by
    rw [UInt64.toNat_shiftLeft, UInt64.toNat_ofNat_of_lt' (by show i + 1 < 2 ^ 64; omega),
      mod_eq_of_lt (show i + 1 < 64 by omega), UInt64.toNat_one, Nat.one_shiftLeft,
      mod_eq_of_lt hlt]
  have hlow : (((1 : UInt64) <<< UInt64.ofNat (i + 1)) >>> 1).toNat = (1 <<< (i + 1)) >>> 1 := by
    rw [UInt64.toNat_shiftRight, hshift]
    rfl
  have hone : 1 ≤ (1 : UInt64) <<< UInt64.ofNat (i + 1) := by
    rw [UInt64.le_iff_toNat_le, hshift, Nat.one_shiftLeft]
    exact Nat.two_pow_pos _
  have hhigh : (((1 : UInt64) <<< UInt64.ofNat (i + 1)) - 1).toNat = (1 <<< (i + 1)) - 1 := by
    rw [UInt64.toNat_sub_of_le _ _ hone, hshift, UInt64.toNat_one]
  unfold interval pyInterval
  dsimp only
  rw [hhigh]
  by_cases heq : (1 <<< (i + 1)) >>> 1 = (1 <<< (i + 1)) - 1
  · have heq' := UInt64.toNat_inj.mp ((hlow.trans heq).trans hhigh.symm)
    rw [if_pos heq, if_pos heq', UInt64.toNat_sub_of_le, hlow, UInt64.toNat_one]
    rw [UInt64.le_iff_toNat_le, hlow, Nat.one_shiftLeft]
    show 1 ≤ 2 ^ i * 2 / 2
    omega
  · rw [if_neg heq, if_neg fun h => heq ?_, hlow]
    rw [← hlow, h, hhigh]

theorem mem_pyInterval (v : Nat) : (pyInterval (v.log2 + 1)).1 ≤ v
    ∧ v ≤ (pyInterval (v.log2 + 1)).2 := by
  rw [pyInterval_succ]
  have hupper : v < 2 ^ (v.log2 + 1) := lt_log2_self
  refine ⟨?_, by omega⟩
  split
  · exact Nat.zero_le v
  · next h => exact log2_self_le fun hv => h (by rw [hv]; rfl)

theorem pyInterval_nonempty (hi : 1 ≤ i) : (pyInterval i).1 ≤ (pyInterval i).2 := by
  obtain ⟨n, rfl⟩ := Nat.exists_eq_add_of_le' hi
  rw [pyInterval_succ]
  split <;> omega

theorem pyInterval_adjacent (hi : 1 ≤ i) : (pyInterval (i + 1)).1 = (pyInterval i).2 + 1 := by
  obtain ⟨n, rfl⟩ := Nat.exists_eq_add_of_le' hi
  have hpos : 0 < 2 ^ (n + 1) := Nat.two_pow_pos _
  rw [pyInterval_succ, pyInterval_succ, if_neg n.succ_ne_zero]
  omega

/-- The slots of the helpers, for every value. -/
theorem bpfLog2l_agrees : Agrees (fun v => (bpfLog2l v).toNat) pyInterval (fun _ => True) 1 64 where
  first_le v _ := by
    rw [bpfLog2l_eq]
    omega
  le_last v _ := by
    have := log2_lt_64 v
    rw [bpfLog2l_eq]
    omega
  contains v _ := by
    rw [bpfLog2l_eq]
    exact mem_pyInterval v.toNat
  nonempty _ hi _ := pyInterval_nonempty hi
  adjacent _ hi _ := pyInterval_adjacent hi

/-- The intervals as they are printed by libbpf-tools. -/
def shownInterval (i : Nat) : Nat × Nat := ((interval i).1.toNat, (interval i).2.toNat)

theorem log2_lt_63 {v : UInt64} (hv : v.toNat < 2 ^ 63) : v.toNat.log2 < 63 := by
  by_cases hzero : v.toNat = 0
  · rw [hzero]
    decide
  · exact (log2_lt hzero).mpr hv

/-- The slots of libbpf-tools, for values without the highest bit. -/
theorem log2l_agrees :
    Agrees (fun v => (log2l v).toNat) shownInterval (fun v => v.toNat < 2 ^ 63) 0 62 where
  first_le _ _ := Nat.zero_le _
  le_last v hv := by
    rw [log2l_eq]
    exact le_of_lt_succ (log2_lt_63 hv)
  contains v hv := by
    have hlt := log2_lt_63 hv
    rw [log2l_eq, shownInterval, interval_eq (by omega)]
    exact mem_pyInterval v.toNat
  nonempty i _ hi := by
    rw [shownInterval, interval_eq hi]
    exact pyInterval_nonempty (by omega)
  adjacent i _ hi := by
    rw [shownInterval, interval_eq hi, shownInterval, interval_eq (by omega)]
    exact pyInterval_adjacent (by omega)

/-! ### The rows -/

theorem stripRows_sublist {β : Type} (strip : Bool) (rows : List (Row β)) :
    (stripRows strip rows).Sublist rows := by
  induction rows generalizing strip with
  | nil => cases strip <;> exact .slnil
  | cons r rows ih =>
    cases strip with
    | false => exact (ih false).cons_cons r
    | true =>
      rw [stripRows]
      split
      · exact (ih false).cons_cons r
      · exact (ih true).cons r

/-- No row with a count is left out. -/
theorem mem_stripRows {β : Type} {strip : Bool} {rows : List (Row β)} {r : Row β} (hr : r ∈ rows)
    (hval : r.val ≠ 0) : r ∈ stripRows strip rows := by
  induction rows generalizing strip with
  | nil => exact absurd hr not_mem_nil
  | cons r' rows ih =>
    rcases mem_cons.mp hr with rfl | hr
    · cases strip with
      | false => exact mem_cons_self
      | true =>
        rw [stripRows, if_pos hval]
        exact mem_cons_self
    · cases strip with
      | false => exact mem_cons_of_mem _ (ih hr)
      | true =>
        rw [stripRows]
        split
        · exact mem_cons_of_mem _ (ih hr)
        · exact ih hr

/-- A slot with a count is the slot of a value. -/
theorem exists_of_pos (h : 0 < (record w slot n vs).getD i 0) : ∃ v ∈ vs, slot v = i := by
  have hi := lt_length_of_pos h
  rw [length_record] at hi
  rw [getD_record hi] at h
  obtain ⟨v, hv, heq⟩ := countP_pos_iff.mp (h.trans_le (mod_le _ _))
  exact ⟨v, hv, by simpa using heq⟩

/-- The last slot that is printed is the slot of a value. -/
theorem exists_of_idxMax {vals : List Nat} (hvals : record w slot n vs = vals)
    (h : 0 ≤ (scan vals).idxMax) : ∃ v ∈ vs, slot v = (scan vals).idxMax.toNat := by
  subst hvals
  rcases (scan_spec (record w slot n vs)).found with ⟨-, hmax⟩ | ⟨-, -, hpos⟩
  · omega
  · exact exists_of_pos hpos

/-- The rows that Python prints. -/
theorem pyPrintLog2Hist_counted (vs : List UInt64) (valType : String) (strip : Bool) :
    Counted 64 vs (pyPrintLog2Hist (record 64 (fun v => (bpfLog2l v).toNat) log2IndexMax vs)
      valType strip).rows := by
  generalize hvals : record 64 (fun v => (bpfLog2l v).toNat) log2IndexMax vs = vals
  have hscan := scan_spec vals
  have hlast : (scan vals).idxMax ≤ 64 := by
    by_contra hgt
    obtain ⟨v, -, hv⟩ := exists_of_idxMax hvals (by omega)
    have := bpfLog2l_agrees.le_last v trivial
    omega
  refine bpfLog2l_agrees.counted (fun _ _ => trivial) (pyLog2Row vals (scan vals)) ?_ ?_ ?_
  · intro i _ hi
    refine ⟨rfl, rfl, ?_⟩
    rw [← hvals]
    exact getD_record (lt_succ_of_le hi)
  · intro r hr
    obtain ⟨n, hn, rfl⟩ := mem_map.mp ((stripRows_sublist _ _).subset hr)
    rw [mem_range] at hn
    exact ⟨n + 1, by omega, by omega, rfl⟩
  · intro i hi _ hval
    apply mem_stripRows _ hval
    have := (hscan.between i (Nat.pos_of_ne_zero hval)).2
    exact mem_map.mpr ⟨i - 1, mem_range.mpr (by omega), by rw [Nat.sub_add_cancel hi]⟩

/-- The rows that libbpf-tools print, with as many counters as there are slots. -/
theorem printLog2Hist_counted (hn : 63 ≤ n) (hvs : ∀ v ∈ vs, v.toNat < 2 ^ 63) (valType : String) :
    Counted 32 vs (printLog2Hist (record 32 (fun v => (log2l v).toNat) n vs) valType).rows := by
  generalize hvals : record 32 (fun v => (log2l v).toNat) n vs = vals
  have hscan := scan_spec vals
  have hlast : (scan vals).idxMax ≤ 62 := by
    by_contra hgt
    obtain ⟨v, hv, heq⟩ := exists_of_idxMax hvals (by omega)
    have := log2l_agrees.le_last v (hvs v hv)
    omega
  refine log2l_agrees.counted hvs (log2Row vals (scan vals)) ?_ ?_ ?_
  · intro i _ hi
    refine ⟨rfl, rfl, ?_⟩
    rw [← hvals]
    exact getD_record (by omega)
  · intro r hr
    rw [printLog2Hist] at hr
    split at hr
    · exact absurd hr not_mem_nil
    · obtain ⟨i, hi, rfl⟩ := mem_map.mp hr
      rw [mem_range] at hi
      exact ⟨i, Nat.zero_le i, by omega, rfl⟩
  · intro i _ _ hval
    have := (hscan.between i (Nat.pos_of_ne_zero hval)).2
    rw [printLog2Hist, if_neg (by omega)]
    exact mem_map.mpr ⟨i, mem_range.mpr (by omega), rfl⟩

/-- **Rows and slots agree.**  A value of 64 bits is in the row of its slot, which is one of 65,
    and the rows that are printed count the values in them; for libbpf-tools it is so for values
    below `2 ^ 63`. -/
theorem log2_rows_agree :
    Agrees (fun v => (bpfLog2l v).toNat) pyInterval (fun _ => True) 1 64
    ∧ 64 < log2IndexMax
    ∧ (∀ (vs : List UInt64) (valType : String) (strip : Bool),
      Counted 64 vs (pyPrintLog2Hist (record 64 (fun v => (bpfLog2l v).toNat) log2IndexMax vs)
        valType strip).rows)
    ∧ Agrees (fun v => (log2l v).toNat) shownInterval (fun v => v.toNat < 2 ^ 63) 0 62
    ∧ ∀ (n : Nat) (vs : List UInt64) (valType : String), 63 ≤ n → (∀ v ∈ vs, v.toNat < 2 ^ 63) →
      Counted 32 vs (printLog2Hist (record 32 (fun v => (log2l v).toNat) n vs) valType).rows :=
  ⟨bpfLog2l_agrees, by decide, pyPrintLog2Hist_counted, log2l_agrees,
    fun _ _ valType hn hvs => printLog2Hist_counted hn hvs valType⟩

theorem filterMap_window {β : Type} {f : Nat → Option β} {a n m : Nat} (hle : a + n ≤ m)
    (h : ∀ i, i < a ∨ a + n ≤ i → f i = none) :
    ((range n).map (· + a)).filterMap f = (range m).filterMap f := by
  obtain ⟨k, rfl⟩ := Nat.exists_eq_add_of_le hle
  have hbefore : (range a).filterMap f = [] :=
    filterMap_eq_nil_iff.mpr fun i hi => h i (.inl (mem_range.mp hi))
  have hbehind : ((range k).map (a + n + ·)).filterMap f = [] := by simp [h]
  rw [range_add, range_add, filterMap_append, filterMap_append, hbefore, hbehind]
  simp [Nat.add_comm]

/-- **The linear rows.**  There is one for each slot with a count, in the order of the slots, with
    its value and its count as signed numbers, and no bar divides by zero. -/
theorem printLinearHist_rows (vals : List Nat) (base step : Nat) (valType : String) :
    let bar (i : Nat) := printStars (vals.getD i 0) (scan vals).valMax starsMax
    (printLinearHist vals base step valType).rows = (range vals.length).filterMap (fun i =>
      if vals.getD i 0 = 0 then none
      else some ⟨printedInt (base + i * step), printedInt (vals.getD i 0), bar i⟩)
    ∧ ∀ i, vals.getD i 0 ≠ 0 → (bar i).isSome := by
  have hs := scan_spec vals
  constructor
  · unfold printLinearHist
    rcases hs.found with ⟨-, hmax⟩ | ⟨hmin, hle, hpos⟩
    · rw [if_pos (by omega)]
      refine (filterMap_eq_nil_iff.mpr fun i _ => if_pos ?_).symm
      have hbetween := hs.between i
      omega
    · have hlt := lt_length_of_pos hpos
      rw [if_neg (by omega)]
      refine filterMap_window (by omega) fun i hi => if_pos ?_
      have hbetween := hs.between i
      omega
  · intro i hi
    have hle := hs.le_valMax (vals.getD i 0) (by grind)
    grind [printStars]

end Bcc.Hist
