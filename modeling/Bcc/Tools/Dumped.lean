import Bcc.Tools.DumpHash

namespace Bcc.Tools

open Bytes CText Cursor List

/-!
# Tools — what `dump_hash` stores

* `dumpHash_iff` — the arrays have the entries of the map if the offsets of the parts, which have 32
  bits, do not wrap.
-/

section Parts

variable {m : HashMap} {lookupBatch : Nat → Nat → BatchAnswer} {parts : List (List Entry)}

/-! ### Dumps -/

/-- The result of `dump_hash` is zero, and it has stored the entries of the map, in some order. -/
def Dumped (m : HashMap) (r : Res Outcome) : Prop :=
  ∃ o, r = .ok o ∧ o.errno = none ∧ o.dump.count = m.entries.length
    ∧ (o.dump.entries m.keySize m.valueSize).Perm m.entries

/-- No part with an entry has an offset that wraps, in either array. -/
def Fits (m : HashMap) (parts : List (List Entry)) : Prop :=
  InRange (2 ^ 32) m.keySize 0 (parts.map List.length)
    ∧ InRange (2 ^ 32) m.valueSize 0 (parts.map List.length)

instance (m : HashMap) (parts : List (List Entry)) : Decidable (Fits m parts) :=
  inferInstanceAs (Decidable (_ ∧ _))

theorem sized_column {f : Entry → List UInt8} {size : Nat} (hperm : parts.flatten.Perm m.entries)
    (hsized : ∀ e ∈ m.entries, (f e).length = size) :
    ∀ xs ∈ column f parts, ∀ x ∈ xs, x.length = size := by
  intro xs hxs x hx
  obtain ⟨es, hes, rfl⟩ := mem_map.mp hxs
  obtain ⟨e, he, rfl⟩ := mem_map.mp hx
  exact hsized e (hperm.subset (mem_flatten.mpr ⟨es, hes, he⟩))

/-- The elements of a filled array that is in range. -/
theorem cells_column {f : Entry → List UInt8} {size : Nat} {mem : Nat → UInt8}
    (hperm : parts.flatten.Perm m.entries) (hsized : ∀ e ∈ m.entries, (f e).length = size)
    (hrange : InRange (2 ^ 32) size 0 (parts.map List.length)) :
    cells (Bytes.fill (2 ^ 32) size mem 0 (column f parts)) size parts.flatten.length
      = parts.flatten.map f := by
  have hcells := @cells_fill mem 0 (2 ^ 32) size (column f parts) (sized_column hperm hsized)
    ((map_length_column f parts).symm ▸ hrange)
  rw [flatten_column, length_map, Nat.zero_add] at hcells
  exact hcells

theorem Dump.entries_fill (d : Dump) (hperm : parts.flatten.Perm m.entries) (hfits : Fits m parts) :
    (d.fill m.keySize m.valueSize 0 parts).entries m.keySize m.valueSize = parts.flatten := by
  simp only [Dump.entries, Dump.fill, Nat.zero_add,
    cells_column hperm m.keySized hfits.1, cells_column hperm m.valueSized hfits.2]
  exact (zip_of_prod rfl rfl).symm

theorem Parts.flatten_perm {count : Nat} {ops : Bool} (h : Parts m lookupBatch count ops parts) :
    parts.flatten.Perm m.entries := by
  cases h with
  | batches _ partition => exact partition
  | unsupported _ | remembered => rw [flatten_singles]

/-! ### The two ways -/

section Ways

variable {invalidKey : List UInt8} {d : Dump} (hcount : m.entries.length ≤ d.count)
  (hinvalid : invalidKey ∉ m.keys)

include hcount hinvalid

theorem keysLoop_invalidKey (keys : Nat → UInt8) :
    keysLoop (m.kernel lookupBatch) m.keySize d.count invalidKey 0 keys
      = (none, m.entries.length,
        Bytes.fill (2 ^ 32) m.keySize keys 0 (column Prod.fst (m.entries.map ([·])))) := by
  have hroom : m.keys.length ≤ d.count := by
    rw [HashMap.keys, length_map]
    exact hcount
  have hcolumn : column Prod.fst (m.entries.map ([·])) = m.keys.map ([·]) := by
    simp [column, HashMap.keys]
  rw [@keysLoop_eq m lookupBatch m.keySize 0 [] m.keys invalidKey d.count keys rfl
    (next_of_not_mem hinvalid) hroom, hcolumn, Nat.zero_add, HashMap.keys, length_map]

/-- `dump_hash_iter` stores the keys; if it succeeds, it has counted them. -/
theorem dumpHashIter_keys {d' : Dump}
    (h : dumpHashIter (m.kernel lookupBatch) m.keySize m.valueSize invalidKey d = (none, d')) :
    d'.keys = Bytes.fill (2 ^ 32) m.keySize d.keys 0 (column Prod.fst (m.entries.map ([·])))
      ∧ d'.count = m.entries.length := by
  rw [dumpHashIter, keysLoop_invalidKey hcount hinvalid] at h
  simp only at h
  split at h
  · exact absurd (congrArg Prod.fst h) (by simp)
  · obtain rfl := (Prod.mk.inj h).2
    exact ⟨rfl, rfl⟩

/-- `dump_hash_iter` stores everything if the keys are in range. -/
theorem dumpHashIter_eq
    (hrange : InRange (2 ^ 32) m.keySize 0 ((m.entries.map ([·])).map List.length)) :
    dumpHashIter (m.kernel lookupBatch) m.keySize m.valueSize invalidKey d
      = (none, d.fill m.keySize m.valueSize 0 (m.entries.map ([·]))) := by
  have hperm : (m.entries.map ([·])).flatten.Perm m.entries := by rw [flatten_singles]
  have hcells := @cells_column m (m.entries.map ([·])) Prod.fst m.keySize d.keys hperm m.keySized
    hrange
  rw [flatten_singles] at hcells
  rw [map_length_singles, inRange_replicate_iff] at hrange
  rw [dumpHashIter, keysLoop_invalidKey hcount hinvalid]
  -- the keys are read from where they were stored
  have hread : ∀ i k, m.keys[i]? = some k →
      flat (Bytes.fill (2 ^ 32) m.keySize d.keys 0 (column Prod.fst (m.entries.map ([·]))))
        (m.keySize * i % 2 ^ 32) m.keySize = k := by
    intro i k hk
    have hi : i < m.entries.length := by
      obtain ⟨hi, -⟩ := List.getElem?_eq_some_iff.mp hk
      rwa [HashMap.keys, length_map] at hi
    have hlt := hrange i hi
    rw [Nat.zero_add] at hlt
    rw [Nat.mod_eq_of_lt hlt]
    exact Option.some.inj ((getElem?_cells hi).symm.trans (hcells ▸ hk))
  have hvalues := @valuesLoop_eq m lookupBatch m.valueSize [] m.entries _ d.values rfl hread
  rw [length_nil] at hvalues
  simp only [hvalues, Dump.fill, flatten_singles, Nat.zero_add]

end Ways

section Run

variable {invalidKey : List UInt8} {d : Dump} {fuel : Nat} {ops : Bool}
  (hcount : m.entries.length ≤ d.count)
include hcount

/-- The parts are batches, and are copied, or `dump_hash_iter` runs. -/
theorem dumpHash_cases (hparts : Parts m lookupBatch d.count ops parts)
    (hfuel : parts.length < fuel) :
    (∃ ops', dumpHash (m.kernel lookupBatch) m.keySize m.valueSize fuel true (some invalidKey) ops d
        = .ok ⟨none, d.fill m.keySize m.valueSize 0 parts, ops'⟩)
      ∨ parts = m.entries.map ([·])
        ∧ dumpHash (m.kernel lookupBatch) m.keySize m.valueSize fuel true (some invalidKey) ops d
          = .ok (dumpHashWithoutBatches (m.kernel lookupBatch) m.keySize m.valueSize
            (some invalidKey) d) := by
  have hvalid : (!true || m.keySize == 0 || m.valueSize == 0) = false := by
    have hk := m.keySize_pos
    have hv := m.valueSize_pos
    simp
    omega
  simp only [dumpHash, hvalid]
  cases hparts with
  | batches answers partition =>
    have hloop := @batchLoop_eq m lookupBatch m.keySize m.valueSize 0 d.count 0 fuel parts d answers
      (Nat.zero_add _) (partition.length_eq.trans_le hcount) hfuel
    simp [dumpHashBatch, hloop]
  | unsupported answer =>
    obtain ⟨fuel, rfl⟩ := Nat.exists_eq_succ_of_ne_zero (Nat.ne_zero_of_lt hfuel)
    by_cases hzero : d.count = 0
    · -- nothing is asked for
      have hnil : m.entries = [] := eq_nil_of_length_eq_zero (by omega)
      have hloop : batchLoop (m.kernel lookupBatch) m.keySize m.valueSize (fuel + 1) 0 0 d
          = .ok (none, { d with count := 0 }) := if_neg (by omega)
      rw [Dump.fill_of_flatten_eq_nil d (by rw [hnil]; rfl)]
      simp [dumpHashBatch, hloop]
    · have hcall : (m.kernel lookupBatch).lookupBatch 0 (d.count - 0) = ⟨some .einval, [], _⟩ :=
        answer
      have hcopy : d.copy m.keySize m.valueSize 0 [] = d := by
        simp [Dump.copy, store_nil]
      have hloop : batchLoop (m.kernel lookupBatch) m.keySize m.valueSize (fuel + 1) 0 0 d
          = .ok (some .einval, d) := by
        rw [batchLoop, if_pos (by omega)]
        simp only [hcall, hcopy]
      simp [dumpHashBatch, hloop]
  | remembered => exact Or.inr ⟨rfl, rfl⟩

variable (hinvalid : invalidKey ∉ m.keys) (hparts : Parts m lookupBatch d.count ops parts)
include hinvalid hparts

/-- A run that succeeds has stored the keys and counted them. -/
theorem dumpHash_keys
    (hfuel : parts.length < fuel) {o : Outcome}
    (hrun : dumpHash (m.kernel lookupBatch) m.keySize m.valueSize fuel true (some invalidKey) ops d
      = .ok o) (herrno : o.errno = none) :
    o.dump.keys = Bytes.fill (2 ^ 32) m.keySize d.keys 0 (column Prod.fst parts)
      ∧ o.dump.count = parts.flatten.length := by
  obtain ⟨ops', h⟩ | ⟨rfl, h⟩ := @dumpHash_cases _ _ _ invalidKey _ _ _ hcount hparts hfuel
  · cases h.symm.trans hrun
    exact ⟨rfl, Nat.zero_add _⟩
  · cases h.symm.trans hrun
    rw [flatten_singles]
    exact dumpHashIter_keys hcount hinvalid (Prod.ext herrno rfl)

/-- A run stores everything if the keys are in range. -/
theorem dumpHash_of_inRange (hfuel : parts.length < fuel)
    (hrange : InRange (2 ^ 32) m.keySize 0 (parts.map List.length)) :
    ∃ ops', dumpHash (m.kernel lookupBatch) m.keySize m.valueSize fuel true (some invalidKey) ops d
      = .ok ⟨none, d.fill m.keySize m.valueSize 0 parts, ops'⟩ := by
  obtain h | ⟨rfl, h⟩ := @dumpHash_cases _ _ _ invalidKey _ _ _ hcount hparts hfuel
  · exact h
  · refine ⟨false, h.trans ?_⟩
    simp [dumpHashWithoutBatches, dumpHashIter_eq hcount hinvalid hrange]

theorem dumped_of_fits (hfuel : parts.length < fuel) (hfits : Fits m parts) :
    Dumped m (dumpHash (m.kernel lookupBatch) m.keySize m.valueSize fuel true (some invalidKey)
      ops d) := by
  obtain ⟨ops', h⟩ := dumpHash_of_inRange hcount hinvalid hparts hfuel hfits.1
  have hperm := hparts.flatten_perm
  refine ⟨_, h, rfl, (Nat.zero_add _).trans hperm.length_eq, ?_⟩
  rw [Dump.entries_fill d hperm hfits]
  exact hperm

end Run

end Parts

/-! ### The entries of a map -/

section Entries

variable {m : HashMap} {lookupBatch : Nat → Nat → BatchAnswer} {parts : List (List Entry)}

theorem Dump.entries_perm {d : Dump} {es : List Entry} {keySize valueSize : Nat}
    (h : (d.entries keySize valueSize).Perm es) :
    (cells d.keys keySize d.count).Perm (es.map Prod.fst)
      ∧ (cells d.values valueSize d.count).Perm (es.map Prod.snd) := by
  have hkeys := h.map Prod.fst
  have hvalues := h.map Prod.snd
  rw [Dump.entries, map_fst_zip (by simp)] at hkeys
  rw [Dump.entries, map_snd_zip (by simp)] at hvalues
  exact ⟨hkeys, hvalues⟩

/-- An array that has the right elements with any memory is in range. -/
theorem inRange_column {f : Entry → List UInt8} {size : Nat} {all : List (List UInt8)}
    (hsize : 0 < size) (hperm : parts.flatten.Perm m.entries)
    (hsized : ∀ e ∈ m.entries, (f e).length = size)
    (h : ∀ mem, (cells (Bytes.fill (2 ^ 32) size mem 0 (column f parts)) size
      parts.flatten.length).Perm all) :
    InRange (2 ^ 32) size 0 (parts.map List.length) := by
  rw [← map_length_column f]
  apply inRange_of_perm hsize (Nat.two_pow_pos 32) (sized_column hperm hsized)
  rwa [flatten_column, length_map]

/-- The same result, and the same entries. -/
def Agree (m : HashMap) (r r' : Res Outcome) : Prop :=
  ∃ o o', r = .ok o ∧ r' = .ok o' ∧ o.errno = o'.errno ∧ o.dump.count = o'.dump.count
    ∧ (o.dump.entries m.keySize m.valueSize).Perm (o'.dump.entries m.keySize m.valueSize)

theorem Dumped.agree {r r' : Res Outcome} (h : Dumped m r) (h' : Dumped m r') : Agree m r r' := by
  obtain ⟨o, hr, herrno, hcount, hperm⟩ := h
  obtain ⟨o', hr', herrno', hcount', hperm'⟩ := h'
  exact ⟨o, o', hr, hr', herrno.trans herrno'.symm, hcount.trans hcount'.symm,
    hperm.trans hperm'.symm⟩

/-- If the single entries fit, batches do. -/
theorem Fits.of_singles (h : Fits m (m.entries.map ([·])))
    (hperm : parts.flatten.Perm m.entries) : Fits m parts := by
  have hsum : (parts.map List.length).sum = m.entries.length :=
    length_flatten.symm.trans hperm.length_eq
  rw [Fits, map_length_singles, inRange_replicate_iff, inRange_replicate_iff] at h
  exact ⟨inRange_of_forall (hsum ▸ h.1), inRange_of_forall (hsum ▸ h.2)⟩

/-- If the values wrap, bytes that are not in a value of the map show through. -/
theorem not_dumped_of_byte {count : Nat} (hcount : m.entries.length ≤ count)
    {invalidKey : List UInt8} (hinvalid : invalidKey ∉ m.keys) {ops : Bool}
    (hparts : Parts m lookupBatch count ops parts) {fuel : Nat} (hfuel : parts.length < fuel)
    (hkeys : InRange (2 ^ 32) m.keySize 0 (parts.map List.length))
    (hvalues : ¬ InRange (2 ^ 32) m.valueSize 0 (parts.map List.length)) {b : UInt8}
    (hb : ∀ e ∈ m.entries, b ∉ e.2) (keys : Nat → UInt8) :
    ¬ Dumped m (dumpHash (m.kernel lookupBatch) m.keySize m.valueSize fuel true (some invalidKey)
      ops ⟨keys, fun _ => b, count⟩) := by
  rintro ⟨o, hrun, -, -, hentries⟩
  obtain ⟨ops', hfill⟩ := @dumpHash_of_inRange _ _ _ _ ⟨keys, fun _ => b, count⟩ _ _ hcount hinvalid
    hparts hfuel hkeys
  cases hfill.symm.trans hrun
  rw [← map_length_column Prod.snd] at hvalues
  obtain ⟨x, hx, hbyte⟩ := exists_cell_of_not_inRange m.valueSize_pos (Nat.two_pow_pos 32)
    (sized_column hparts.flatten_perm m.valueSized) hvalues b
  rw [flatten_column, length_map] at hx
  have hperm := (Dump.entries_perm hentries).2
  simp only [Dump.fill, Nat.zero_add] at hperm
  obtain ⟨e, he, rfl⟩ := mem_map.mp (hperm.subset hx)
  exact hb e he hbyte

/-- **Dumps.**  For a map with at most `count` entries, `dump_hash` succeeds and stores its entries
    and their number, whatever was in the arrays, exactly if no part in which it copies them has
    an offset that wraps.  If the single entries fit, the way it goes agrees with the other. -/
theorem dumpHash_iff {count : Nat} (hcount : m.entries.length ≤ count) {invalidKey : List UInt8}
    (hinvalid : invalidKey ∉ m.keys) {ops : Bool} (hparts : Parts m lookupBatch count ops parts)
    {fuel : Nat} (hfuel : parts.length < fuel) :
    ((∀ keys values, Dumped m (dumpHash (m.kernel lookupBatch) m.keySize m.valueSize fuel true
        (some invalidKey) ops ⟨keys, values, count⟩)) ↔ Fits m parts)
      ∧ (Fits m (m.entries.map ([·])) → m.entries.length < fuel → ∀ d, d.count = count →
        Agree m
          (dumpHash (m.kernel lookupBatch) m.keySize m.valueSize fuel true (some invalidKey) ops d)
          (dumpHash (m.kernel lookupBatch) m.keySize m.valueSize fuel true (some invalidKey) false
            d)) := by
  have hperm := hparts.flatten_perm
  refine ⟨⟨fun h => ?_, fun hfits keys values => ?_⟩, fun hfits hfuel' d hd => ?_⟩
  · -- the keys first, since only then the values are looked up where they are stored
    have hkeys : InRange (2 ^ 32) m.keySize 0 (parts.map List.length) := by
      apply inRange_column m.keySize_pos hperm m.keySized
      intro mem
      obtain ⟨o, hrun, herrno, -, hentries⟩ := h mem fun _ => 0
      obtain ⟨hmem, hlength⟩ := dumpHash_keys hcount hinvalid hparts hfuel hrun herrno
      rw [← hmem, ← hlength]
      exact (Dump.entries_perm hentries).1
    refine ⟨hkeys, ?_⟩
    apply inRange_column m.valueSize_pos hperm m.valueSized
    intro mem
    obtain ⟨o, hrun, -, -, hentries⟩ := h (fun _ => 0) mem
    obtain ⟨ops', hfill⟩ := @dumpHash_of_inRange _ _ _ _ ⟨fun _ => 0, mem, count⟩ _ _ hcount
      hinvalid hparts hfuel hkeys
    cases hfill.symm.trans hrun
    have hvalues := (Dump.entries_perm hentries).2
    simp only [Dump.fill, Nat.zero_add] at hvalues
    exact hvalues
  · exact dumped_of_fits hcount hinvalid hparts hfuel hfits
  · subst hd
    have hother : Parts m lookupBatch d.count false (m.entries.map ([·])) := .remembered
    exact (dumped_of_fits hcount hinvalid hparts hfuel (hfits.of_singles hperm)).agree
      (dumped_of_fits hcount hinvalid hother (by rwa [length_map]) hfits)

end Entries

/-- A map with two entries. -/
def twoEntries : HashMap where
  keySize := 1
  valueSize := 2
  entries := [([1], [1, 0]), ([2], [2, 0])]
  keySize_pos := by decide
  valueSize_pos := by decide
  nodup := by decide
  keySized := by decide
  valueSized := by decide

/-- A kernel that hands them out one by one, the second one first. -/
def oneByOne (place _room : Nat) : BatchAnswer :=
  if place = 0 then ⟨none, [([2], [2, 0])], 1⟩ else ⟨some .enoent, [([1], [1, 0])], 2⟩

theorem dumpHash_oneByOne : Fits twoEntries [[([2], [2, 0])], [([1], [1, 0])]]
    ∧ Dumped twoEntries (dumpHash (twoEntries.kernel oneByOne) 1 2 3 true (some [0]) true
      ⟨fun _ => 0, fun _ => 0, 2⟩) := by
  have hparts : Parts twoEntries oneByOne 2 true [[([2], [2, 0])], [([1], [1, 0])]] :=
    .batches (.more rfl (.last rfl)) (by decide)
  have hfits : Fits twoEntries [[([2], [2, 0])], [([1], [1, 0])]] := by decide
  have hiff := (@dumpHash_iff twoEntries oneByOne _ 2 (by decide) [0] (by decide) true hparts 3
    (by decide)).1
  exact ⟨hfits, hiff.mpr hfits (fun _ => 0) fun _ => 0⟩

/-- A map with values of one mebibyte. -/
def largeMap : HashMap where
  keySize := 4
  valueSize := 2 ^ 20
  entries := (List.range 4097).map fun i => (le 4 i, List.replicate (2 ^ 20) 0)
  keySize_pos := by decide
  valueSize_pos := by decide
  nodup := by
    rw [map_map]
    apply List.Nodup.map_on _ nodup_range
    intro i hi j hj heq
    have hi := mem_range.mp hi
    have hj := mem_range.mp hj
    exact le_injective (by omega) (by omega) heq
  keySized := by
    intro e he
    obtain ⟨i, -, rfl⟩ := mem_map.mp he
    exact length_le 4 i
  valueSized := by
    intro e he
    obtain ⟨i, -, rfl⟩ := mem_map.mp he
    exact length_replicate

theorem mem_largeMap {e : Entry} (he : e ∈ largeMap.entries) :
    ∃ i < 4097, e = (le 4 i, List.replicate (2 ^ 20) 0) := by
  simp only [largeMap, mem_map, mem_range] at he
  obtain ⟨i, hi, heq⟩ := he
  exact ⟨i, hi, heq.symm⟩

/-- A kernel without batches. -/
def noBatches (_place _room : Nat) : BatchAnswer := ⟨some .einval, [], 0⟩

/-- The last value would have to be stored at an offset of 2 ^ 32, and is stored at zero. -/
theorem dumpHash_wraps : largeMap.entries.length = 4097
    ∧ le 4 5000 ∉ largeMap.keys
    ∧ ¬ Dumped largeMap (dumpHash (largeMap.kernel noBatches) largeMap.keySize largeMap.valueSize
      4098 true (some (le 4 5000)) true ⟨fun _ => 0xff, fun _ => 0xff, 4097⟩) := by
  have hlength : largeMap.entries.length = 4097 := by
    rw [largeMap, length_map, length_range]
  have hinvalid : le 4 5000 ∉ largeMap.keys := by
    intro hmem
    obtain ⟨e, he, hkey⟩ := mem_map.mp hmem
    obtain ⟨i, hi, rfl⟩ := mem_largeMap he
    have heq : i = 5000 := le_injective (show i < 256 ^ 4 by omega) (by omega) hkey
    omega
  have hparts : Parts largeMap noBatches 4097 true (largeMap.entries.map ([·])) := .unsupported rfl
  have hlengths : (largeMap.entries.map ([·])).map List.length = List.replicate 4097 1 := by
    rw [map_length_singles, hlength]
  refine ⟨hlength, hinvalid, ?_⟩
  apply not_dumped_of_byte hlength.le hinvalid hparts
  · rw [length_map, hlength]
    exact Nat.lt_succ_self 4097
  · rw [hlengths, inRange_replicate_iff]
    intro i hi
    show 4 * (0 + i) < 2 ^ 32
    omega
  · rw [hlengths, inRange_replicate_iff]
    intro h
    have hlt : 2 ^ 20 * (0 + 4096) < 2 ^ 32 := h 4096 (by omega)
    omega
  · intro e he hbyte
    obtain ⟨i, -, rfl⟩ := mem_largeMap he
    exact absurd (eq_of_mem_replicate hbyte) (by decide)

end Bcc.Tools
