import Bcc.Tracepoint.Members
import Mathlib.Data.List.Nodup

namespace Bcc.Tracepoint

open CLayout CText List

/-!
# Tracepoints — the struct has the layout of the record

The members that are written for a format file, laid out as C does, stand where the file says.
Behind every line the offset that the parser keeps is the one at which the next member is due.

* `parseLines_fields`, `parseLines_struct` — what the lines do;
* `parseTracepoint_layout` — the struct.
-/

variable {enumVal : List Char → Option Int} {abi : CAbi}

/-! ### Runs -/

/-- From a state in which the next member is due at `pos`, the lines write the members `es`: one
    for each of the fields, where it belongs, and others without a field. -/
structure Writes (enumVal : List Char → Option Int) (abi : CAbi) (lines : List FormatLine)
    (s : TpState) (pos : Nat) (fields : List FieldLine) (es : List (Option FieldLine × Member)) :
    Prop where
  run : ∃ s', parseLines enumVal (lines.map (·.text)) s = .ok (some s')
    ∧ s'.text = s.text ++ textOf (es.map (·.2))
  members : es.filterMap (·.1) = fields
  fits : Fits enumVal abi pos es

theorem writes_nil (s : TpState) (pos : Nat) : Writes enumVal abi [] s pos [] [] :=
  ⟨⟨s, rfl, (append_nil _).symm⟩, rfl, trivial⟩

variable {lines : List FormatLine}

/-- A line and the lines behind it. -/
theorem Writes.cons {line : FormatLine} {s s₁ : TpState} {pos : Nat} {fields : List FieldLine}
    {es₁ es : List (Option FieldLine × Member)}
    (hline : lineLoop enumVal line.text lineFuel s = .ok (some s₁))
    (htext : s₁.text = s.text ++ textOf (es₁.map (·.2))) (hfits : Fits enumVal abi pos es₁)
    (h : Writes enumVal abi lines s₁ (finish abi.toAbi pos (es₁.map (·.2))) fields es) :
    Writes enumVal abi (line :: lines) s pos (es₁.filterMap (·.1) ++ fields) (es₁ ++ es) := by
  obtain ⟨⟨s', hrun, htext'⟩, hmembers, hfits'⟩ := h
  refine ⟨⟨s', ?_, ?_⟩, ?_, fits_append hfits hfits'⟩
  · rw [map_cons, parseLines, hline]
    exact hrun
  · rw [htext', htext, map_append, textOf_append, append_assoc]
  · rw [filterMap_append, hmembers]

/-- A line that is not of a field. -/
theorem Writes.cons_other {text : List Char} {noField : scanLine text = some none}
    {noNewline : '\n' ∉ text} {s : TpState} {pos : Nat} {fields : List FieldLine}
    {es : List (Option FieldLine × Member)} (h : Writes enumVal abi lines s pos fields es) :
    Writes enumVal abi (.other text noField noNewline :: lines) s pos fields es := by
  obtain ⟨⟨s', hrun, htext⟩, hmembers, hfits⟩ := h
  refine ⟨⟨s', ?_, htext⟩, hmembers, hfits⟩
  have hline : lineLoop enumVal text lineFuel s = .ok (some s) := lineLoop_other noField _ s
  show (lineLoop enumVal text lineFuel s >>= _) = _
  rw [hline]
  exact hrun

theorem fieldsOf_field (l : FieldLine) (lines : List FormatLine) :
    fieldsOf (.field l :: lines) = l :: fieldsOf lines := rfl

variable {first : Nat}

/-- **Fields behind the common ones.**  Each is written where it belongs, with padding before it. -/
theorem parseLines_fields
    (hasc : Ascending first (fieldsOf lines))
    (hnat : ∀ l ∈ fieldsOf lines, ∃ m, l.member enumVal = some m ∧ abi.size m = l.size
      ∧ abi.align m ∣ l.offset) (s : TpState) (hlast : s.lastOffset = toInt32 first) :
    ∃ (es : List (Option FieldLine × Member)) (ks : List Nat),
      Writes enumVal abi lines s first (fieldsOf lines) es
      ∧ fillers es = ks.map (fun k : Nat => padding k) ∧ ks.Pairwise (· < ·)
      ∧ ∀ k ∈ ks, first ≤ k := by
  induction lines generalizing first s with
  | nil => exact ⟨[], [], writes_nil s first, rfl, List.Pairwise.nil, fun k hk => by cases hk⟩
  | cons line lines ih =>
    cases line with
    | other text noField noNewline =>
      obtain ⟨es, ks, hw, hks⟩ := ih hasc hnat s hlast
      exact ⟨es, ks, hw.cons_other, hks⟩
    | field l =>
      rw [fieldsOf_field] at hasc hnat ⊢
      obtain ⟨hle, hasc⟩ := hasc
      obtain ⟨⟨m, hm, hsize, halign⟩, hnat⟩ := forall_mem_cons.mp hnat
      obtain ⟨n, hn⟩ := Nat.exists_eq_add_of_le hle
      have hoffset := l.offset_lt
      rw [toInt32_natCast (by omega)] at hlast
      obtain ⟨s₁, hs₁⟩ : ∃ s₁, s₁ = TpState.mk (s.text ++ textOf (paddings first n ++ [m]))
        (toInt32 (l.offset + l.size : Nat)) s.commonOffset := ⟨_, rfl⟩
      have hline : lineLoop enumVal (FormatLine.field l).text lineFuel s = .ok (some s₁) := by
        rw [hs₁]
        exact lineLoop_field hm (show n ≤ 2 ^ 32 by omega) s hlast hn.symm
      obtain ⟨es, ks, hw, hks, hpair, hbound⟩ := ih hasc hnat s₁ (by rw [hs₁])
      have hdue : finish abi.toAbi first (paddings first n) = l.offset := by
        rw [finish_bytes char_of_mem_paddings, paddings, length_map, length_range', hn]
      have hplace : finish abi.toAbi l.offset [m] = l.offset + abi.size m :=
        (place_singleton halign).2
      have hmap : (untagged (paddings first n) ++ [(some l, m)]).map (·.2)
          = paddings first n ++ [m] := by
        rw [map_append, map_snd_untagged]
        rfl
      refine ⟨(untagged (paddings first n) ++ [(some l, m)]) ++ es, List.range' first n ++ ks,
        ?_, ?_, ?_, ?_⟩
      · have hmembers : (untagged (paddings first n) ++ [(some l, m)]).filterMap (·.1)
            ++ fieldsOf lines = l :: fieldsOf lines := by
          rw [filterMap_append, filterMap_fst_untagged]
          rfl
        rw [← hmembers]
        apply Writes.cons hline
        · rw [hmap, hs₁]
        · apply fits_append (fits_untagged _ _)
          rw [map_snd_untagged, hdue]
          refine ⟨fun l' hl' => ?_, trivial⟩
          cases hl'
          exact ⟨hm, roundUp_of_dvd halign⟩
        · rw [hmap, finish_append, hdue, hplace, hsize]
          exact hw
      · rw [fillers_append, fillers_append, fillers_untagged, hks, map_append]
        exact congrArg (· ++ _) (append_nil _)
      · rw [pairwise_append]
        refine ⟨pairwise_lt_range', hpair, fun a ha b hb => ?_⟩
        have ha' := mem_range'_1.mp ha
        have hb' := hbound b hb
        omega
      · intro k hk
        rcases mem_append.mp hk with hk | hk
        · exact (mem_range'_1.mp hk).1
        · have hk' := hbound k hk
          omega

/-- Lines without a field write nothing. -/
theorem writes_of_no_fields (h : fieldsOf lines = []) (s : TpState) (pos : Nat) :
    Writes enumVal abi lines s pos [] [] := by
  induction lines with
  | nil => exact writes_nil s pos
  | cons line lines ih =>
    cases line with
    | other text noField noNewline => exact (ih h).cons_other
    | field l => cases h

/-- A field that would start behind the range of `int` cannot be declared. -/
theorem ascending_eq_nil {ls : List FieldLine} (hfirst : 2 ^ 31 ≤ first) (h : Ascending first ls) :
    ls = [] := by
  cases ls with
  | nil => rfl
  | cons l ls =>
    have hlt := l.offset_lt
    have hle := h.1
    omega

theorem contiguous_ascending {last : Nat} {ls ls' : List FieldLine} (h : Contiguous first ls last)
    (h' : Ascending last ls') : Ascending first (ls ++ ls') := by
  induction ls generalizing first with
  | nil =>
    obtain rfl : first = last := h
    exact h'
  | cons l ls ih =>
    obtain ⟨hoffset, hrest⟩ := h
    exact ⟨hoffset.ge, hoffset ▸ ih hrest⟩

/-- **All lines.**  The common fields write placeholders, so that the next member is due at their
    end, and the others follow. -/
theorem parseLines_struct {commons others : List FieldLine}
    {covered : Nat} (hfields : fieldsOf lines = commons ++ others)
    (hcommon : ∀ l ∈ commons, (l.classified enumVal).1 = .common)
    (hcont : Contiguous first commons covered) (hcovered : 8 ≤ covered)
    (hasc : Ascending covered others)
    (hnat : ∀ l ∈ others, ∃ m, l.member enumVal = some m ∧ abi.size m = l.size
      ∧ abi.align m ∣ l.offset) (s : TpState) (hlast : s.lastOffset = toInt32 first)
    (hdue : s.commonOffset = (max 8 first : Nat)) :
    ∃ (es : List (Option FieldLine × Member)) (n : Nat) (ks : List Nat),
      Writes enumVal abi lines s (max 8 first) others es
      ∧ fillers es = placeholders (max 8 first) n ++ ks.map (fun k : Nat => padding k)
      ∧ ks.Pairwise (· < ·) := by
  induction lines generalizing commons first s with
  | nil =>
    obtain ⟨rfl, rfl⟩ := append_eq_nil_iff.mp hfields.symm
    exact ⟨[], 0, [], writes_nil s _, rfl, List.Pairwise.nil⟩
  | cons line lines ih =>
    cases line with
    | other text noField noNewline =>
      obtain ⟨es, n, ks, hw, hks⟩ := ih hfields hcommon hcont s hlast hdue
      exact ⟨es, n, ks, hw.cons_other, hks⟩
    | field l =>
      cases commons with
      | nil =>
        -- the common fields are all read
        obtain rfl : first = covered := hcont
        subst hfields
        obtain ⟨es, ks, hw, hks, hpair, -⟩ := parseLines_fields hasc hnat s hlast
        rw [Nat.max_eq_right hcovered]
        exact ⟨es, 0, ks, hw, hks, hpair⟩
      | cons c commons =>
        obtain ⟨rfl, hrest⟩ := List.cons.inj hfields
        obtain ⟨hoffset, hcont⟩ := hcont
        obtain ⟨hc, hcommon⟩ := forall_mem_cons.mp hcommon
        have hlt := l.offset_lt
        rw [toInt32_natCast (by omega), ← hoffset] at hlast
        obtain ⟨n, hn⟩ : ∃ n, n = (toInt32 (l.offset + l.size : Nat) - s.commonOffset).toNat :=
          ⟨_, rfl⟩
        obtain ⟨s₁, hs₁⟩ : ∃ s₁, s₁ = TpState.mk (s.text ++ textOf (placeholders (max 8 first) n))
          (toInt32 (l.offset + l.size : Nat))
          (max s.commonOffset (toInt32 (l.offset + l.size : Nat))) := ⟨_, rfl⟩
        have hline : lineLoop enumVal (FormatLine.field l).text lineFuel s = .ok (some s₁) := by
          rw [hs₁, ← fillCommon_eq, ← hdue, hn]
          exact lineLoop_common hc _ s hlast
        have htext : s₁.text = s.text
            ++ textOf ((untagged (placeholders (max 8 first) n)).map (·.2)) := by
          rw [map_snd_untagged, hs₁]
        have hfinish : finish abi.toAbi (max 8 first) ((untagged (placeholders (max 8 first) n)).map
            (·.2)) = max 8 first + n := by
          rw [map_snd_untagged, finish_bytes char_of_mem_placeholders, placeholders,
            length_map, length_range']
        have hstep : ∀ {es}, Writes enumVal abi lines s₁ (max 8 first + n) others es →
            Writes enumVal abi (.field l :: lines) s (max 8 first) others
              (untagged (placeholders (max 8 first) n) ++ es) := by
          intro es hw
          rw [← hfinish] at hw
          have hcons := Writes.cons hline htext (fits_untagged _ _) hw
          rwa [filterMap_fst_untagged] at hcons
        by_cases hend : l.offset + l.size < 2 ^ 31
        · rw [toInt32_natCast hend] at hn hs₁
          have hnext : max 8 first + n = max 8 (first + l.size) := by omega
          obtain ⟨es, n', ks, hw, hks, hpair⟩ := ih hrest hcommon hcont s₁
            (by rw [hs₁, ← hoffset, toInt32_natCast hend]) (by rw [hs₁]; dsimp only; omega)
          rw [← hnext] at hw hks
          refine ⟨_, n + n', ks, hstep hw, ?_, hpair⟩
          rw [fillers_append, fillers_untagged, hks, ← append_assoc]
          unfold placeholders
          rw [← map_append, range'_append_1]
        · -- nothing can be declared behind this field
          have hnil := ascending_eq_nil (by omega) (contiguous_ascending hcont hasc)
          obtain ⟨rfl, rfl⟩ := append_eq_nil_iff.mp hnil
          refine ⟨_, n, [], hstep (writes_of_no_fields hrest s₁ _), ?_, List.Pairwise.nil⟩
          rw [fillers_append, fillers_untagged]
          rfl

/-! ### The struct -/

/-- Members without a field have different names. -/
theorem nodup_names (first n : Nat) {ks : List Nat} (hks : ks.Pairwise (· < ·)) :
    ((doNotUse :: (placeholders first n ++ ks.map (fun k : Nat => padding k))).map
      (·.name)).Nodup := by
  have hinj : ∀ pre : List Char, Function.Injective (fun k : Nat => pre ++ decimal k) :=
    fun pre a b hab => Int.ofNat.inj (decimal_injective (append_cancel_left hab))
  -- the two kinds of names differ in their third character
  have hthird : ∀ x y : List Char, "__do_not_use__".toList ++ x ≠ "__pad_".toList ++ y := by
    intro x y h
    have h3 := congrArg (fun l : List Char => l[2]?) h
    exact absurd h3 (show ¬ some 'd' = some 'p' by decide)
  rw [map_cons, map_append, nodup_cons, mem_append, not_or, nodup_append]
  unfold placeholders
  rw [map_map, map_map]
  refine ⟨⟨?_, ?_⟩, ?_, ?_, ?_⟩
  · intro hmem
    obtain ⟨k, -, hk⟩ := mem_map.mp hmem
    have hnil : decimal (k : Int) = [] := append_right_eq_self.mp hk
    exact Nat.toDigits_ne_nil hnil
  · intro hmem
    obtain ⟨k, -, hk⟩ := mem_map.mp hmem
    exact hthird [] _ ((append_nil _).trans hk.symm)
  · exact List.Nodup.map (hinj _) nodup_range'
  · exact List.Nodup.map (hinj _) (hks.imp Nat.ne_of_lt)
  · intro a ha b hb
    obtain ⟨k, -, rfl⟩ := mem_map.mp ha
    obtain ⟨k', -, rfl⟩ := mem_map.mp hb
    exact hthird _ _

/-- A line as the kernel writes it. -/
def kernelLine (type name : List Char) (offset size : Nat)
    (hfield : (type ++ ' ' :: name).all (fun c => c != ';' && c != '\n') = true)
    (hname : name.all (fun c => c != ' ' && c != '\t') = true) (hoffset : offset < 2 ^ 31)
    (hsize : size < 2 ^ 31) : FieldLine where
  indent := ['\t']
  type := type
  sep := ' '
  name := name
  gap := ['\t']
  offset := offset
  gap' := ['\t']
  size := size
  rest := "\tsigned:0;".toList
  indent_blank := fun _ hc => Or.inr (mem_singleton.mp hc)
  gap_blank := fun _ hc => Or.inr (mem_singleton.mp hc)
  gap_blank' := fun _ hc => Or.inr (mem_singleton.mp hc)
  sep_blank := Or.inl rfl
  field_chars := fun c hc => by simpa using all_eq_true.mp hfield c hc
  name_chars := fun c hc => by simpa using all_eq_true.mp hname c hc
  rest_chars := by decide
  offset_lt := hoffset
  size_lt := hsize

/-- The sizes of a few types, for declarations without a declarator of their own. -/
def scalarSize (type : List Char) : Nat :=
  if type = "char".toList then 1
  else if type = "u64".toList then 8
  else if type = "s64".toList then 8
  else 4

/-- Types that are aligned to their size. -/
def scalarAbi : CAbi where
  size m := scalarSize m.type
  align m := scalarSize m.type
  u64_size := fun _ _ => show scalarSize "u64".toList = 8 by decide
  char_size := fun _ _ => show scalarSize "char".toList = 1 ∧ scalarSize "char".toList = 1 by decide

def commonLine : FieldLine :=
  kernelLine "unsigned long".toList "common_all".toList 0 9 (by decide) (by decide)
    (Nat.two_pow_pos 31) (by decide)

def valueLine : FieldLine :=
  kernelLine "int".toList "value".toList 16 8 (by decide) (by decide) (by decide) (by decide)

end Bcc.Tracepoint
