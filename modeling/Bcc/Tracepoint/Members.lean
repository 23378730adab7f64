import Bcc.Tracepoint.Format

namespace Bcc.Tracepoint

open CLayout CText List

/-!
# Tracepoints — members that are written for lines

* `lineLoop_field`, `lineLoop_common` — the members that are written for fields, and others that
  fill the bytes between.
-/

variable {enumVal : List Char → Option Int} {abi : CAbi}

/-! ### Members with their fields -/

/-- The text of members. -/
def textOf (ms : List Member) : List Char := ms.flatMap Member.text

/-- The text of a struct. -/
def structText (category event : List Char) (ms : List Member) : List Char :=
  header category event ++ (textOf ms ++ "\x7d;\n".toList)

/-- Members that are written for no field. -/
def fillers (es : List (Option FieldLine × Member)) : List Member :=
  (es.filter (·.1.isNone)).map (·.2)

variable (ms : List Member)

theorem textOf_append (ns : List Member) : textOf (ms ++ ns) = textOf ms ++ textOf ns :=
  flatMap_append

theorem textOf_cons (m : Member) (ms : List Member) : textOf (m :: ms) = m.text ++ textOf ms :=
  flatMap_cons

theorem fillers_append (es es' : List (Option FieldLine × Member)) :
    fillers (es ++ es') = fillers es ++ fillers es' := by
  rw [fillers, filter_append, map_append]
  rfl

/-- Each member of a field, with the first member due at `pos`, is placed at the offset of the
    field. -/
def Fits (enumVal : List Char → Option Int) (abi : CAbi) :
    Nat → List (Option FieldLine × Member) → Prop
  | _, [] => True
  | pos, (o, m) :: es =>
    (∀ l, o = some l → l.member enumVal = some m ∧ roundUp pos (abi.align m) = l.offset)
      ∧ Fits enumVal abi (roundUp pos (abi.align m) + abi.size m) es

theorem fits_append {pos : Nat} {es es' : List (Option FieldLine × Member)}
    (h : Fits enumVal abi pos es)
    (h' : Fits enumVal abi (finish abi.toAbi pos (es.map (·.2))) es') :
    Fits enumVal abi pos (es ++ es') := by
  induction es generalizing pos with
  | nil => exact h'
  | cons x es ih => exact ⟨h.1, ih h.2 h'⟩

theorem Fits.getElem? {pos : Nat} {es : List (Option FieldLine × Member)}
    (h : Fits enumVal abi pos es) {i : Nat} {l : FieldLine} {m : Member}
    (hi : es[i]? = some (some l, m)) :
    l.member enumVal = some m
      ∧ (place abi.toAbi pos (es.map (·.2)))[i]? = some (m, l.offset) := by
  induction es generalizing pos i with
  | nil => cases hi
  | cons x es ih =>
    cases i with
    | zero =>
      cases hi
      obtain ⟨hm, hpos⟩ := h.1 l rfl
      exact ⟨hm, congrArg (fun p => some (m, p)) hpos⟩
    | succ i => exact ih h.2 hi

/-- Members without a field. -/
def untagged (ms : List Member) : List (Option FieldLine × Member) := ms.map (fun m => (none, m))

theorem fits_untagged (pos : Nat) (ms : List Member) : Fits enumVal abi pos (untagged ms) := by
  induction ms generalizing pos with
  | nil => trivial
  | cons m ms ih => exact ⟨fun l hl => absurd hl.symm (Option.some_ne_none l), ih _⟩

@[simp] theorem map_snd_untagged : (untagged ms).map (·.2) = ms := by
  rw [untagged, map_map]
  exact map_id ms

@[simp] theorem filterMap_fst_untagged : (untagged ms).filterMap (·.1) = [] := by
  induction ms with
  | nil => rfl
  | cons m ms ih => exact ih

@[simp] theorem fillers_untagged : fillers (untagged ms) = ms := by
  induction ms with
  | nil => rfl
  | cons m ms ih => exact congrArg (m :: ·) ih

/-! ### Bytes that are filled -/

/-- Padding for the bytes from an offset on. -/
def paddings (first n : Nat) : List Member := (List.range' first n).map (fun k : Nat => padding k)

/-- Placeholders for the bytes from an offset on. -/
def placeholders (first n : Nat) : List Member :=
  (List.range' first n).map (fun k : Nat => placeholder k)

theorem isIdent_append_decimal {pre : List Char} (h : IsIdent pre) (n : Nat) :
    IsIdent (pre ++ decimal n) := by
  obtain ⟨hne, hdigit, hchars⟩ := h
  refine ⟨append_ne_nil_of_left_ne_nil hne _, ?_, ?_⟩
  · cases pre with
    | nil => exact absurd rfl hne
    | cons c cs => exact hdigit
  · intro c hc
    rcases mem_append.mp hc with hc | hc
    · exact hchars c hc
    · have hd := Nat.isDigit_of_mem_toDigits (by decide) (by decide) hc
      exact Or.inl (Bool.or_eq_true_iff.mpr (Or.inr hd))

theorem isIdent_of_all {name : List Char} (h : (name ≠ [] ∧ (peek name).isDigit = false)
    ∧ name.all (fun c => c.isAlphanum || c == '_') = true) : IsIdent name := by
  refine ⟨h.1.1, h.1.2, fun c hc => ?_⟩
  simpa using all_eq_true.mp h.2 c hc

variable {first n : Nat}

theorem char_of_mem_paddings : ∀ m ∈ paddings first n, abi.size m = 1 ∧ abi.align m = 1 := by
  intro m hm
  obtain ⟨k, -, rfl⟩ := mem_map.mp hm
  have hident : IsIdent "__pad_".toList := isIdent_of_all (by decide)
  exact abi.char_size _ (isIdent_append_decimal hident k)

theorem isIdent_doNotUse : IsIdent "__do_not_use__".toList := isIdent_of_all (by decide)

theorem char_of_mem_placeholders :
    ∀ m ∈ placeholders first n, abi.size m = 1 ∧ abi.align m = 1 := by
  intro m hm
  obtain ⟨k, -, rfl⟩ := mem_map.mp hm
  exact abi.char_size _ (isIdent_append_decimal isIdent_doNotUse k)

theorem fillCommon_eq (n first : Nat) : fillCommon n first = textOf (placeholders first n) := by
  induction n generalizing first with
  | zero => rfl
  | succ n ih => exact congrArg ((placeholder first).text ++ ·) (ih (first + 1))

/-! ### Lines -/

/-- An `int` that can be read is not changed by going through `int`. -/
theorem toInt32_natCast (h : n < 2 ^ 31) : toInt32 (n : Int) = n :=
  toInt32_eq_self (by omega) (by omega)

/-- What is made of a line of a field. -/
theorem FieldLine.getFieldKind_text (l : FieldLine) (last : Int) :
    getFieldKind enumVal l.text last
      = some (if last < l.offset then ((.pad, [], []), toInt32 (last + 1))
        else (l.classified enumVal, toInt32 (l.offset + l.size : Nat))) := by
  unfold getFieldKind
  rw [l.scanLine_text]
  show (if last < (l.offset : Int) then _ else _) = _
  split
  · rfl
  · rfl

/-- **A field.**  The bytes before a field are padded, one by one, and then its member is
    written. -/
theorem lineLoop_field {l : FieldLine} {m : Member} (hm : l.member enumVal = some m) {k : Nat}
    (hk : n ≤ k) (s : TpState) (hlast : s.lastOffset = first) (hfirst : first + n = l.offset) :
    lineLoop enumVal l.text (k + 1) s
      = .ok (some ⟨s.text ++ textOf (paddings first n ++ [m]), toInt32 (l.offset + l.size : Nat),
        s.commonOffset⟩) := by
  have hoffset := l.offset_lt
  induction n generalizing k s first with
  | zero =>
    rw [lineLoop, l.getFieldKind_text, if_neg (by omega)]
    unfold FieldLine.member at hm
    generalize l.classified enumVal = c at hm
    obtain ⟨kind, type, name⟩ := c
    -- only two kinds have a member
    cases kind with
    | dataLoc =>
      cases hm
      show _ = Except.ok (some (TpState.mk (s.text ++ ((dataLoc name).text ++ [])) _ _))
      rw [append_nil]
    | regular =>
      cases hm
      show _ = Except.ok (some (TpState.mk (s.text ++ ((Member.mk type name).text ++ [])) _ _))
      rw [append_nil]
    | common | invalid | pad => cases hm
  | succ n ih =>
    obtain ⟨k, rfl⟩ := Nat.exists_eq_add_of_le' (Nat.le_trans (Nat.le_add_left 1 n) hk)
    have hnext : toInt32 ((first : Int) + 1) = (first + 1 : Nat) :=
      toInt32_natCast (n := first + 1) (by omega)
    rw [lineLoop, l.getFieldKind_text, hlast, if_pos (by omega), hnext]
    dsimp only
    rw [ih (by omega) _ rfl (by omega)]
    have hpad : ((first + 1 : Nat) : Int) - 1 = first := by omega
    rw [hpad, append_assoc]
    rfl

/-- **A common field.**  Placeholders are written up to the end of the field. -/
theorem lineLoop_common {l : FieldLine} (hl : (l.classified enumVal).1 = .common) (k : Nat)
    (s : TpState) (hlast : s.lastOffset = l.offset) :
    lineLoop enumVal l.text (k + 1) s
      = .ok (some ⟨s.text ++ fillCommon (toInt32 (l.offset + l.size : Nat) - s.commonOffset).toNat
        s.commonOffset, toInt32 (l.offset + l.size : Nat),
        max s.commonOffset (toInt32 (l.offset + l.size : Nat))⟩) := by
  rw [lineLoop, l.getFieldKind_text, if_neg (by omega)]
  generalize l.classified enumVal = c at hl
  obtain ⟨kind, type, name⟩ := c
  obtain rfl : kind = .common := hl
  rfl

/-- Lines that are not of a field do nothing. -/
theorem lineLoop_other {text : List Char} (h : scanLine text = some none) (k : Nat) (s : TpState) :
    lineLoop enumVal text (k + 1) s = .ok (some s) := by
  have hkind : getFieldKind enumVal text s.lastOffset
      = some ((.invalid, [], []), s.lastOffset) := by
    unfold getFieldKind
    rw [h]
    rfl
  rw [lineLoop, hkind]

end Bcc.Tracepoint
