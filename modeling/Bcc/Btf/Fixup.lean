import Bcc.Btf.Types

namespace Bcc.Btf

open Bytes CText List

/-!
# BTF — what is left of the kinds bcc has no use for

* `sanitized_iff` — the pass keeps the length of a section, sections stay sections, and variables,
  data sections and linkages of functions are removed up to the first kind it does not understand.
-/

/-! ### Sections are read in one way -/

/-- A type is read in one way, with what follows it. -/
theorem encodeType_append_inj {t u : TypeRec} {x y : List UInt8}
    (h : encodeType t ++ x = encodeType u ++ y) : t = u ∧ x = y := by
  obtain ⟨tn, ti, ts, te, tk, htn, hti, hts, htk, hte⟩ := t
  obtain ⟨un, ui, us, ue, uk, hun, hui, hus, huk, hue⟩ := u
  simp only [encodeType, append_assoc] at h
  obtain ⟨hname, h₁⟩ := append_inj h (by rw [length_le, length_le])
  obtain ⟨hinfo, h₂⟩ := append_inj h₁ (by rw [length_le, length_le])
  obtain ⟨hsize, h₃⟩ := append_inj h₂ (by rw [length_le, length_le])
  obtain rfl := le_injective htn hun hname
  obtain rfl := le_injective hti hui hinfo
  obtain rfl := le_injective hts hus hsize
  -- the kind, and with it the number of bytes that follow, is that of the info
  obtain rfl : tk = uk := Option.some.inj (htk.symm.trans huk)
  obtain ⟨rfl, rfl⟩ := append_inj h₃ (hte.trans hue.symm)
  exact ⟨rfl, rfl⟩

theorem encodeTypes_injective {ts us : List TypeRec} (h : encodeTypes ts = encodeTypes us) :
    ts = us := by
  have hpos : ∀ t : TypeRec, ∀ x : List UInt8, encodeType t ++ x ≠ [] := by
    intro t x hnil
    have hlen := congrArg List.length hnil
    rw [length_append, length_encodeType] at hlen
    simp at hlen
  induction ts generalizing us with
  | nil =>
    cases us with
    | nil => rfl
    | cons u us => exact absurd h.symm (hpos u _)
  | cons t ts ih =>
    cases us with
    | nil => exact absurd h (hpos t _)
    | cons u us =>
      obtain ⟨rfl, hrest⟩ := encodeType_append_inj h
      rw [ih hrest]

/-! ### Lengths and places -/

theorem length_encodeTypes_fixType (t : TypeRec) :
    (encodeTypes (fixType t)).length = (encodeType t).length := by
  have hone : ∀ u, encodeTypes [u] = encodeType u := fun u => append_nil _
  by_cases hf : t.kind = .func
  · have hkind : (clearVlen t hf).kind = .func := rfl
    have hextra : ∀ vlen, Kind.func.extraSize vlen = 0 := fun _ => rfl
    rw [fixType_func hf, hone, length_encodeType, length_encodeType, hkind, hf, hextra, hextra]
  · by_cases hv : t.kind = .var
    · have hkind : intType.kind = .int := rfl
      have hextra : ∀ vlen vlen', Kind.int.extraSize vlen = Kind.var.extraSize vlen' :=
        fun _ _ => rfl
      rw [fixType_var hv, hone, length_encodeType, length_encodeType, hkind, hv,
        hextra _ (infoVlen t.info)]
    · by_cases hd : t.kind = .datasec
      · have hpointer : (encodeType pointerType).length = 12 := length_encodeType pointerType
        have hextra : Kind.datasec.extraSize (infoVlen t.info) = 12 * infoVlen t.info := rfl
        rw [fixType_datasec hd, encodeTypes, length_flatMap, map_replicate, hpointer,
          sum_replicate_nat, length_encodeType, hd]
        omega
      · rw [fixType_other ⟨hf, hv, hd⟩, hone]

/-- The pass keeps the length of a section. -/
theorem length_encodeTypes_fixTypes (ts : List TypeRec) :
    (encodeTypes (fixTypes ts)).length = (encodeTypes ts).length := by
  induction ts with
  | nil => rfl
  | cons t ts ih =>
    rw [fixTypes]
    split
    · rw [encodeTypes_append, encodeTypes_cons, length_append, length_append,
        length_encodeTypes_fixType, ih]
    · rfl

/-- Types before the first data section keep their number and their place. -/
theorem fixTypes_getElem? {ts : List TypeRec} {i : Nat} {t : TypeRec} (hi : ts[i]? = some t)
    (hbefore : ∀ j ≤ i, ∀ u, ts[j]? = some u → u.kind ≠ .datasec) :
    ∃ t', (fixTypes ts)[i]? = some t'
      ∧ (encodeTypes ((fixTypes ts).take i)).length = (encodeTypes (ts.take i)).length
      ∧ (t.kind ≠ .var ∧ t.kind ≠ .func → t' = t) := by
  induction ts generalizing i with
  | nil => cases hi
  | cons u us ih =>
    rw [fixTypes]
    split
    · have hu : u.kind ≠ .datasec := hbefore 0 (Nat.zero_le i) u rfl
      -- one type stands in the place of each
      obtain ⟨u', hu', hsame⟩ :
          ∃ u', fixType u = [u'] ∧ (u.kind ≠ .var ∧ u.kind ≠ .func → u' = u) := by
        by_cases hf : u.kind = .func
        · exact ⟨_, fixType_func hf, fun h => absurd hf h.2⟩
        · by_cases hv : u.kind = .var
          · exact ⟨_, fixType_var hv, fun h => absurd hv h.1⟩
          · exact ⟨_, fixType_other ⟨hf, hv, hu⟩, fun _ => rfl⟩
      have hlen : (encodeType u').length = (encodeType u).length := by
        rw [← length_encodeTypes_fixType u, hu', encodeTypes_cons, length_append]
        rfl
      rw [hu', singleton_append]
      cases i with
      | zero =>
        cases hi
        exact ⟨u', rfl, rfl, hsame⟩
      | succ i =>
        obtain ⟨t', ht', hplace, hkeep⟩ :=
          ih hi (fun j hj v hv => hbefore (j + 1) (by omega) v hv)
        refine ⟨t', ht', ?_, hkeep⟩
        rw [take_succ_cons, take_succ_cons, encodeTypes_cons, encodeTypes_cons,
          length_append, length_append, hlen, hplace]
    · exact ⟨t, hi, rfl, fun _ => rfl⟩

/-! ### What is left -/

/-- Types that are to be removed: variables, data sections and functions with a linkage. -/
def TypeRec.Removable (t : TypeRec) : Prop :=
  t.kind = .var ∨ t.kind = .datasec ∨ (t.kind = .func ∧ infoVlen t.info ≠ 0)

theorem not_removable_of_mem_fixType {t u : TypeRec} (h : u ∈ fixType t) : ¬ u.Removable := by
  unfold TypeRec.Removable
  by_cases hf : t.kind = .func
  · rw [fixType_func hf, mem_singleton] at h
    subst h
    have hvlen : infoVlen (clearVlen t hf).info = 0 := Nat.mul_mod_left _ _
    rw [hvlen]
    rintro (hk | hk | hk)
    · exact absurd hk (show ¬ Kind.func = .var by decide)
    · exact absurd hk (show ¬ Kind.func = .datasec by decide)
    · exact hk.2 rfl
  · by_cases hv : t.kind = .var
    · rw [fixType_var hv, mem_singleton] at h
      subst h
      decide
    · by_cases hd : t.kind = .datasec
      · rw [fixType_datasec hd] at h
        obtain rfl := eq_of_mem_replicate h
        decide
      · rw [fixType_other ⟨hf, hv, hd⟩, mem_singleton] at h
        subst h
        rintro (hk | hk | hk)
        · exact hv hk
        · exact hd hk
        · exact hf hk.1

/-- The pass removes what there is before the first kind that it does not understand, and
    nothing else. -/
theorem removed_iff (ts : List TypeRec) :
    (∀ t ∈ fixTypes ts, ¬ t.Removable)
      ↔ ∀ t ∈ ts.dropWhile (fun t => t.kind.understood), ¬ t.Removable := by
  induction ts with
  | nil => rfl
  | cons t ts ih =>
    rw [fixTypes]
    by_cases hk : t.kind.understood = true
    · have hdrop : (t :: ts).dropWhile (fun t => t.kind.understood)
          = ts.dropWhile (fun t => t.kind.understood) := by
        rw [dropWhile_cons, hk, if_pos rfl]
      rw [if_pos hk, hdrop, ← ih]
      constructor
      · intro h u hu
        exact h u (mem_append_right _ hu)
      · intro h u hu
        rcases mem_append.mp hu with hu | hu
        · exact not_removable_of_mem_fixType hu
        · exact h u hu
    · have hdrop : (t :: ts).dropWhile (fun t => t.kind.understood) = t :: ts := by
        rw [dropWhile_cons, if_neg hk]
      rw [if_neg hk, hdrop]

/-- What the section after the pass should be: of the same length, without the types that are to
    be removed, and with each type before the first data section under its number and in its
    place, and unchanged unless it is a variable or a function. -/
structure Sanitized (ts ts' : List TypeRec) : Prop where
  same_length : (encodeTypes ts').length = (encodeTypes ts).length
  removed : ∀ t ∈ ts', ¬ t.Removable
  kept : ∀ (i : Nat) (t : TypeRec), ts[i]? = some t →
    (∀ j ≤ i, ∀ u, ts[j]? = some u → u.kind ≠ .datasec) →
    ∃ t', ts'[i]? = some t'
      ∧ (encodeTypes (ts'.take i)).length = (encodeTypes (ts.take i)).length
      ∧ (t.kind ≠ .var ∧ t.kind ≠ .func → t' = t)

/-- **After the pass** a section is as it should be exactly if there is nothing to be removed
    behind the first kind that the pass does not understand. -/
theorem sanitized_iff (ts : List TypeRec) :
    (∃ ts', fixupBtf (encodeTypes ts) = .ok (encodeTypes ts') ∧ Sanitized ts ts')
      ↔ ∀ t ∈ ts.dropWhile (fun t => t.kind.understood), ¬ t.Removable := by
  rw [← removed_iff]
  constructor
  · rintro ⟨ts', hpass, hsan⟩
    rw [fixupBtf_encode] at hpass
    obtain rfl := encodeTypes_injective (Except.ok.inj hpass)
    exact hsan.removed
  · intro h
    exact ⟨fixTypes ts, fixupBtf_encode ts, length_encodeTypes_fixTypes ts, h,
      fun i t hi hbefore => fixTypes_getElem? hi hbefore⟩

/-- A `float` of eight bytes. -/
def floatType : TypeRec where
  nameOff := 1
  info := 16 * 2 ^ 24
  sizeOrType := 8
  extra := []
  kind := .float
  nameOff_lt := by decide
  info_lt := by decide
  sizeOrType_lt := by decide
  kind_eq := by decide
  extra_length := by decide

/-- A static variable of type 1. -/
def varType : TypeRec where
  nameOff := 7
  info := 14 * 2 ^ 24
  sizeOrType := 1
  extra := le 4 0
  kind := .var
  nameOff_lt := by decide
  info_lt := by decide
  sizeOrType_lt := by decide
  kind_eq := by decide
  extra_length := by decide

/-- A variable behind a `float` is still there. -/
theorem variable_behind_float_left :
    fixupBtf (encodeTypes [floatType, varType]) = .ok (encodeTypes [floatType, varType])
      ∧ ¬ ∃ ts', fixupBtf (encodeTypes [floatType, varType]) = .ok (encodeTypes ts')
        ∧ Sanitized [floatType, varType] ts' := by
  have hpass := fixupBtf_encode [floatType, varType]
  refine ⟨hpass, ?_⟩
  rintro ⟨ts', hpass', hsan⟩
  obtain rfl := encodeTypes_injective (Except.ok.inj hpass')
  exact hsan.removed varType (by simp) (Or.inl rfl)

end Bcc.Btf
