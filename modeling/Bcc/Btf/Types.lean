import Bcc.Bytes.Records

namespace Bcc.Btf

open Bytes CText List

/-!
# BTF — the type section

Types stand one behind the other, each a `btf_type` and what its kind adds to it.

* `fixupBtf` — overwrites kinds that bcc has no use for in their place;
* `fixupBtf_encode` — what it does to a section of types.
-/

/-! ### Type sections -/

/-- `BTF_KIND_…`. -/
inductive Kind where
  | int
  | ptr
  | array
  | struct
  | union
  | enum
  | fwd
  | typedef
  | volatile
  | const
  | restrict
  | func
  | funcProto
  | var
  | datasec
  | float
  | declTag
  | typeTag
  | enum64
  deriving DecidableEq, Repr

/-- The kind with a number; `BTF_KIND_UNKN` is none. -/
def Kind.ofNumber : Nat → Option Kind
  | 1 => some int
  | 2 => some ptr
  | 3 => some array
  | 4 => some struct
  | 5 => some union
  | 6 => some enum
  | 7 => some fwd
  | 8 => some typedef
  | 9 => some volatile
  | 10 => some const
  | 11 => some restrict
  | 12 => some func
  | 13 => some funcProto
  | 14 => some var
  | 15 => some datasec
  | 16 => some float
  | 17 => some declTag
  | 18 => some typeTag
  | 19 => some enum64
  | _ => none

/-- `BTF_INFO_KIND`. -/
def infoKind (info : Nat) : Option Kind := Kind.ofNumber (info / 2 ^ 24 % 2 ^ 5)

/-- `BTF_INFO_VLEN`. -/
def infoVlen (info : Nat) : Nat := info % 2 ^ 16

/-- How many bytes follow the `btf_type`. -/
def Kind.extraSize (k : Kind) (vlen : Nat) : Nat :=
  match k with
  | int | var | declTag => 4
  | array => 12
  | enum | funcProto => 8 * vlen
  | struct | union | datasec | enum64 => 12 * vlen
  | ptr | fwd | typedef | volatile | const | restrict | func | float | typeTag => 0

/-- A type of a section: the three numbers of a `btf_type` and the bytes behind them. -/
structure TypeRec where
  nameOff : Nat
  info : Nat
  sizeOrType : Nat
  extra : List UInt8
  kind : Kind
  nameOff_lt : nameOff < 2 ^ 32
  info_lt : info < 2 ^ 32
  sizeOrType_lt : sizeOrType < 2 ^ 32
  kind_eq : infoKind info = some kind
  extra_length : extra.length = kind.extraSize (infoVlen info)

/-- The bytes of a type. -/
def encodeType (t : TypeRec) : List UInt8 :=
  le 4 t.nameOff ++ (le 4 t.info ++ (le 4 t.sizeOrType ++ t.extra))

/-- The bytes of a section. -/
def encodeTypes (ts : List TypeRec) : List UInt8 := ts.flatMap encodeType

/-! ### The pass -/

/-- `void *`. -/
def voidPointer : List UInt8 := le 4 0 ++ (le 4 (2 * 2 ^ 24) ++ le 4 0)

/-- A type that is left as it is, with what follows it. -/
def keepType (b : List UInt8) (extra : Nat) : Res (Option (List UInt8 × List UInt8)) :=
  .ok (some (b.take (12 + extra), b.drop (12 + extra)))

/-- The cases of `fixup_btf`: what now stands in the place of the type, and what follows it; none
    for kinds that are not understood. -/
def fixupType (b : List UInt8) (info : Nat) : Res (Option (List UInt8 × List UInt8)) :=
  match infoKind info with
  | some .fwd | some .const | some .volatile | some .restrict | some .ptr | some .typedef =>
    keepType b 0
  | some .func =>
    -- `info &= ~0xffff`
    .ok (some (b.take 4 ++ (le 4 (info / 2 ^ 16 * 2 ^ 16) ++ (b.drop 8).take 4), b.drop 12))
  | some .int => keepType b 4
  | some .enum => keepType b (8 * infoVlen info)
  | some .array => keepType b 12
  | some .struct | some .union => keepType b (12 * infoVlen info)
  | some .funcProto => keepType b (8 * infoVlen info)
  | some .var =>
    if b.length < 16 then .error .outOfBounds
    else .ok (some (le 4 0 ++ (le 4 (1 * 2 ^ 24) ++ (le 4 4 ++ le 4 32)), b.drop 16))
  | some .datasec =>
    if b.length < 12 + 12 * infoVlen info then .error .outOfBounds
    else .ok (some ((List.replicate (infoVlen info + 1) voidPointer).flatten,
      b.drop (12 + 12 * infoVlen info)))
  | _ => .ok none

/-- The loop of `fixup_btf`, from a type on. -/
def fixupLoop : Nat → List UInt8 → Res (List UInt8)
  | 0, _ => .error .outOfFuel
  | n + 1, b =>
    if b = [] then .ok []
    else do
      let info ← readLE b 4 4
      match ← fixupType b info with
      | none => return b
      | some (front, back) => do
        let rest ← fixupLoop n back
        return front ++ rest

/-- `fixup_btf`. -/
def fixupBtf (b : List UInt8) : Res (List UInt8) := fixupLoop (b.length + 1) b

/-! ### What it does to types -/

/-- The kinds that the pass has a case for. -/
def Kind.understood : Kind → Bool
  | float | declTag | typeTag | enum64 => false
  | _ => true

/-- An `int` of four bytes. -/
def intType : TypeRec where
  nameOff := 0
  info := 1 * 2 ^ 24
  sizeOrType := 4
  extra := le 4 32
  kind := .int
  nameOff_lt := by decide
  info_lt := by decide
  sizeOrType_lt := by decide
  kind_eq := rfl
  extra_length := rfl

/-- `void *`. -/
def pointerType : TypeRec where
  nameOff := 0
  info := 2 * 2 ^ 24
  sizeOrType := 0
  extra := []
  kind := .ptr
  nameOff_lt := by decide
  info_lt := by decide
  sizeOrType_lt := by decide
  kind_eq := rfl
  extra_length := rfl

theorem infoKind_clear (info : Nat) : infoKind (info / 2 ^ 16 * 2 ^ 16) = infoKind info := by
  unfold infoKind
  congr 1
  omega

theorem extraSize_func (vlen : Nat) : Kind.func.extraSize vlen = 0 := rfl

/-- A function without a linkage. -/
def clearVlen (t : TypeRec) (h : t.kind = .func) : TypeRec where
  nameOff := t.nameOff
  info := t.info / 2 ^ 16 * 2 ^ 16
  sizeOrType := t.sizeOrType
  extra := t.extra
  kind := .func
  nameOff_lt := t.nameOff_lt
  info_lt := by
    have hlt := t.info_lt
    omega
  sizeOrType_lt := t.sizeOrType_lt
  kind_eq := by rw [infoKind_clear, t.kind_eq, h]
  extra_length := by rw [t.extra_length, h, extraSize_func, extraSize_func]

/-- The types that stand in the place of one. -/
def fixType (t : TypeRec) : List TypeRec :=
  if h : t.kind = .func then [clearVlen t h]
  else if t.kind = .var then [intType]
  else if t.kind = .datasec then List.replicate (infoVlen t.info + 1) pointerType
  else [t]

theorem fixType_func {t : TypeRec} (h : t.kind = .func) : fixType t = [clearVlen t h] := dif_pos h

theorem fixType_var {t : TypeRec} (h : t.kind = .var) : fixType t = [intType] := by
  unfold fixType
  rw [dif_neg (by rw [h]; decide), if_pos h]

theorem fixType_datasec {t : TypeRec} (h : t.kind = .datasec) :
    fixType t = List.replicate (infoVlen t.info + 1) pointerType := by
  unfold fixType
  rw [dif_neg (by rw [h]; decide), if_neg (by rw [h]; decide), if_pos h]

theorem fixType_other {t : TypeRec} (h : t.kind ≠ .func ∧ t.kind ≠ .var ∧ t.kind ≠ .datasec) :
    fixType t = [t] := by
  unfold fixType
  rw [dif_neg h.1, if_neg h.2.1, if_neg h.2.2]

/-- The types after the pass, which ends at a kind that is not understood. -/
def fixTypes : List TypeRec → List TypeRec
  | [] => []
  | t :: ts => if t.kind.understood then fixType t ++ fixTypes ts else t :: ts

/-! ### The pass on sections -/

variable (t : TypeRec)

theorem length_encodeType : (encodeType t).length = 12 + t.kind.extraSize (infoVlen t.info) := by
  simp only [encodeType, length_append, length_le, t.extra_length]
  omega

theorem encodeTypes_cons (ts : List TypeRec) :
    encodeTypes (t :: ts) = encodeType t ++ encodeTypes ts := flatMap_cons

theorem encodeTypes_append (ts us : List TypeRec) :
    encodeTypes (ts ++ us) = encodeTypes ts ++ encodeTypes us := flatMap_append

variable (rest : List UInt8)

theorem readLE_info : readLE (encodeType t ++ rest) 4 4 = .ok t.info := by
  have hat : At (encodeType t ++ rest) 0 (encodeType t) := prefix_append _ _
  rw [encodeType, at_append, at_append] at hat
  exact hat.2.1.readLE (by decide) t.info_lt

/-- A type that is kept. -/
theorem keepType_encode :
    keepType (encodeType t ++ rest) (t.kind.extraSize (infoVlen t.info))
      = .ok (some (encodeType t, rest)) := by
  unfold keepType
  rw [← length_encodeType, take_left, drop_left]

/-- The case of functions clears the low half of `info`. -/
theorem encodeType_clearVlen (h : t.kind = .func) (rest : List UInt8) :
    (encodeType t ++ rest).take 4 ++ (le 4 (t.info / 2 ^ 16 * 2 ^ 16)
      ++ ((encodeType t ++ rest).drop 8).take 4) = encodeType (clearVlen t h) := by
  have hextra : t.extra = [] := eq_nil_of_length_eq_zero (by rw [t.extra_length, h]; rfl)
  have hbytes : encodeType t ++ rest
      = le 4 t.nameOff ++ (le 4 t.info ++ (le 4 t.sizeOrType ++ rest)) := by
    rw [encodeType, hextra, append_nil, append_assoc, append_assoc]
  rw [hbytes, encodeType, show (clearVlen t h).extra = [] from hextra]
  rfl

/-- **One type.**  The case of a kind that is understood writes the bytes of the types that stand
    in its place. -/
theorem fixupType_encode (h : t.kind.understood = true) :
    fixupType (encodeType t ++ rest) t.info = .ok (some (encodeTypes (fixType t), rest)) := by
  have hlen := length_encodeType t
  have hkeep := keepType_encode t rest
  have hone : ∀ u, encodeTypes [u] = encodeType u := fun u => append_nil _
  have hother : t.kind ≠ .func ∧ t.kind ≠ .var ∧ t.kind ≠ .datasec →
      keepType (encodeType t ++ rest) (t.kind.extraSize (infoVlen t.info))
        = .ok (some (encodeTypes (fixType t), rest)) := by
    intro hk
    rw [hkeep, fixType_other hk, hone]
  unfold fixupType
  rw [t.kind_eq]
  cases hk : t.kind <;> rw [hk] at h hother hlen
  case func =>
    have hdrop : (encodeType t ++ rest).drop 12 = rest := drop_left' hlen
    rw [encodeType_clearVlen t hk, hdrop, fixType_func hk, hone]
  case var =>
    have hdrop : (encodeType t ++ rest).drop 16 = rest := drop_left' hlen
    have hin : ¬ (encodeType t ++ rest).length < 16 := by
      rw [length_append, hlen]
      show ¬ 16 + rest.length < 16
      omega
    rw [if_neg hin, hdrop, fixType_var hk]
    rfl
  case datasec =>
    have hdrop : (encodeType t ++ rest).drop (12 + 12 * infoVlen t.info) = rest :=
      drop_left' hlen
    have hin : ¬ (encodeType t ++ rest).length < 12 + 12 * infoVlen t.info := by
      rw [length_append, hlen]
      show ¬ 12 + 12 * infoVlen t.info + rest.length < 12 + 12 * infoVlen t.info
      omega
    have hpointers : encodeTypes (List.replicate (infoVlen t.info + 1) pointerType)
        = (List.replicate (infoVlen t.info + 1) voidPointer).flatten := by
      rw [encodeTypes, flatMap_def, map_replicate]
      rfl
    rw [if_neg hin, hdrop, fixType_datasec hk, hpointers]
  -- the other kinds are kept, or are not understood
  all_goals first
    | exact absurd h (by decide)
    | exact hother (by decide)

/-- A kind that is not understood. -/
theorem fixupType_none (b : List UInt8) (h : t.kind.understood = false) :
    fixupType b t.info = .ok none := by
  unfold fixupType
  rw [t.kind_eq]
  cases hk : t.kind
  case float => rfl
  case declTag => rfl
  case typeTag => rfl
  case enum64 => rfl
  all_goals
    rw [hk] at h
    cases h

/-- The loop writes the bytes of `fixTypes`. -/
theorem fixupLoop_encode {n : Nat} {ts : List TypeRec} (hn : (encodeTypes ts).length < n) :
    fixupLoop n (encodeTypes ts) = .ok (encodeTypes (fixTypes ts)) := by
  induction ts generalizing n with
  | nil =>
    obtain ⟨n, rfl⟩ := Nat.exists_eq_add_of_lt hn
    rfl
  | cons t ts ih =>
    have hlen := length_encodeType t
    rw [encodeTypes_cons] at hn ⊢
    rw [length_append] at hn
    obtain ⟨n, rfl⟩ := Nat.exists_eq_add_of_lt (Nat.zero_lt_of_lt hn)
    rw [fixupLoop, readLE_info, ok_bind, fixTypes]
    by_cases hk : t.kind.understood = true
    · rw [if_pos hk, fixupType_encode t _ hk, ok_bind]
      dsimp only
      rw [ih (by omega), encodeTypes_append]
      rfl
    · rw [if_neg hk, fixupType_none t _ (Bool.eq_false_iff.mpr hk)]
      rfl

/-- **The pass** writes the bytes of `fixTypes`. -/
theorem fixupBtf_encode (ts : List TypeRec) :
    fixupBtf (encodeTypes ts) = .ok (encodeTypes (fixTypes ts)) :=
  fixupLoop_encode (Nat.lt_succ_self _)

end Bcc.Btf
