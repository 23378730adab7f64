import Bcc.Desc.Agrees

namespace Bcc.Desc

open CLayout

/-!
# Descriptions of keys and leaves — the layout of the ctypes class

* `sameLayout_iff` — the class that is decoded from the description of a type has the layout of the
  type exactly if the type is known and flat.
-/

/-! ### The class of a type -/

/-- The class that the description gives has the layout of the type exactly if it is flat; so has
    the class of a field. -/
def Ty.AgreesIff (ty : Ty) : Prop :=
  ty.Laid → (ty.Agrees ty.py ↔ ty.Flat) ∧ (ty.Agrees (fieldPy ty ty.py) ↔ ty.FlatField)

theorem not_agrees_array (elem : Ty) (n : Nat) : ¬ (Ty.array elem n).Agrees elem.py := by
  rintro ⟨py, hpy, hsize, -⟩
  obtain ⟨rfl, hpySize, k, hk⟩ := py_eq_array elem hpy
  omega

theorem agrees_field_array {elem : Ty} {n : Nat} (h : elem.Agrees elem.py ↔ elem.Flat) :
    (Ty.array elem n).Agrees (.array elem.py n) ↔ (0 < n → elem.Flat) := by
  constructor
  · rintro ⟨py, hpy, -, helem⟩ hn
    obtain rfl : elem.py = py := (Ctypes.Ty.array.inj hpy).1
    exact h.mp (helem hn)
  · intro hflat
    refine ⟨elem.py, rfl, ?_, fun hn => h.mpr (hflat hn)⟩
    rcases Nat.eq_zero_or_pos n with rfl | hn
    · rw [Nat.zero_mul, Nat.zero_mul]
    · rw [size_of_agrees elem (h.mpr (hflat hn))]

/-! ### Unions -/

/-- The fields of a union are at the start, in C and in ctypes. -/
theorem agrees_union (size : Nat) : ∀ (fields : Fields) (anon : List String) (pos : Nat),
    fields.All Ty.AgreesIff → fields.Laid true size 0 →
    (fields.Agrees (fields.anon anon) true 0 ((fields.py anon).place true false pos) ↔ fields.Flat)
  | .nil, _, _, _, _ => Iff.rfl
  | .cons name offset ty fields, anon, pos, hall, hlaid => by
    obtain ⟨htyLaid, -, rfl, -, hlaid⟩ := hlaid
    rw [flat_cons, ← (hall.1 htyLaid).2, ← agrees_union size fields (anonAfter anon name)
      (Ctypes.next true false pos (fieldPy ty ty.py).align (fieldPy ty ty.py).size) hall.2 hlaid]
    constructor
    · rintro ⟨entry, py, rest, hentries, -, hty, hrest⟩
      obtain ⟨hentry, rfl⟩ := List.cons.inj hentries
      cases (Prod.mk.inj hentry).2
      exact ⟨hty, hrest⟩
    · rintro ⟨hty, hrest⟩
      exact ⟨_, _, _, rfl, named_field anon name fields, hty, hrest⟩

/-- The size of a union, before it is rounded up. -/
theorem extent_union (size : Nat) : ∀ (fields : Fields) (anon : List String) (pos : Nat),
    fields.All Ty.AgreesIff → fields.Laid true size 0 → fields.Flat →
    (fields.py anon).extent true false pos = max pos fields.widest
  | .nil, _, pos, _, _, _ => (Nat.max_eq_left (Nat.zero_le pos)).symm
  | .cons name offset ty fields, anon, pos, hall, hlaid, hflat => by
    obtain ⟨htyLaid, -, -, -, hlaid⟩ := hlaid
    obtain ⟨hty, hflat⟩ := (flat_cons name offset ty fields).mp hflat
    have hsize := size_of_agrees ty ((hall.1 htyLaid).2.mpr hty)
    rw [Fields.py, Ctypes.Fields.extent, extent_union size fields _ _ hall.2 hlaid hflat, hsize]
    show max (max pos ty.size) fields.widest = max pos (max ty.size fields.widest)
    rw [Nat.max_assoc]

/-! ### Structs -/

/-- The entry for a field is behind the one for the padding, if there is any. -/
theorem place_padded (size : Nat) (anon : List String) {pos : Nat} (index : Nat)
    (name : Option String) {offset : Nat} (ty : Ty) (fields : Fields) (h : pos ≤ offset) :
    (if pos < offset then
        (((Fields.cons name offset ty fields).pyPadded size anon pos index).place
          false true pos).tail
      else
        ((Fields.cons name offset ty fields).pyPadded size anon pos index).place false true pos)
      = (fieldName anon name, offset, fieldPy ty ty.py)
        :: (fields.pyPadded size (anonAfter anon name) (offset + ty.size) (index + 1)).place
          false true (offset + (fieldPy ty ty.py).size)
    ∧ ((Fields.cons name offset ty fields).pyPadded size anon pos index).extent false true pos
      = (fields.pyPadded size (anonAfter anon name) (offset + ty.size) (index + 1)).extent
          false true (offset + (fieldPy ty ty.py).size) := by
  rw [Fields.pyPadded]
  rcases Nat.eq_or_lt_of_le h with rfl | hlt
  · rw [if_neg (Nat.lt_irrefl pos), if_pos (Nat.sub_self pos), Ctypes.Fields.place,
      Ctypes.Fields.extent, Ctypes.offset_pack, Ctypes.next_pack]
    exact ⟨rfl, rfl⟩
  · have hpad : pos + (Ctypes.Ty.array (.simple 1 1) (offset - pos)).size = offset := by
      show pos + (offset - pos) * 1 = offset
      omega
    rw [if_pos hlt, if_neg (by omega), Ctypes.Fields.place, Ctypes.Fields.extent, Ctypes.next_pack,
      hpad, List.tail_cons, Ctypes.Fields.place, Ctypes.Fields.extent, Ctypes.offset_pack,
      Ctypes.next_pack]
    exact ⟨rfl, rfl⟩

/-- The fields of a struct are at their offsets, and end at its size, exactly if they are flat: a
    field of another size moves the next one, or the end. -/
theorem agrees_struct (size : Nat) : ∀ (fields : Fields) (anon : List String) (pos index : Nat),
    fields.All Ty.AgreesIff → fields.Laid false size pos →
    ((fields.pyPadded size anon pos index).extent false true pos = size
      ∧ fields.Agrees (fields.anon anon) false pos
        ((fields.pyPadded size anon pos index).place false true pos) ↔ fields.Flat)
  | .nil, anon, pos, index, _, hlaid => by
    have hextent : (Fields.nil.pyPadded size anon pos index).extent false true pos = size := by
      have hle : pos ≤ size := hlaid
      rw [Fields.pyPadded]
      split
      · rw [Ctypes.Fields.extent, Ctypes.next_pack]
        show pos + (size - pos) * 1 = size
        omega
      · show pos = size
        omega
    exact iff_of_true ⟨hextent, trivial⟩ trivial
  | .cons name offset ty fields, anon, pos, index, hall, hlaid => by
    obtain ⟨htyLaid, -, hoffset, -, hlaid⟩ := hlaid
    obtain ⟨hplace, hextent⟩ := place_padded size anon index name ty fields hoffset
    have ih := agrees_struct size fields (anonAfter anon name) (offset + ty.size) (index + 1) hall.2
      hlaid
    rw [flat_cons, ← (hall.1 htyLaid).2, hextent]
    constructor
    · rintro ⟨hsize, entry, py, rest, hentries, -, hty, hrest⟩
      obtain ⟨hentry, rfl⟩ := List.cons.inj (hplace.symm.trans hentries)
      cases (Prod.mk.inj hentry).2
      refine ⟨hty, ih.mp ?_⟩
      rw [size_of_agrees ty hty] at hsize hrest
      exact ⟨hsize, hrest⟩
    · rintro ⟨hty, hflat⟩
      obtain ⟨hsize, hrest⟩ := ih.mpr hflat
      rw [size_of_agrees ty hty] at hplace ⊢
      exact ⟨hsize, _, _, _, hplace, named_field anon name fields, hty, hrest⟩

/-! ### All types -/

theorem agrees_record_union {name : String} {fields : Fields} {size : Nat}
    (hall : fields.All Ty.AgreesIff) (hlaid : (Ty.record true name fields size).Laid) :
    (Ty.record true name fields size).Agrees (Ty.record true name fields size).py
      ↔ (Ty.record true name fields size).Flat := by
  obtain ⟨-, -, hlaid⟩ := hlaid
  have hfields := agrees_union size fields [] 0 hall hlaid
  have hsize : fields.Flat →
      (Ty.record true name fields size).py.size = roundUp fields.widest fields.natural := by
    intro hflat
    show roundUp ((fields.py []).extent true false 0) ((fields.py []).align false) = _
    rw [extent_union size fields [] 0 hall hlaid hflat]
    exact congrArg _ (align_py (.record true name fields size))
  constructor
  · rintro ⟨hpySize, pack, anon, pyFields, hpy, hagrees⟩
    obtain ⟨-, rfl, rfl, rfl⟩ := Ctypes.Ty.record.inj hpy
    have hflat := hfields.mp hagrees
    exact ⟨hflat, fun _ => hpySize.symm.trans (hsize hflat)⟩
  · rintro ⟨hflat, hnatural⟩
    exact ⟨(hsize hflat).trans (hnatural rfl).symm, _, _, _, rfl, hfields.mpr hflat⟩

theorem agrees_record_struct {name : String} {fields : Fields} {size : Nat}
    (hall : fields.All Ty.AgreesIff) (hlaid : (Ty.record false name fields size).Laid) :
    (Ty.record false name fields size).Agrees (Ty.record false name fields size).py
      ↔ (Ty.record false name fields size).Flat := by
  obtain ⟨hfirst, hempty, hlaid⟩ := hlaid
  have hflat : (Ty.record false name fields size).Flat ↔ fields.Flat :=
    and_iff_left fun h => Bool.noConfusion h
  rw [hflat]
  cases fields with
  | nil =>
    have hsize : (Ty.record false name .nil size).py.size = 0 := by
      show roundUp 0 1 = 0
      exact roundUp_of_dvd (Nat.one_dvd 0)
    exact iff_of_true ⟨hsize.trans (hempty rfl).symm, _, _, _, rfl, trivial⟩ trivial
  | cons fieldName offset ty rest =>
    have hfields := agrees_struct size (.cons fieldName offset ty rest) [] 0 0 hall hlaid
    generalize hcons : Fields.cons fieldName offset ty rest = fields at hfirst hfields
    have hpy : (Ty.record false name fields size).py
        = .record false true (fields.anon []) (fields.pyPadded size [] 0 0) := by
      rw [← hcons]
      show Ctypes.Ty.record false true _ (Fields.pyPadded size [] (Fields.first _) 0 _) = _
      rw [hcons, hfirst]
    have hpySize : (Ty.record false name fields size).py.size
        = (fields.pyPadded size [] 0 0).extent false true 0 := by
      rw [hpy, Ctypes.Ty.size, Ctypes.align_pack, roundUp_of_dvd (Nat.one_dvd _)]
    rw [← hfields, ← hpySize]
    refine and_congr_right fun _ => ?_
    constructor
    · rintro ⟨pack, anon, pyFields, hpy', hagrees⟩
      obtain ⟨-, rfl, rfl, rfl⟩ := Ctypes.Ty.record.inj (hpy.symm.trans hpy')
      exact hagrees
    · intro hagrees
      exact ⟨_, _, _, hpy, hagrees⟩

theorem agreesIff (ty : Ty) : ty.AgreesIff := by
  induction ty using Ty.fields_induction with
  | int kind | enum kind =>
    have hsize : kind.py.size = kind.size := by cases kind <;> rfl
    exact fun _ => ⟨iff_of_true hsize trivial, iff_of_true hsize trivial⟩
  | pointer => exact fun _ => ⟨iff_of_true rfl trivial, iff_of_true rfl trivial⟩
  | array elem n ih =>
    intro hlaid
    exact ⟨iff_of_false (not_agrees_array elem n) id, agrees_field_array (ih hlaid).1⟩
  | typedef ty ih =>
    intro hlaid
    exact ⟨(ih hlaid).1, (ih hlaid).1⟩
  | record union name fields size hall =>
    intro hlaid
    cases union with
    | true => exact ⟨agrees_record_union hall hlaid, agrees_record_union hall hlaid⟩
    | false => exact ⟨agrees_record_struct hall hlaid, agrees_record_struct hall hlaid⟩

/-- **Descriptions.**  The class that is decoded from the description of a type has the layout of
    the type exactly if the type is flat, and there is no `signed char` in it. -/
theorem sameLayout_iff (ty : Ty) (hlaid : ty.Laid) : SameLayout ty ↔ ty.Known ∧ ty.Flat := by
  rw [← (agreesIff ty hlaid).1]
  constructor
  · rintro ⟨py, hpy, hagrees⟩
    obtain ⟨hknown, rfl⟩ := (decode_json ty hlaid).eq_ok_iff.mp hpy
    exact ⟨hknown, hagrees⟩
  · rintro ⟨hknown, hagrees⟩
    exact ⟨ty.py, (decode_json ty hlaid).eq_ok_iff.mpr ⟨hknown, rfl⟩, hagrees⟩

/-- `struct key_t`, with `u32` and `u8`: structs that are padded, for `__int128` in one that is
    anonymous. -/
def paddedKey : Ty :=
  .record false "key_t"
    (.cons (some "f1_1") 0 (.typedef (.int .unsignedInt))
    (.cons none 16 (.record false ""
      (.cons (some "f2_1") 0 (.int .char) (.cons (some "f2_2") 16 (.int .int128) .nil)) 32)
    (.cons (some "f1_3") 48 (.typedef (.int .unsignedChar))
    (.cons (some "f1_4") 64 (.int .unsignedInt128)
    (.cons (some "f1_5") 80 (.int .char) .nil))))) 96

theorem sameLayout_paddedKey : paddedKey.Laid ∧ SameLayout paddedKey := by
  have hlaid : paddedKey.Laid := by
    simp [paddedKey, Ty.Laid, Fields.Laid, Fields.first, Fields.isEmpty, Fields.next, Ty.size,
      IntKind.size, Ty.isUntagged]
  have hknown : paddedKey.Known := by
    simp [paddedKey, Ty.Known, Fields.Known, IntKind.Known]
  have hflat : paddedKey.Flat := by
    simp [paddedKey, Ty.Flat, Fields.Flat]
  exact ⟨hlaid, (sameLayout_iff paddedKey hlaid).mpr ⟨hknown, hflat⟩⟩

/-- `struct { int a[2][3]; int b; }` -/
def matrixKey : Ty :=
  .record false "key_t"
    (.cons (some "a") 0 (.array (.array (.int .int) 3) 2) (.cons (some "b") 24 (.int .int) .nil)) 28

/-- Of an array of arrays only the first bound is described: the class has 12 bytes where the struct
    has 28, and `b` at 8 where it is at 24. -/
theorem not_sameLayout_matrixKey :
    matrixKey.Laid ∧ ¬ SameLayout matrixKey
      ∧ ∃ anon pyFields, decode matrixKey.json = .ok (.record false true anon pyFields)
        ∧ (Ctypes.Ty.record false true anon pyFields).size = 12
        ∧ (pyFields.place false true 0).map (fun e => (e.1, e.2.1)) = [("a", 0), ("b", 8)] := by
  have hlaid : matrixKey.Laid := by
    simp [matrixKey, Ty.Laid, Fields.Laid, Fields.first, Fields.isEmpty, Fields.next, Ty.size,
      IntKind.size]
  have hdecode : decode matrixKey.json = .ok (.record false true []
      (.cons "a" (.array (.simple 4 4) 2) (.cons "b" (.simple 4 4) .nil))) := rfl
  refine ⟨hlaid, ?_, _, _, hdecode, by decide, by decide⟩
  rintro ⟨py, hpy, hagrees⟩
  cases hdecode.symm.trans hpy
  exact absurd (size_of_agrees matrixKey hagrees) (by decide)

end Bcc.Desc
