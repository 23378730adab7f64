import Bcc.Desc.Decode

namespace Bcc.Desc

open CLayout

/-!
# Descriptions of keys and leaves — classes with the layout of a type

* `Ty.Agrees` — a class has the layout of a type: its size, and its fields and elements at the same
  offsets;
* `Ty.Flat` — what a description says enough of: arrays are types of fields, written there and of
  one dimension, and unions have their natural size.
-/

/-! ### Classes with the layout of a type -/

/-- The entry has the name of the field, or is anonymous as the field is. -/
def named (anon : List String) (name : Option String) (entry : String) : Prop :=
  match name with
  | none => entry ∈ anon
  | some name => entry = name

mutual

/-- **The class has the layout of the type.**  The sizes are the same, and so are the offsets of the
    fields and elements, at any depth. -/
def Ty.Agrees : Ty → Ctypes.Ty → Prop
  | .int kind, py => py.size = kind.size
  | .enum kind, py => py.size = kind.size
  | .pointer, py => py.size = 8
  | .array elem n, py =>
    ∃ py', py = .array py' n ∧ n * py'.size = n * elem.size ∧ (0 < n → elem.Agrees py')
  | .typedef ty, py => ty.Agrees py
  | .record union _ fields size, py =>
    py.size = size ∧ ∃ pack anon pyFields, py = .record union pack anon pyFields
      ∧ fields.Agrees anon union 0 (pyFields.place union pack 0)

/-- The entries of a class are those of the fields from `pos` on, with one more wherever there is a
    gap before a field. -/
def Fields.Agrees (anon : List String) (union : Bool) :
    Nat → Fields → List (String × Nat × Ctypes.Ty) → Prop
  | _, .nil, _ => True
  | pos, .cons name offset ty fields, entries =>
    ∃ entry py rest, (if pos < offset then entries.tail else entries) = (entry, offset, py) :: rest
      ∧ named anon name entry ∧ ty.Agrees py
      ∧ fields.Agrees anon union (Fields.next union offset ty.size) rest

end

/-- The class that is decoded from the description of the type has the layout of the type. -/
def SameLayout (ty : Ty) : Prop := ∃ py, decode ty.json = .ok py ∧ ty.Agrees py

/-! ### Flat types -/

/-- The alignment that ctypes gives an integer: `__int128` is an array of two. -/
def IntKind.natural (kind : IntKind) : Nat := min kind.size 8

mutual

/-- The alignment that ctypes gives the class of a type: a struct is packed. -/
def Ty.natural : Ty → Nat
  | .int kind => kind.natural
  | .enum kind => kind.natural
  | .pointer => 8
  | .array elem _ => elem.natural
  | .typedef ty => ty.natural
  | .record union _ fields _ => if union then fields.natural else 1

/-- The largest of them. -/
def Fields.natural : Fields → Nat
  | .nil => 1
  | .cons _ _ ty fields => max ty.natural fields.natural

end

/-- The size of the largest field. -/
def Fields.widest : Fields → Nat
  | .nil => 0
  | .cons _ _ ty fields => max ty.size fields.widest

mutual

/-- The type is no array, and in it an array is the type of a field, written there, and of one
    dimension, and a union has the size that the alignments of its fields give. -/
def Ty.Flat : Ty → Prop
  | .int _ => True
  | .enum _ => True
  | .pointer => True
  | .array _ _ => False
  | .typedef ty => ty.Flat
  | .record union _ fields size =>
    fields.Flat ∧ (union = true → size = roundUp fields.widest fields.natural)

/-- Below an array without elements nothing matters. -/
def Fields.Flat : Fields → Prop
  | .nil => True
  | .cons _ _ (.array elem n) fields => (0 < n → elem.Flat) ∧ fields.Flat
  | .cons _ _ ty fields => ty.Flat ∧ fields.Flat

end

/-- What `Fields.Flat` says of a field. -/
def Ty.FlatField : Ty → Prop
  | .array elem n => 0 < n → elem.Flat
  | ty => ty.Flat

theorem flat_cons (name : Option String) (offset : Nat) (ty : Ty) (fields : Fields) :
    (Fields.cons name offset ty fields).Flat ↔ ty.FlatField ∧ fields.Flat := by
  cases ty <;> rfl

/-! ### Alignments -/

theorem align_fieldPy (ty : Ty) (py : Ctypes.Ty) : (fieldPy ty py).align = py.align := by
  cases ty <;> rfl

theorem align_fields : ∀ (fields : Fields) (anon : List String),
    fields.All (fun ty => ty.py.align = ty.natural) → (fields.py anon).align false = fields.natural
  | .nil, _, _ => rfl
  | .cons name offset ty fields, anon, hall => by
    rw [Fields.py, Ctypes.Fields.align, align_fields fields _ hall.2, align_fieldPy, hall.1]
    rfl

theorem align_py (ty : Ty) : ty.py.align = ty.natural := by
  induction ty using Ty.fields_induction with
  | int kind | enum kind => cases kind <;> rfl
  | pointer => rfl
  | array elem n ih => exact ih
  | typedef ty ih => exact ih
  | record union name fields size hall =>
    cases union with
    | true => exact align_fields fields [] hall
    | false =>
      cases fields with
      | nil => rfl
      | cons name offset ty fields => exact Ctypes.align_pack _

/-! ### Names and sizes -/

theorem mem_anon : ∀ (fields : Fields) {anon : List String} {name : String}, name ∈ anon →
    name ∈ fields.anon anon
  | .nil, _, _, h => h
  | .cons none _ _ fields, _, _, h => mem_anon fields (List.mem_append_left _ h)
  | .cons (some _) _ _ fields, _, _, h => mem_anon fields h

/-- The entry for a field has its name. -/
theorem named_field (anon : List String) (name : Option String) (fields : Fields) :
    named (fields.anon (anonAfter anon name)) name (fieldName anon name) := by
  cases name with
  | none => exact mem_anon fields (List.mem_append_right _ (List.mem_singleton_self _))
  | some name => rfl

theorem size_of_agrees : ∀ (ty : Ty) {py : Ctypes.Ty}, ty.Agrees py → py.size = ty.size
  | .int _, _, h => h
  | .enum _, _, h => h
  | .pointer, _, h => h
  | .array _ _, _, ⟨_, rfl, hsize, _⟩ => hsize
  | .typedef ty, _, h => size_of_agrees ty h
  | .record _ _ _ _, _, h => h.1

/-- A class that is an array, for a type that is not one to ctypes, is that of `__int128`. -/
theorem py_eq_array (ty : Ty) {py : Ctypes.Ty} {n : Nat} (h : ty.py = .array py n) :
    n = 2 ∧ py.size = 8 ∧ 16 ∣ ty.size := by
  induction ty using Ty.fields_induction with
  | int kind | enum kind =>
    cases kind <;> cases h
    all_goals exact ⟨rfl, rfl, ⟨1, rfl⟩⟩
  | pointer => cases h
  | array elem m ih =>
    obtain ⟨hn, hsize, hdvd⟩ := ih h
    exact ⟨hn, hsize, Nat.dvd_mul_left_of_dvd hdvd m⟩
  | typedef ty ih => exact ih h
  | record union name fields size hall => cases h

end Bcc.Desc
