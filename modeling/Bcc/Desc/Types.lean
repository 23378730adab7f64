import Bcc.Ctypes.Layout

namespace Bcc.Desc

/-!
# Descriptions of keys and leaves — C types

* `Ty` — the C types of keys and leaves without bit-fields and flexible arrays;
* `Ty.Laid` — the layout that clang has computed for the records, whatever their attributes.
-/

/-- The integer types of C. -/
inductive IntKind where
  | bool
  | char
  | signedChar
  | unsignedChar
  | short
  | unsignedShort
  | int
  | unsignedInt
  | long
  | unsignedLong
  | longLong
  | unsignedLongLong
  | int128
  | unsignedInt128
  deriving DecidableEq, Repr

namespace IntKind

/-- `BuiltinType::getName` -/
def name : IntKind → String
  | .bool => "_Bool"
  | .char => "char"
  | .signedChar => "signed char"
  | .unsignedChar => "unsigned char"
  | .short => "short"
  | .unsignedShort => "unsigned short"
  | .int => "int"
  | .unsignedInt => "unsigned int"
  | .long => "long"
  | .unsignedLong => "unsigned long"
  | .longLong => "long long"
  | .unsignedLongLong => "unsigned long long"
  | .int128 => "__int128"
  | .unsignedInt128 => "unsigned __int128"

/-- The size on a 64-bit host. -/
def size : IntKind → Nat
  | .bool | .char | .signedChar | .unsignedChar => 1
  | .short | .unsignedShort => 2
  | .int | .unsignedInt => 4
  | .long | .unsignedLong | .longLong | .unsignedLongLong => 8
  | .int128 | .unsignedInt128 => 16

end IntKind

mutual

/-- A C type.  A record has the size that clang has computed, and so have its fields their
    offsets. -/
inductive Ty where
  | int (kind : IntKind)
  | enum (kind : IntKind)
  | pointer
  | array (elem : Ty) (n : Nat)
  | typedef (ty : Ty)
  | record (union : Bool) (name : String) (fields : Fields) (size : Nat)

/-- The fields of a record; one without a name is an anonymous struct or union. -/
inductive Fields where
  | nil
  | cons (name : Option String) (offset : Nat) (ty : Ty) (fields : Fields)

end

/-- `getTypeSizeInChars` -/
def Ty.size : Ty → Nat
  | .int kind => kind.size
  | .enum kind => kind.size
  | .pointer => 8
  | .array elem n => n * elem.size
  | .typedef ty => ty.size
  | .record _ _ _ size => size

/-- The type is that of a struct or union without a tag. -/
def Ty.isUntagged : Ty → Bool
  | .record _ name _ _ => name == ""
  | _ => false

namespace Fields

/-- A property of the types of the fields. -/
def All (P : Ty → Prop) : Fields → Prop
  | .nil => True
  | .cons _ _ ty fields => P ty ∧ fields.All P

/-- `field_empty` -/
def isEmpty : Fields → Bool
  | .nil => true
  | .cons _ _ _ _ => false

/-- The offset of the first field. -/
def first : Fields → Nat
  | .nil => 0
  | .cons _ offset _ _ => offset

/-- Where the next field can be at the least. -/
def next (union : Bool) (offset size : Nat) : Nat := if union then 0 else offset + size

end Fields

mutual

/-- The layout of the records in the type is one for C: the first field is at the start; the fields
    of a struct are behind each other, those of a union all at the start; and they are inside. -/
def Ty.Laid : Ty → Prop
  | .int _ => True
  | .enum _ => True
  | .pointer => True
  | .array elem _ => elem.Laid
  | .typedef ty => ty.Laid
  | .record union _ fields size =>
    fields.first = 0 ∧ (fields.isEmpty = true → size = 0) ∧ fields.Laid union size 0

def Fields.Laid (union : Bool) (size : Nat) : Nat → Fields → Prop
  | pos, .nil => pos ≤ size
  | pos, .cons name offset ty fields =>
    ty.Laid ∧ (name = none → ty.isUntagged = true)
      ∧ (if union then offset = 0 else pos ≤ offset) ∧ offset + ty.size ≤ size
      ∧ fields.Laid union size (Fields.next union offset ty.size)

end

/-- Induction on a type, with the hypothesis for every field of a record. -/
theorem Ty.fields_induction {P : Ty → Prop} (int : ∀ kind, P (.int kind))
    (enum : ∀ kind, P (.enum kind)) (pointer : P .pointer)
    (array : ∀ elem n, P elem → P (.array elem n)) (typedef : ∀ ty, P ty → P (.typedef ty))
    (record : ∀ union name fields size, fields.All P → P (.record union name fields size))
    (ty : Ty) : P ty :=
  @Ty.rec P (fun fields => fields.All P) int enum pointer array typedef record trivial
    (fun _ _ _ _ hty hfields => ⟨hty, hfields⟩) ty

end Bcc.Desc
