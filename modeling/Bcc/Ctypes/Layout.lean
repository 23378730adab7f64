import Bcc.Layout.Struct

namespace Ctypes

open CLayout

/-!
# Python's ctypes — sizes and offsets

* `Ty.size`, `Fields.place` — structures place their fields one after the other, each at the next
  offset that its alignment allows, or right behind the one before with `_pack_ = 1`; unions place
  all of them at the start.
-/

mutual

/-- A type of ctypes; a structure or union has `_anonymous_` and `_fields_`. -/
inductive Ty where
  | simple (size align : Nat)
  | array (elem : Ty) (n : Nat)
  | record (union pack : Bool) (anon : List String) (fields : Fields)

/-- `_fields_` -/
inductive Fields where
  | nil
  | cons (name : String) (ty : Ty) (fields : Fields)

end

/-- The offset of a field that is due at `pos`. -/
def offset (union pack : Bool) (pos align : Nat) : Nat :=
  if union then 0 else roundUp pos (if pack then 1 else align)

/-- Where the next field is due, or for a union the size so far. -/
def next (union pack : Bool) (pos align size : Nat) : Nat :=
  if union then max pos size else offset union pack pos align + size

mutual

/-- `ctypes.alignment` -/
def Ty.align : Ty → Nat
  | .simple _ align => align
  | .array elem _ => elem.align
  | .record _ pack _ fields => fields.align pack

/-- The alignment of a structure or union with the fields. -/
def Fields.align (pack : Bool) : Fields → Nat
  | .nil => 1
  | .cons _ ty fields => max (if pack then 1 else ty.align) (fields.align pack)

end

mutual

/-- `ctypes.sizeof` -/
def Ty.size : Ty → Nat
  | .simple size _ => size
  | .array elem n => n * elem.size
  | .record union pack _ fields => roundUp (fields.extent union pack 0) (fields.align pack)

/-- The offset behind the last field, or the size of the largest one of a union. -/
def Fields.extent (union pack : Bool) : Nat → Fields → Nat
  | pos, .nil => pos
  | pos, .cons _ ty fields => fields.extent union pack (next union pack pos ty.align ty.size)

end

/-- The fields with their offsets. -/
def Fields.place (union pack : Bool) : Nat → Fields → List (String × Nat × Ty)
  | _, .nil => []
  | pos, .cons name ty fields =>
    (name, offset union pack pos ty.align, ty)
      :: fields.place union pack (next union pack pos ty.align ty.size)

theorem align_pack (fields : Fields) : fields.align true = 1 := by
  match fields with
  | .nil => rfl
  | .cons name ty fields => rw [Fields.align, align_pack fields]; rfl

theorem offset_pack (pos align : Nat) : offset false true pos align = pos :=
  roundUp_of_dvd (Nat.one_dvd pos)

theorem next_pack (pos align size : Nat) : next false true pos align size = pos + size := by
  rw [next, offset_pack]
  rfl

end Ctypes
