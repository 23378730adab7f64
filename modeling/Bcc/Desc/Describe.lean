import Bcc.Desc.Types

namespace Bcc.Desc

/-!
# Descriptions of keys and leaves — `BMapDeclVisitor`

* `Ty.json` — the description of a type is a JSON text: the name of a simple type, or a list with
  the name, the fields and the kind of a record;
* `padding` — a struct is described as a packed one, with the padding written out; a union is left
  to its natural layout.
-/

/-- A JSON value. -/
inductive Json where
  | str (s : String)
  | num (n : Nat)
  | arr (items : List Json)

/-- An array of `char`, for padding. -/
def padding (name : String) (n : Nat) : Json := .arr [.str name, .str "char", .arr [.num n]]

/-- The number of elements, if the type of the field is an array and not a typedef of one. -/
def bound : Ty → List Json
  | .array _ n => [.arr [.num n]]
  | _ => []

/-- `genJSONForField`, with the description of the type: an anonymous struct or union has none of
    its own. -/
def genJSONForField (name : Option String) (ty : Ty) (json : Json) : Json :=
  match name with
  | none => json
  | some name => .arr (.str name :: json :: bound ty)

/-- `shouldSkipPadding`, without bit-fields and flexible arrays. -/
def shouldSkipPadding (union : Bool) (fields : Fields) : Bool := union || fields.isEmpty

/-- The kind of a record. -/
def kindName (union skipPadding : Bool) : String :=
  if union then "union" else if skipPadding then "struct" else "struct_packed"

mutual

/-- What the visitor writes for a type. -/
def Ty.json : Ty → Json
  | .int kind => .str kind.name
  | .enum kind => .str kind.name
  | .pointer => .str "unsigned long long"
  -- Of an array type only the type of the elements is visited.
  | .array elem _ => elem.json
  | .typedef ty => ty.json
  | .record union name fields size =>
    .arr [.str name,
      .arr (if shouldSkipPadding union fields then fields.jsons
        else fields.padded size fields.first 0),
      .str (kindName union (shouldSkipPadding union fields))]

/-- `VisitRecordDecl`: the fields alone. -/
def Fields.jsons : Fields → List Json
  | .nil => []
  | .cons name _ ty fields => genJSONForField name ty ty.json :: fields.jsons

/-- `VisitRecordDecl`: the fields of a struct with the padding, from an offset on. -/
def Fields.padded (size : Nat) : Nat → Nat → Fields → List Json
  | pos, _, .nil => if pos < size then [padding "__pad_end" (size - pos)] else []
  | pos, index, .cons name offset ty fields =>
    (if offset - pos = 0 then [] else [padding ("__pad_" ++ toString index) (offset - pos)])
      ++ genJSONForField name ty ty.json :: fields.padded size (offset + ty.size) (index + 1)

end

end Bcc.Desc
