import Bcc.Desc.Describe

namespace Bcc.Desc

/-!
# Descriptions of keys and leaves — `_decode_table_type`

* `decode` — the ctypes class that a description gives;
* `decode_json` — the description of a type gives one unless it has a simple type in it that
  `str2ctype` does not know.
-/

/-- What is raised. -/
inductive DecodeError where
  | keyError (name : String)
  | failed
  | bitField
  deriving DecidableEq, Repr

/-- `str2ctype` -/
def str2ctype : List (String × Ctypes.Ty) :=
  [("_Bool", .simple 1 1), ("char", .simple 1 1), ("wchar_t", .simple 4 4),
    ("unsigned char", .simple 1 1), ("short", .simple 2 2), ("unsigned short", .simple 2 2),
    ("int", .simple 4 4), ("unsigned int", .simple 4 4), ("long", .simple 8 8),
    ("unsigned long", .simple 8 8), ("long long", .simple 8 8), ("unsigned long long", .simple 8 8),
    ("float", .simple 4 4), ("double", .simple 8 8), ("long double", .simple 16 16),
    ("__int128", .array (.simple 8 8) 2), ("unsigned __int128", .array (.simple 8 8) 2)]

/-- The kinds of records. -/
def isKind (kind : String) : Bool := kind == "union" || kind == "struct" || kind == "struct_packed"

/-- The class of a record, with its fields and the names of the anonymous ones. -/
def mkClass (kind : String) (r : Ctypes.Fields × List String) : Ctypes.Ty :=
  .record (kind == "union") (kind == "struct_packed") r.2 r.1

/-- The name of a field that is a record without one of its own. -/
def anonName (anon : List String) (name : String) : String :=
  if name == "" then "__anon" ++ toString anon.length else name

/-- The names of the anonymous fields with one more field. -/
def anonWith (anon : List String) (name : String) : List String :=
  if name == "" then anon ++ [anonName anon name] else anon

mutual

/-- `_decode_table_type` -/
def decode : Json → Except DecodeError Ctypes.Ty
  | .str name =>
    match str2ctype.lookup name with
    | some ty => .ok ty
    | none => .error (.keyError name)
  | .arr [.str _, .arr items, .str kind] => do
    let r ← decodeFields [] items
    return mkClass kind r
  | _ => .error .failed

/-- The loop over the fields; `anon` has the names of the anonymous ones so far. -/
def decodeFields (anon : List String) :
    List Json → Except DecodeError (Ctypes.Fields × List String)
  | [] => .ok (.nil, anon)
  | .arr [.str name, ty] :: items => do
    let ty ← decode ty
    let r ← decodeFields anon items
    return (.cons name ty r.1, r.2)
  | .arr [.str name, ty, .arr (.num n :: _)] :: items => do
    let ty ← decode ty
    let r ← decodeFields anon items
    return (.cons name (.array ty n) r.1, r.2)
  | .arr [_, _, .num _] :: _ => .error .bitField
  | .arr [.str name, .arr inner, .str kind] :: items =>
    if isKind kind then do
      -- `_decode_table_type(t)`, for the item itself
      let ty ← mkClass kind <$> decodeFields [] inner
      let r ← decodeFields (anonWith anon name) items
      return (.cons (anonName anon name) ty r.1, r.2)
    else .error .failed
  | _ => .error .failed

end

/-! ### The descriptions of types -/

/-- The type has no simple type in it that `str2ctype` does not know. -/
def IntKind.Known (kind : IntKind) : Prop := kind ≠ .signedChar

/-- The ctypes type of an integer. -/
def IntKind.py : IntKind → Ctypes.Ty
  | .int128 => .array (.simple 8 8) 2
  | .unsignedInt128 => .array (.simple 8 8) 2
  | kind => .simple kind.size kind.size

theorem lookup_name {kind : IntKind} (h : kind.Known) :
    str2ctype.lookup kind.name = some kind.py := by
  cases kind <;> first | exact absurd rfl h | rfl

/-- `signed char` is not there. -/
theorem lookup_signedChar : str2ctype.lookup IntKind.signedChar.name = none := by
  decide

mutual

/-- The integer types in the type are known. -/
def Ty.Known : Ty → Prop
  | .int kind => kind.Known
  | .enum kind => kind.Known
  | .pointer => True
  | .array elem _ => elem.Known
  | .typedef ty => ty.Known
  | .record _ _ fields _ => fields.Known

def Fields.Known : Fields → Prop
  | .nil => True
  | .cons _ _ ty fields => ty.Known ∧ fields.Known

end

/-- The type of a field, with the class for the type that is visited. -/
def fieldPy (ty : Ty) (py : Ctypes.Ty) : Ctypes.Ty :=
  match ty with
  | .array _ n => .array py n
  | _ => py

/-- The name of a field. -/
def fieldName (anon : List String) (name : Option String) : String := name.getD (anonName anon "")

/-- The names of the anonymous fields after a field. -/
def anonAfter (anon : List String) (name : Option String) : List String :=
  match name with
  | none => anonWith anon ""
  | some _ => anon

/-- The names of the anonymous fields. -/
def Fields.anon (anon : List String) : Fields → List String
  | .nil => anon
  | .cons name _ _ fields => fields.anon (anonAfter anon name)

mutual

/-- The class that the description of a type gives. -/
def Ty.py : Ty → Ctypes.Ty
  | .int kind => kind.py
  | .enum kind => kind.py
  | .pointer => .simple 8 8
  | .array elem _ => elem.py
  | .typedef ty => ty.py
  | .record union _ fields size =>
    .record union (!shouldSkipPadding union fields) (fields.anon [])
      (if shouldSkipPadding union fields then fields.py []
        else fields.pyPadded size [] fields.first 0)

/-- The fields of the class, without padding. -/
def Fields.py (anon : List String) : Fields → Ctypes.Fields
  | .nil => .nil
  | .cons name _ ty fields =>
    .cons (fieldName anon name) (fieldPy ty ty.py) (fields.py (anonAfter anon name))

/-- The fields of the class of a struct, with the padding. -/
def Fields.pyPadded (size : Nat) (anon : List String) : Nat → Nat → Fields → Ctypes.Fields
  | pos, _, .nil =>
    if pos < size then .cons "__pad_end" (.array (.simple 1 1) (size - pos)) .nil else .nil
  | pos, index, .cons name offset ty fields =>
    let rest := .cons (fieldName anon name) (fieldPy ty ty.py)
      (fields.pyPadded size (anonAfter anon name) (offset + ty.size) (index + 1))
    if offset - pos = 0 then rest
    else .cons ("__pad_" ++ toString index) (.array (.simple 1 1) (offset - pos)) rest

end

/-! ### Decoding the descriptions -/

theorem isKind_kindName (union skipPadding : Bool) :
    isKind (kindName union skipPadding) = true := by
  cases union <;> cases skipPadding <;> rfl

theorem decode_record (union : Bool) (name : String) (fields : Fields) (size : Nat) :
    decode (Ty.record union name fields size).json
      = (mkClass (kindName union (shouldSkipPadding union fields)))
        <$> decodeFields [] (if shouldSkipPadding union fields then fields.jsons
          else fields.padded size fields.first 0) := by
  rfl

/-- The description of a field gives the field, with the class for its type. -/
theorem decodeFields_field (anon : List String) {name : Option String} {ty : Ty}
    (h : name = none → ty.isUntagged = true) (items : List Json) :
    decodeFields anon (genJSONForField name ty ty.json :: items) = do
      let py ← decode ty.json
      let r ← decodeFields (anonAfter anon name) items
      return (.cons (fieldName anon name) (fieldPy ty py) r.1, r.2) := by
  cases name with
  | some name => cases ty <;> rfl
  | none =>
    cases ty with
    | record union tag fields size =>
      obtain rfl : tag = "" := by simpa [Ty.isUntagged] using h rfl
      have hkind := isKind_kindName union (shouldSkipPadding union fields)
      rw [genJSONForField, Ty.json, decodeFields, if_pos hkind]
      rfl
    | _ => exact absurd (h rfl) (by simp [Ty.isUntagged])

/-- What is returned if a condition holds; otherwise an error is raised. -/
def Gives {α : Type} (known : Prop) (r : Except DecodeError α) (v : α) : Prop :=
  (known ∧ r = .ok v) ∨ (¬ known ∧ ∃ e, r = .error e)

namespace Gives

variable {α β : Type} {known known' : Prop} {r : Except DecodeError α} {v : α}

theorem ok (v : α) : Gives True (.ok v) v := .inl ⟨trivial, rfl⟩

theorem bind {f : α → Except DecodeError β} {w : β} (h : Gives known r v)
    (hf : Gives known' (f v) w) : Gives (known ∧ known') (r >>= f) w := by
  rcases h with ⟨hknown, rfl⟩ | ⟨hknown, e, rfl⟩
  · rcases hf with ⟨hknown', hw⟩ | ⟨hknown', e, he⟩
    · exact .inl ⟨⟨hknown, hknown'⟩, hw⟩
    · exact .inr ⟨fun h => hknown' h.2, e, he⟩
  · exact .inr ⟨fun h => hknown h.1, e, rfl⟩

theorem map (h : Gives known r v) (f : α → β) : Gives known (do return f (← r)) (f v) := by
  rcases h with ⟨hknown, rfl⟩ | ⟨hknown, e, rfl⟩
  · exact .inl ⟨hknown, rfl⟩
  · exact .inr ⟨hknown, e, rfl⟩

/-- If anything is returned, then the condition holds, and it is the value. -/
theorem eq_ok_iff (h : Gives known r v) {w : α} : r = .ok w ↔ known ∧ w = v := by
  rcases h with ⟨hknown, rfl⟩ | ⟨hknown, e, rfl⟩
  · rw [Except.ok.injEq, and_iff_right hknown, eq_comm]
  · exact ⟨fun h => (by cases h), fun h => absurd h.1 hknown⟩

end Gives

/-- The description of the type gives the class, if the type is known. -/
def Ty.Decodes (ty : Ty) : Prop := ty.Laid → Gives ty.Known (decode ty.json) ty.py

theorem gives_name (kind : IntKind) : Gives kind.Known (decode (.str kind.name)) kind.py := by
  rw [decode]
  by_cases h : kind.Known
  · exact .inl ⟨h, by rw [lookup_name h]⟩
  · obtain rfl : kind = .signedChar := by simpa [IntKind.Known] using h
    exact .inr ⟨h, _, by rw [lookup_signedChar]⟩

/-- A field before other fields. -/
theorem gives_field {union : Bool} {size pos : Nat} {name : Option String} {offset : Nat} {ty : Ty}
    {fields : Fields} {anon : List String} {items : List Json} {r : Ctypes.Fields × List String}
    (hty : ty.Decodes) (hlaid : (Fields.cons name offset ty fields).Laid union size pos)
    (hitems : Gives fields.Known (decodeFields (anonAfter anon name) items) r) :
    Gives (ty.Known ∧ fields.Known) (decodeFields anon (genJSONForField name ty ty.json :: items))
      (.cons (fieldName anon name) (fieldPy ty ty.py) r.1, r.2) := by
  obtain ⟨htyLaid, huntagged, -⟩ := hlaid
  rw [decodeFields_field anon huntagged items]
  exact (hty htyLaid).bind (hitems.map fun r =>
    (Ctypes.Fields.cons (fieldName anon name) (fieldPy ty ty.py) r.1, r.2))

theorem gives_jsons (union : Bool) (size : Nat) :
    ∀ (fields : Fields) (pos : Nat) (anon : List String), fields.All Ty.Decodes →
      fields.Laid union size pos →
      Gives fields.Known (decodeFields anon fields.jsons) (fields.py anon, fields.anon anon)
  | .nil, _, _, _, _ => Gives.ok _
  | .cons _ _ _ fields, _, _, hall, hlaid =>
    gives_field hall.1 hlaid (gives_jsons union size fields _ _ hall.2 hlaid.2.2.2.2)

theorem gives_padded (size : Nat) :
    ∀ (fields : Fields) (pos index : Nat) (anon : List String), fields.All Ty.Decodes →
      fields.Laid false size pos →
      Gives fields.Known (decodeFields anon (fields.padded size pos index))
        (fields.pyPadded size anon pos index, fields.anon anon)
  | .nil, pos, index, anon, _, _ => by
    rw [Fields.padded, Fields.pyPadded]
    split
    · exact (Gives.ok (Ctypes.Fields.nil, anon)).map fun r =>
        (Ctypes.Fields.cons "__pad_end" (.array (.simple 1 1) (size - pos)) r.1, r.2)
    · exact Gives.ok _
  | .cons name offset ty fields, pos, index, anon, hall, hlaid => by
    have hfield := gives_field hall.1 hlaid
      (gives_padded size fields _ (index + 1) (anonAfter anon name) hall.2 hlaid.2.2.2.2)
    rw [Fields.padded, Fields.pyPadded]
    split
    · exact hfield
    · let padding : Ctypes.Ty := .array (.simple 1 1) (offset - pos)
      exact hfield.map fun r => (Ctypes.Fields.cons ("__pad_" ++ toString index) padding r.1, r.2)

/-- **Decoding.**  The description of a type gives the class, unless the type has a `signed char` in
    it. -/
theorem decode_json (ty : Ty) : ty.Decodes := by
  induction ty using Ty.fields_induction with
  | int kind | enum kind => exact fun _ => gives_name kind
  | pointer => exact fun _ => Gives.ok _
  | array elem n ih => exact ih
  | typedef ty ih => exact ih
  | record union name fields size hall =>
    rintro ⟨hfirst, -, hlaid⟩
    rw [decode_record, Ty.py]
    cases hskip : shouldSkipPadding union fields with
    | true =>
      have hpack : (kindName union true == "struct_packed") = false := by cases union <;> rfl
      have hunion : (kindName union true == "union") = union := by cases union <;> rfl
      have hfields := gives_jsons union size fields 0 [] hall hlaid
      have hclass := hfields.map (mkClass (kindName union true))
      rw [mkClass, hpack, hunion] at hclass
      exact hclass
    | false =>
      -- A record with padding is a struct.
      obtain rfl : union = false := by
        rw [shouldSkipPadding, Bool.or_eq_false_iff] at hskip
        exact hskip.1
      have hclass := (gives_padded size fields 0 0 [] hall hlaid).map
        (mkClass (kindName false false))
      rw [hfirst]
      exact hclass

end Bcc.Desc
