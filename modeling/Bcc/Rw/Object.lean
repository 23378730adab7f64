import Bcc.Text.Scanf

namespace Bcc.Rw

open CText List

/-!
# Table entries as text — types and objects

* `Ty`, `Val` — the LLVM type of a key or a leaf, for which `bpf_module_rw_engine.cc` generates a
  function that prints an object and one that reads it back, and its objects.
-/

/-- An LLVM type. -/
inductive Ty where
  | int (width : Nat)
  | array (size : Nat) (elem : Ty)
  | struct (fields : List Ty)
  | pointer
  | other

/-- `B.getInt8Ty()` -/
def Ty.isInt8 : Ty → Bool
  | .int 8 => true
  | _ => false

/-- Induction on a type, with the hypothesis for every field of a struct. -/
theorem Ty.fields_induction {motive : Ty → Prop} (int : ∀ width, motive (.int width))
    (array : ∀ size elem, motive elem → motive (.array size elem))
    (struct : ∀ fields, (∀ T ∈ fields, motive T) → motive (.struct fields))
    (pointer : motive .pointer) (other : motive .other) (T : Ty) : motive T := by
  refine @Ty.rec motive (fun fields => ∀ T ∈ fields, motive T)
    int array struct pointer other ?_ ?_ T
  · intro T hT
    cases hT
  · intro T fields hT hfields T' hT'
    rcases mem_cons.mp hT' with rfl | hT'
    · exact hT
    · exact hfields T' hT'

/-- An object.  An integer is what its bytes hold; an array of `i8` is its characters. -/
inductive Val where
  | num (n : Nat)
  | chars (cs : List Char)
  | seq (vs : List Val)

/-- A pointer into an object: the numbers of the fields and elements on the way. -/
abbrev Path := List Nat

/-- A part of an object is replaced. -/
def modifyAt : Path → (Val → Res Val) → Val → Res Val
  | [], f, v => f v
  | i :: p, f, .seq vs => do
    let v ← element vs i
    let v' ← modifyAt p f v
    return .seq (vs.set i v')
  | _ :: _, _, _ => .error .outOfBounds

/-- A part of an object. -/
def get : Path → Val → Res Val
  | [], v => .ok v
  | i :: p, .seq vs => do
    let v ← element vs i
    get p v
  | _ :: _, _ => .error .outOfBounds

/-! ### An object around one of its parts -/

/-- The parts before and after, at every level from the outside. -/
abbrev Ctx := List (List Val × List Val)

namespace Ctx

/-- The object with the part in it. -/
def fill : Ctx → Val → Val
  | [], v => v
  | (before, after) :: C, v => .seq (before ++ fill C v :: after)

/-- The pointer to the part. -/
def path (C : Ctx) : Path := C.map (fun level => level.1.length)

theorem fill_append (C : Ctx) (before after : List Val) (v : Val) :
    fill (C ++ [(before, after)]) v = fill C (.seq (before ++ v :: after)) := by
  induction C with
  | nil => rfl
  | cons level C ih => simp [fill, ih]

theorem path_append (C : Ctx) (before after : List Val) :
    path (C ++ [(before, after)]) = path C ++ [before.length] := by
  simp [path]

end Ctx

theorem element_append_cons {α : Type} (before after : List α) (x : α) :
    element (before ++ x :: after) before.length = .ok x :=
  element_eq_ok_iff.mpr (by simp)

theorem modifyAt_fill (C : Ctx) (f : Val → Res Val) (v : Val) :
    modifyAt C.path f (C.fill v) = C.fill <$> f v := by
  induction C with
  | nil =>
    show f v = _
    cases h : f v <;> rfl
  | cons level C ih =>
    obtain ⟨before, after⟩ := level
    show modifyAt (before.length :: Ctx.path C) f (.seq (before ++ Ctx.fill C v :: after)) = _
    rw [modifyAt, element_append_cons, ok_bind, ih]
    cases h : f v with
    | error e => rfl
    | ok v' =>
      show Except.ok
        (Val.seq ((before ++ Ctx.fill C v :: after).set before.length (Ctx.fill C v'))) = _
      rw [set_append_right _ _ (Nat.le_refl _), Nat.sub_self]
      rfl

theorem get_fill (C : Ctx) (v : Val) : get C.path (C.fill v) = .ok v := by
  induction C with
  | nil => rfl
  | cons level C ih =>
    obtain ⟨before, after⟩ := level
    show get (before.length :: Ctx.path C) (.seq (before ++ Ctx.fill C v :: after)) = _
    rw [get, element_append_cons, ok_bind, ih]

/-! ### Values of a type -/

mutual

/-- The objects of a type without integers of more than 64 bits; an array of `i8` has a NUL in
    it. -/
def isObject : Ty → Val → Bool
  | .int width, .num n => width ≤ 64 && n < 2 ^ width
  | .array size elem, .chars cs => elem.isInt8 && cs.length == size && nul ∈ cs
  | .array size elem, .seq vs => !elem.isInt8 && vs.length == size && vs.all (isObject elem)
  | .struct fields, .seq vs => areObjects fields vs
  | .pointer, .num _ => true
  | .other, .num _ => true
  | _, _ => false

/-- The fields of a struct. -/
def areObjects : List Ty → List Val → Bool
  | [], [] => true
  | T :: Ts, v :: vs => isObject T v && areObjects Ts vs
  | _, _ => false

end

/-- A C string and NULs behind it. -/
def isCString (cs : List Char) : Bool :=
  nul ∈ cs && (cs.dropWhile (· ≠ nul)).all (· == nul)

mutual

/-- The values of the types made of integers of 1 to 64 bits, structs and arrays; an array of `i8`
    holds a C string without a double quote. -/
def isValue : Ty → Val → Bool
  | .int width, .num n => 1 ≤ width && width ≤ 64 && n < 2 ^ width
  | .array size elem, .chars cs => elem.isInt8 && cs.length == size && isCString cs && '"' ∉ cs
  | .array size elem, .seq vs => !elem.isInt8 && vs.length == size && vs.all (isValue elem)
  | .struct fields, .seq vs => areValues fields vs
  | _, _ => false

/-- The fields of a struct. -/
def areValues : List Ty → List Val → Bool
  | [], [] => true
  | T :: Ts, v :: vs => isValue T v && areValues Ts vs
  | _, _ => false

end

mutual

/-- A zeroed object. -/
def zero : Ty → Val
  | .array size elem =>
    if elem.isInt8 then .chars (List.replicate size nul) else .seq (List.replicate size (zero elem))
  | .struct fields => .seq (zeros fields)
  | _ => .num 0

/-- The fields of a zeroed struct. -/
def zeros : List Ty → List Val
  | [] => []
  | T :: Ts => zero T :: zeros Ts

end

theorem zeros_replicate (size : Nat) (elem : Ty) :
    zeros (List.replicate size elem) = List.replicate size (zero elem) := by
  induction size with
  | zero => rfl
  | succ size ih => simp [replicate_succ, zeros, ih]

/-- The elements of an array are as the fields of a struct. -/
theorem areValues_replicate {elem : Ty} {vs : List Val} (h : ∀ v ∈ vs, isValue elem v = true) :
    areValues (List.replicate vs.length elem) vs = true := by
  induction vs with
  | nil => rfl
  | cons v vs ih =>
    have hvs := ih (fun x hx => h x (mem_cons_of_mem v hx))
    simp [replicate_succ, areValues, h v mem_cons_self, hvs]

theorem areObjects_replicate {elem : Ty} {vs : List Val} (h : ∀ v ∈ vs, isObject elem v = true) :
    areObjects (List.replicate vs.length elem) vs = true := by
  induction vs with
  | nil => rfl
  | cons v vs ih =>
    have hvs := ih (fun x hx => h x (mem_cons_of_mem v hx))
    simp [replicate_succ, areObjects, h v mem_cons_self, hvs]

theorem areObjects_of_areValues {Ts : List Ty}
    (hTs : ∀ T ∈ Ts, ∀ v, isValue T v = true → isObject T v = true) {vs : List Val}
    (hvs : areValues Ts vs = true) : areObjects Ts vs = true := by
  induction Ts generalizing vs with
  | nil => cases vs <;> simp_all [areValues, areObjects]
  | cons T Ts ih =>
    cases vs with
    | nil => simp [areValues] at hvs
    | cons v vs =>
      simp only [areValues, areObjects, Bool.and_eq_true] at hvs ⊢
      exact ⟨hTs T mem_cons_self v hvs.1,
        ih (fun T' hT' => hTs T' (mem_cons_of_mem T hT')) hvs.2⟩

theorem isObject_of_isValue (T : Ty) {v : Val} (hv : isValue T v = true) : isObject T v = true := by
  induction T using Ty.fields_induction generalizing v with
  | int width => cases v <;> simp_all [isValue, isObject]
  | array size elem ih =>
    cases v with
    | num n => simp [isValue] at hv
    | chars cs => simp_all [isValue, isObject, isCString]
    | seq vs =>
      simp only [isValue, isObject, Bool.and_eq_true, all_eq_true] at hv ⊢
      exact ⟨hv.1, fun v hmem => ih (hv.2 v hmem)⟩
  | struct fields ih =>
    cases v with
    | num n | chars cs => simp [isValue] at hv
    | seq vs =>
      exact areObjects_of_areValues (fun T hT v hv => ih T hT hv) hv
  | pointer | other => cases v <;> simp [isValue] at hv

end Bcc.Rw
