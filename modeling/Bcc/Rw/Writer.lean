import Bcc.Rw.Engine

namespace Bcc.Rw

open CText List

/-!
# Table entries as text — the writer

* `writes_type` — the call of `snprintf` that a writer consists of prints the object.
-/

mutual

/-- The text of a value. -/
def text : Ty → Val → List Char
  | .int _, .num n => "0x".toList ++ hex n
  | .array _ _, .chars cs => "\"".toList ++ cs.takeWhile (· ≠ nul) ++ "\"".toList
  | .array _ elem, .seq vs =>
    "[ ".toList ++ vs.flatMap (fun v => text elem v ++ " ".toList) ++ "]".toList
  | .struct fields, .seq vs => "\x7b ".toList ++ texts fields vs ++ "\x7d".toList
  | .pointer, _ => "0xlx".toList
  | _, _ => []

/-- The texts of the fields of a struct. -/
def texts : List Ty → List Val → List Char
  | T :: Ts, v :: vs => text T v ++ " ".toList ++ texts Ts vs
  | _, _ => []

end

theorem texts_replicate (elem : Ty) (vs : List Val) :
    texts (List.replicate vs.length elem) vs
      = vs.flatMap (fun v => text elem v ++ " ".toList) := by
  induction vs with
  | nil => rfl
  | cons v vs ih => simp [replicate_succ, texts, ih]

/-- The length modifier in the conversion of an integer. -/
def lengthOf (width : Nat) : Length :=
  if width ≤ 8 then .hh else if width ≤ 16 then .h else if width ≤ 32 then .int else .l

theorem directives_conversion (width : Nat) :
    directives ((conversion width).toList ++ "x".toList) = some [.hex (lengthOf width)]
      ∧ directives ((conversion width).toList ++ "i".toList) = some [.int (lengthOf width)] := by
  unfold conversion lengthOf
  split_ifs <;> exact ⟨rfl, rfl⟩

theorem width_le_bits {width : Nat} (h : width ≤ 64) : width ≤ (lengthOf width).bits := by
  unfold lengthOf
  split_ifs <;> (simp only [Length.bits]; omega)

/-! ### The writer -/

/-- A part of the generation of a writer adds a format and arguments that print a text when the
    writer is called for the object. -/
def Writes (parse : Gen → Gen) (obj : Val) (t : List Char) : Prop :=
  ∃ fmt args ds vals, (∀ g, parse g = ⟨g.args ++ args, g.fmt ++ fmt, g.calls⟩)
    ∧ directives fmt = some ds ∧ args.mapM (Arg.value obj) = .ok vals ∧ Prints ds vals t

namespace Writes

variable {parse parse' : Gen → Gen} {obj : Val} {t t' : List Char}

theorem nil : Writes (fun g => g) obj [] :=
  ⟨[], [], [], [], fun g => by simp, rfl, rfl, .nil⟩

theorem andThen (h : Writes parse obj t) (h' : Writes parse' obj t') :
    Writes (fun g => parse' (parse g)) obj (t ++ t') := by
  obtain ⟨fmt, args, ds, vals, hparse, hds, hvals, hprints⟩ := h
  obtain ⟨fmt', args', ds', vals', hparse', hds', hvals', hprints'⟩ := h'
  refine ⟨fmt ++ fmt', args ++ args', ds ++ ds', vals ++ vals', fun g => ?_,
    directives_append hds hds', ?_, hprints.append hprints'⟩
  · simp [hparse, hparse']
  · rw [mapM_append, hvals, hvals']
    rfl

/-- Characters that stand for themselves. -/
theorem literals (s : String) (h : '%' ∉ s.toList) : Writes (fun g => g.text s) obj s.toList := by
  refine ⟨s.toList, [], s.toList.map .literal, [], fun g => by simp [Gen.text], ?_, rfl, ?_⟩
  · exact directives_literals h
  · exact .literals s.toList

end Writes

theorem writes_int {width n : Nat} (hw : width ≤ 64) (hn : n < 2 ^ width) (C : Ctx) :
    Writes (parseType true (.int width) C.path) (C.fill (.num n)) (text (.int width) (.num n)) := by
  have hbits : n < 2 ^ (lengthOf width).bits :=
    lt_of_lt_of_le hn (Nat.pow_le_pow_right (by decide) (width_le_bits hw))
  refine ⟨"0x".toList ++ ((conversion width).toList ++ "x".toList), [.load C.path], _, [.num n],
    fun g => ?_,
    directives_append (directives_literals (by decide)) (directives_conversion width).1, ?_,
    (Prints.literals _).append (.hex hbits)⟩
  · simp [parseType, Gen.text, Gen.push]
  · simp [Arg.value, get_fill]

theorem writes_string {size : Nat} {elem : Ty} (helem : elem.isInt8 = true) {cs : List Char}
    (hnul : nul ∈ cs) (C : Ctx) :
    Writes (parseType true (.array size elem) C.path) (C.fill (.chars cs))
      (text (.array size elem) (.chars cs)) := by
  refine ⟨"\"%s\"".toList, [.out C.path], [.literal '"', .str, .literal '"'], [.bytes cs],
    fun g => ?_, rfl, ?_, ?_⟩
  · simp [parseType, helem, Gen.text, Gen.push]
  · simp [Arg.value, get_fill, bind, Except.bind]
  · exact (Prints.literal '"').append ((Prints.str hnul).append (.literal '"'))

/-- The fields of a struct, if the writer is right for each of their types. -/
theorem writes_fields {Ts : List Ty}
    (hTs : ∀ T ∈ Ts, ∀ v C, isObject T v = true →
      Writes (parseType true T (Ctx.path C)) (Ctx.fill C v) (text T v))
    (C : Ctx) (before : List Val) {vs : List Val} (hvs : areObjects Ts vs = true) :
    Writes (parseFields true Ts C.path before.length) (C.fill (.seq (before ++ vs)))
      (texts Ts vs) := by
  induction Ts generalizing before vs with
  | nil =>
    cases vs with
    | nil => exact .nil
    | cons v vs => simp [areObjects] at hvs
  | cons T Ts ih =>
    cases vs with
    | nil => simp [areObjects] at hvs
    | cons v vs =>
      simp only [areObjects, Bool.and_eq_true] at hvs
      have hfirst := hTs T mem_cons_self v (C ++ [(before, vs)]) hvs.1
      rw [Ctx.path_append, Ctx.fill_append] at hfirst
      have hrest := ih (fun T' hT' => hTs T' (mem_cons_of_mem T hT')) (before ++ [v]) hvs.2
      rw [append_assoc, length_append] at hrest
      exact (hfirst.andThen (.literals " " (by decide))).andThen hrest

/-- **The writer prints the text of the object.** -/
theorem writes_type (T : Ty) {v : Val} (C : Ctx) (hv : isObject T v = true) :
    Writes (parseType true T C.path) (C.fill v) (text T v) := by
  induction T using Ty.fields_induction generalizing v C with
  | int width =>
    cases v with
    | num n =>
      simp only [isObject, Bool.and_eq_true, decide_eq_true_eq] at hv
      exact writes_int hv.1 hv.2 C
    | chars cs | seq vs => simp [isObject] at hv
  | array size elem ih =>
    cases v with
    | num n => simp [isObject] at hv
    | chars cs =>
      simp only [isObject, Bool.and_eq_true, decide_eq_true_eq] at hv
      exact writes_string hv.1.1 hv.2 C
    | seq vs =>
      simp only [isObject, Bool.and_eq_true, Bool.not_eq_true', beq_iff_eq, all_eq_true] at hv
      obtain ⟨⟨helem, rfl⟩, hvs⟩ := hv
      have helems : ∀ T ∈ List.replicate vs.length elem, ∀ v C, isObject T v = true →
          Writes (parseType true T (Ctx.path C)) (Ctx.fill C v) (text T v) := by
        intro T hT v C hv
        rw [eq_of_mem_replicate hT] at hv ⊢
        exact ih C hv
      have hfields := writes_fields helems C [] (areObjects_replicate hvs)
      rw [texts_replicate] at hfields
      rw [funext (parseType_array true helem vs.length C.path)]
      exact ((Writes.literals "[ " (by decide)).andThen hfields).andThen
        (.literals "]" (by decide))
  | struct fields ih =>
    cases v with
    | num n | chars cs => simp [isObject] at hv
    | seq vs =>
      have hfields := writes_fields (fun T hT v C hv => ih T hT C hv) C [] hv
      exact ((Writes.literals "\x7b " (by decide)).andThen hfields).andThen
        (.literals "\x7d" (by decide))
  | pointer =>
    -- the format has no percent sign, so the pointer itself is not printed
    exact (Writes.literals "0xl" (by decide)).andThen (.literals "x" (by decide))
  | other =>
    exact .nil

/-- The writer returns the length of the text and puts as much of it into the buffer as there is
    room for in front of a NUL. -/
theorem write_object {T : Ty} {v : Val} (hv : isObject T v = true) (len : Nat) :
    write T v len = .ok ((text T v).length, (text T v).take (len - 1)) := by
  obtain ⟨fmt, args, ds, vals, hparse, hds, hvals, hprints⟩ := writes_type T [] hv
  have hwriter : makeWriter T = (fmt, args) := by
    have hall := hparse ⟨[], [], []⟩
    simp only [makeWriter]
    rw [show ([] : Path) = Ctx.path [] from rfl, hall]
    rfl
  have hvals' : args.mapM (Arg.value v) = .ok vals := hvals
  simp only [write, hwriter, hds, deref, ok_bind, hvals', hprints.printf_eq]
  rfl

/-- A buffer that is large enough gets all of the text. -/
theorem write_eq {T : Ty} {v : Val} (hv : isValue T v = true) {len : Nat}
    (hlen : (text T v).length < len) : write T v len = .ok ((text T v).length, text T v) := by
  have htake : (text T v).take (len - 1) = text T v := take_of_length_le (by omega)
  rw [write_object (isObject_of_isValue T hv), htake]

end Bcc.Rw
