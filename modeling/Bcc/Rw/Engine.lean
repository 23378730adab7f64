import Bcc.Rw.Object

namespace Bcc.Rw

open CText

/-!
# Table entries as text — `make_writer` and `make_reader`

* `makeWriter` — the function that is generated for a type is one call of `snprintf`;
* `makeReader` — a sequence of calls of `sscanf`, cut before and after every string, each of which
  goes on where `%n` of the one before has left off.
-/

/-- An argument of a generated call: a pointer into the object, what is loaded through it, or the
    address of the local `nread`. -/
inductive Arg where
  | out (p : Path)
  | load (p : Path)
  | nread
  deriving DecidableEq, Repr

/-- A generated call of `sscanf`, with the check of its result that follows. -/
structure Call where
  fmt : List Char
  args : List Arg
  exactArgs : Bool

/-- The parameters that `parse_type` adds to: the arguments behind the format, the format, and the
    calls that were generated. -/
structure Gen where
  args : List Arg
  fmt : List Char
  calls : List Call

namespace Gen

/-- `*fmt += s` -/
def text (g : Gen) (s : String) : Gen := { g with fmt := g.fmt ++ s.toList }

/-- `args->push_back(a)` -/
def push (g : Gen) (a : Arg) : Gen := { g with args := g.args ++ [a] }

end Gen

/-- `finish_sscanf` -/
def finishSscanf (g : Gen) (exactArgs : Bool) : Gen :=
  ⟨[], [], g.calls ++ [⟨g.fmt ++ "%n".toList, g.args ++ [.nread], exactArgs⟩]⟩

/-- The loop over the elements of an array. -/
def eachElement (parse : Path → Gen → Gen) (out : Path) (size : Nat) (g : Gen) : Gen :=
  (List.range size).foldl (fun g i => (parse (out ++ [i]) g).text " ") g

/-- The conversion of an integer, without its last letter. -/
def conversion (width : Nat) : String :=
  if width ≤ 8 then "%hh" else if width ≤ 16 then "%h" else if width ≤ 32 then "%" else "%l"

mutual

/-- `parse_type` -/
def parseType (isWriter : Bool) : Ty → Path → Gen → Gen
  | .struct fields, out, g => (parseFields isWriter fields out 0 (g.text "\x7b ")).text "\x7d"
  | .array size elem, out, g =>
    if elem.isInt8 then
      if isWriter then (g.text "\"%s\"").push (.out out)
      else
        -- An empty string does not match `%[^"]`, so the format is cut on both sides of it.
        let g := finishSscanf (g.text "\"") true
        let g := finishSscanf ({ g with fmt := "%[^\"]".toList }.push (.out out)) false
        { g with fmt := "\"".toList }
    else (eachElement (parseType isWriter elem) out size (g.text "[ ")).text "]"
  | .pointer, _, g => (g.text "0xl").text (if isWriter then "x" else "i")
  | .int width, out, g =>
    let g := if isWriter then g.text "0x" else g
    let g := (g.text (conversion width)).text (if isWriter then "x" else "i")
    g.push (if isWriter then .load out else .out out)
  | .other, _, g => g

/-- The loop over the fields of a struct, from `idx` on. -/
def parseFields (isWriter : Bool) : List Ty → Path → Nat → Gen → Gen
  | [], _, _, g => g
  | T :: Ts, out, idx, g =>
    parseFields isWriter Ts out (idx + 1) ((parseType isWriter T (out ++ [idx]) g).text " ")

end

/-- `BPFModule::make_writer`: the format and the arguments of `snprintf`. -/
def makeWriter (T : Ty) : List Char × List Arg :=
  let g := parseType true T [] ⟨[], [], []⟩
  (g.fmt, g.args)

/-- `BPFModule::make_reader`: the calls of `sscanf`. -/
def makeReader (T : Ty) : List Call :=
  (finishSscanf (parseType false T [] ⟨[], [], []⟩) true).calls

/-! ### The generated functions at work -/

/-- An argument of `snprintf`. -/
def Arg.value (obj : Val) : Arg → Res Value
  | .load p => do
    match ← get p obj with
    | .num n => return .num n
    | _ => .error .absentValue
  | .out p => do
    match ← get p obj with
    | .chars cs => return .bytes cs
    | _ => .error .absentValue
  | .nread => .error .absentValue

/-- A call of the writer: its result, and the text that is in a buffer of `len` bytes. -/
def write (T : Ty) (obj : Val) (len : Nat) : Res (Nat × List Char) := do
  let ds ← deref (directives (makeWriter T).1)
  let args ← (makeWriter T).2.mapM (Arg.value obj)
  let text ← printf ds args
  return (text.length, text.take (len - 1))

/-- A conversion is stored: a string takes one character more than it has. -/
def store : Stored → Val → Res Val
  | .num n, .num _ => .ok (.num n)
  | .chars cs, .chars old =>
    if cs.length < old.length then .ok (.chars (cs ++ nul :: old.drop (cs.length + 1)))
    else .error .outOfBounds
  | _, _ => .error .absentValue

/-- What `sscanf` does to `nread` and to the object. -/
def applyStore (st : Nat × Val) : Arg × Stored → Res (Nat × Val)
  | (.nread, .count n) => .ok (n, st.2)
  | (.out p, x) => do
    let obj ← modifyAt p (store x) st.2
    return (st.1, obj)
  | _ => .error .absentValue

/-- The check of the result of a call: with `exactArgs`, every conversion has to be done. -/
def Call.failed (c : Call) (rc : Int) : Bool :=
  if c.exactArgs then rc ≠ c.args.length - 1 else rc < 0

/-- One call: the string it goes on with, or nothing if the reader returns. -/
def Call.run (c : Call) (s : List Char) (obj : Val) : Res (Option (List Char) × Val) := do
  let (rc, stores) ← sscanf s c.fmt c.args
  let (nread, obj) ← stores.foldlM applyStore (0, obj)
  return (if c.failed rc then none else some (s.drop nread), obj)

/-- The calls in turn. -/
def runCalls : List Call → List Char → Val → Res (Option (List Char) × Val)
  | [], s, obj => .ok (some s, obj)
  | c :: cs, s, obj => do
    match ← c.run s obj with
    | (none, obj) => return (none, obj)
    | (some s, obj) => runCalls cs s obj

/-- A call of the reader: its result, and the object. -/
def read (T : Ty) (text : List Char) (obj : Val) : Res (Int × Val) := do
  let (s, obj) ← runCalls (makeReader T) text obj
  return (if s.isNone then -1 else 0, obj)

/-- The elements of an array are parsed as the fields of a struct. -/
theorem eachElement_eq (isWriter : Bool) (elem : Ty) (out : Path) (size : Nat) (g : Gen) :
    eachElement (parseType isWriter elem) out size g
      = parseFields isWriter (List.replicate size elem) out 0 g := by
  have hloop : ∀ n start g,
      (List.range' start n).foldl
          (fun g i => (parseType isWriter elem (out ++ [i]) g).text " ") g
        = parseFields isWriter (List.replicate n elem) out start g := by
    intro n
    induction n with
    | zero => exact fun start g => rfl
    | succ n ih =>
      intro start g
      rw [List.range'_succ, List.foldl_cons, ih, List.replicate_succ, parseFields]
  rw [eachElement, List.range_eq_range', hloop]

theorem parseType_array (isWriter : Bool) {elem : Ty} (helem : elem.isInt8 = false) (size : Nat)
    (out : Path) (g : Gen) :
    parseType isWriter (.array size elem) out g
      = (parseFields isWriter (List.replicate size elem) out 0 (g.text "[ ")).text "]" := by
  rw [parseType, if_neg (by simp [helem]), eachElement_eq]

theorem runCalls_append (cs cs' : List Call) (s : List Char) (obj : Val) {s' : List Char}
    {obj' : Val} (h : runCalls cs s obj = .ok (some s', obj')) :
    runCalls (cs ++ cs') s obj = runCalls cs' s' obj' := by
  induction cs generalizing s obj with
  | nil =>
    obtain ⟨rfl, rfl⟩ : s = s' ∧ obj = obj' := by simpa [runCalls] using h
    rfl
  | cons c cs ih =>
    obtain ⟨⟨next, obj₁⟩, hrun, h⟩ := bind_eq_ok_iff.mp h
    cases next with
    | none => simp at h
    | some s₁ =>
      rw [List.cons_append, runCalls, hrun]
      exact ih s₁ obj₁ h

end Bcc.Rw
