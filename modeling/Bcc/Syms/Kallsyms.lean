import Bcc.Text.Buffer
import Mathlib.Data.Bool.AllAny

namespace Bcc.Syms

open CText List

/-!
# Kernel symbols — `bcc_procutils_each_ksym`

`bcc_procutils_each_ksym` reads `/proc/kallsyms` and calls back for each symbol that is not data.
All lines go through one array, and a pointer, `endmod`, keeps its value from line to line.

* `ksymLine_text`, `eachKsym_fileText` — what is called for a line, and for a file;
* `eachKsym_eq_iff` — when that is right.
-/

/-- One call of the callback. -/
structure Callback where
  name : List Char
  module : List Char
  addr : Nat
  deriving DecidableEq, Repr

/-- The types of data symbols. -/
def isData (type : Char) : Bool :=
  type == 'b' || type == 'B' || type == 'd' || type == 'D' || type == 'r' || type == 'R'

/-- What the loop keeps from line to line: the array and `endmod`. -/
structure Parser where
  line : List Char
  endmod : Option Nat

/-- The end of the loop's body: the module at `modname`, if there is one, and the call. -/
def ksymModule (st : Parser) (symname modname addr : Nat) : Res (Parser × Option Callback) := do
  if (← readAt st.line modname) = '[' then
    let modname := modname + 1
    let endmod ← advance (fun c => c == nul || c == ']') st.line modname
    if (← readAt st.line endmod) ≠ nul then
      let line ← writeAt st.line endmod nul
      return (⟨line, some endmod⟩, some ⟨cstr line symname, cstr line modname, addr⟩)
    return (⟨st.line, none⟩, some ⟨cstr st.line symname, "kernel".toList, addr⟩)
  -- `endmod` still is what an earlier line has left in it.
  let module := if st.endmod = none then "kernel".toList else cstr st.line modname
  return (st, some ⟨cstr st.line symname, module, addr⟩)

/-- The body of the loop, after `fgets`.  `addrSpace` is the first address that can be
    one of the kernel. -/
def ksymLine (addrSpace : Nat) (st : Parser) : Res (Parser × Option Callback) := do
  let (symname, addr) := strtoullHex (cstr st.line 0)
  if addr = 0 ∨ addr = 2 ^ 64 - 1 then return (st, none)
  if addr < addrSpace then return (st, none)
  let symname := symname + 1
  if isData (← readAt st.line symname) then return (st, none)
  let symname := symname + 2
  let endsym ← advance (fun c => c == nul || isspace c) st.line symname
  let line ← writeAt st.line endsym nul
  -- The loop looks at `*endsym`, which is the NUL just written, and not at `*modname`.
  let last ← readAt line endsym
  let modname ← advance (fun c => c == nul || !isspace last) line (endsym + 1)
  ksymModule ⟨line, st.endmod⟩ symname modname addr

/-- The loop over the lines.  Each line takes at least one character of the file. -/
def ksymLoop (addrSpace : Nat) : Nat → Parser → List Char → Res (List Callback)
  | 0, _, _ => .error .outOfFuel
  | fuel + 1, st, file =>
    match fgets st.line file with
    | none => .ok []
    | some (line, rest) => do
      let (st, call) ← ksymLine addrSpace ⟨line, st.endmod⟩
      return call.toList ++ (← ksymLoop addrSpace fuel st rest)

/-- `bcc_procutils_each_ksym`, for a `/proc/kallsyms` that cannot be opened or has the given
    contents.  `junk` is what the array holds before anything is read. -/
def eachKsym (addrSpace : Nat) (junk : Fin 2048 → Char) :
    Option (List Char) → Res (Int × List Callback)
  | none => .ok (-1, [])
  | some file => do
    return (0, ← ksymLoop addrSpace (file.length + 1) ⟨List.ofFn junk, none⟩ file)

/-! ### The lines of the file -/

/-- What follows the name of a symbol. -/
def moduleSuffix : Option (List Char) → List Char
  | none => []
  | some m => '\t' :: '[' :: (m ++ [']'])

/-- The text of a line, without its newline. -/
def entryText (digits : List Char) (type : Char) (name : List Char) (module : Option (List Char)) :
    List Char :=
  digits ++ ' ' :: type :: ' ' :: (name ++ moduleSuffix module)

/-- A line `<hex addr> <type> <name>` or `<hex addr> <type> <name>\t[<module>]` that is shorter
    than the array. -/
structure Entry where
  digits : List Char
  type : Char
  name : List Char
  module : Option (List Char)
  digits_ne_nil : digits ≠ []
  digits_hex : ∀ c ∈ digits, digitVal c < 16
  type_ne : type ≠ '\n'
  name_word : ∀ c ∈ name, c ≠ nul ∧ isspace c = false
  module_text : ∀ m ∈ module, nul ∉ m ∧ ']' ∉ m ∧ '\n' ∉ m
  fits : (entryText digits type name module).length + 1 < 2048

namespace Entry

variable (e : Entry)

/-- The line, without its newline. -/
def text : List Char := entryText e.digits e.type e.name e.module

/-- The address; one that does not fit into 64 bits counts as all ones. -/
def addr : Nat := min (digitsValue 16 e.digits) (2 ^ 64 - 1)

/-- The line is one to call back for. -/
def Reported (addrSpace : Nat) : Prop :=
  e.addr ≠ 0 ∧ e.addr ≠ 2 ^ 64 - 1 ∧ addrSpace ≤ e.addr ∧ isData e.type = false

instance (addrSpace : Nat) : Decidable (e.Reported addrSpace) :=
  inferInstanceAs (Decidable (_ ∧ _))

/-- The call for the line, if there is one; `other` is the module of a line that names none. -/
def call (addrSpace : Nat) (other : List Char) : Option Callback :=
  if e.Reported addrSpace then some ⟨e.name, e.module.getD other, e.addr⟩ else none

/-- The call the line asks for. -/
def result (addrSpace : Nat) : Option Callback := e.call addrSpace "kernel".toList

/-- The line is reported, with a module. -/
def SetsModule (addrSpace : Nat) : Prop :=
  e.Reported addrSpace ∧ e.module ≠ none

instance (addrSpace : Nat) : Decidable (e.SetsModule addrSpace) :=
  inferInstanceAs (Decidable (_ ∧ _))

theorem newline_notMem_text : '\n' ∉ e.text := by
  have hdigits : '\n' ∉ e.digits := fun h => absurd (e.digits_hex _ h) (by decide)
  have hname : '\n' ∉ e.name := fun h => absurd (e.name_word _ h).2 (by decide)
  have hsuffix : '\n' ∉ moduleSuffix e.module := by
    cases hm : e.module with
    | none => simp [moduleSuffix]
    | some m => simpa [moduleSuffix] using (e.module_text m hm).2.2
  have htype := e.type_ne.symm
  simp [text, entryText, hdigits, hname, hsuffix, htype]

/-- Everything in front of the name. -/
def front : List Char := e.digits ++ [' ', e.type, ' ']

theorem text_eq : e.text = e.front ++ (e.name ++ moduleSuffix e.module) := by
  simp [text, entryText, front]

end Entry

/-! ### One line -/

section Line

variable (e : Entry) (addrSpace : Nat) (endmod : Option Nat) (rest : List Char)

/-- The number in front of the line is its address. -/
theorem strtoullHex_front : strtoullHex (cstr (e.front ++ rest) 0) = (e.digits.length, e.addr) := by
  have hdigits : ∀ c ∈ e.digits, decide (c ≠ nul) = true := by
    intro c hc
    rw [decide_eq_true_eq]
    rintro rfl
    exact absurd (e.digits_hex _ hc) (by decide)
  have hcstr : cstr (e.front ++ rest) 0
      = e.digits ++ ' ' :: (e.type :: ' ' :: rest).takeWhile (· ≠ nul) := by
    rw [cstr, drop_zero, Entry.front, append_assoc,
      takeWhile_append_of_pos hdigits, append_cancel_left_eq]
    exact takeWhile_cons_of_pos (by decide)
  rw [hcstr]
  exact strtoullHex_digits e.digits_hex e.digits_ne_nil (isBreak_cons.mpr rfl)

/-- The character behind the first blank is the type. -/
theorem readAt_type : readAt (e.front ++ rest) (e.digits.length + 1) = .ok e.type := by
  have hsplit : e.front ++ rest = (e.digits ++ [' ']) ++ e.type :: ' ' :: rest := by
    simp [Entry.front]
  have hlen : e.digits.length + 1 = (e.digits ++ [' ']).length := by simp
  rw [hsplit, hlen, readAt_length]

theorem ksymLine_skip (h : ¬ e.Reported addrSpace) :
    ksymLine addrSpace ⟨e.front ++ rest, endmod⟩
      = .ok (⟨e.front ++ rest, endmod⟩, none) := by
  unfold ksymLine
  simp only [strtoullHex_front, readAt_type, ok_bind, pure_eq_ok]
  split
  · rfl
  rename_i hones
  rw [not_or] at hones
  split
  · rfl
  · next hspace =>
    rw [if_pos]
    by_contra hdata
    exact h ⟨hones.1, hones.2, not_lt.mp hspace, by simpa using hdata⟩

/-- Where the name ends. -/
def nameEnd : Nat := e.front.length + e.name.length

variable {addrSpace} in
/-- The name of a line that is reported is ended with a NUL, and the module looked for behind
    it. -/
theorem ksymLine_reported (h : e.Reported addrSpace) {sep : Char}
    (hsep : isspace sep = true) (c : Char) :
    ksymLine addrSpace ⟨e.front ++ (e.name ++ sep :: c :: rest), endmod⟩
      = ksymModule ⟨e.front ++ (e.name ++ nul :: c :: rest), endmod⟩ e.front.length (nameEnd e + 1)
          e.addr := by
  obtain ⟨hzero, hones, hspace, hdata⟩ := h
  have hsymname : e.digits.length + 1 + 2 = e.front.length := by simp [Entry.front]
  have hword : ∀ x ∈ e.name, (x == nul || isspace x) = false := by
    intro x hx
    obtain ⟨hnul, hblank⟩ := e.name_word x hx
    simp [hnul, hblank]
  have hend := advance_length hword (show (sep == nul || isspace sep) = true by simp [hsep])
    e.front (c :: rest)
  have hlen : e.front.length + e.name.length = (e.front ++ e.name).length := by simp
  have hassoc : ∀ x : Char, e.front ++ (e.name ++ x :: c :: rest)
      = (e.front ++ e.name) ++ x :: c :: rest := fun x => by simp
  have hwrite := writeAt_length (e.front ++ e.name) (c :: rest) sep nul
  have hread := readAt_length (e.front ++ e.name) (c :: rest) nul
  have hmod : advance (fun c => c == nul || !isspace nul)
      ((e.front ++ e.name) ++ nul :: c :: rest) ((e.front ++ e.name).length + 1)
        = .ok ((e.front ++ e.name).length + 1) := by
    have hsplit : (e.front ++ e.name) ++ nul :: c :: rest
        = ((e.front ++ e.name) ++ [nul]) ++ c :: rest := by simp
    have hpos : (e.front ++ e.name).length + 1 = ((e.front ++ e.name) ++ [nul]).length := by
      simp [Nat.add_assoc]
    rw [hsplit, hpos]
    exact advance_stay (by simp [isspace, nul]) _ _
  unfold ksymLine
  simp only [strtoullHex_front, readAt_type, ok_bind, hdata, hsymname, hend]
  rw [if_neg (not_or.mpr ⟨hzero, hones⟩), if_neg (not_lt.mpr hspace), if_neg (by simp), hassoc,
    hlen, hwrite, ok_bind, hread, ok_bind, hmod, ok_bind, nameEnd, hlen, hassoc]

variable {e addrSpace} in
/-- A reported line without a module. -/
theorem ksymLine_plain (h : e.Reported addrSpace) :
    ksymLine addrSpace ⟨e.front ++ (e.name ++ '\n' :: nul :: rest), endmod⟩
      = .ok (⟨e.front ++ (e.name ++ nul :: nul :: rest), endmod⟩,
          some ⟨e.name, if endmod = none then "kernel".toList else [], e.addr⟩) := by
  have hnul : nul ∉ e.name := fun hx => (e.name_word _ hx).1 rfl
  have hsplit : e.front ++ (e.name ++ nul :: nul :: rest)
      = (e.front ++ e.name ++ [nul]) ++ ([] ++ nul :: rest) := by simp
  have hpos : nameEnd e + 1 = (e.front ++ e.name ++ [nul]).length := by
    simp [nameEnd, Nat.add_assoc]
  have hread : readAt (e.front ++ (e.name ++ nul :: nul :: rest)) (nameEnd e + 1) = .ok nul := by
    rw [hsplit, hpos]
    exact readAt_length _ _ _
  have hempty : cstr (e.front ++ (e.name ++ nul :: nul :: rest)) (nameEnd e + 1) = [] := by
    rw [hsplit, hpos]
    exact cstr_length not_mem_nil _ _
  rw [ksymLine_reported e endmod rest h rfl]
  unfold ksymModule
  simp only [hread, ok_bind, hempty, cstr_length hnul, pure_eq_ok]
  rw [if_neg (by decide)]

variable {e addrSpace} in
/-- A reported line with a module. -/
theorem ksymLine_module (h : e.Reported addrSpace) {m : List Char} (hm : e.module = some m) :
    ksymLine addrSpace
        ⟨e.front ++ (e.name ++ '\t' :: '[' :: (m ++ ']' :: rest)), endmod⟩
      = .ok (⟨e.front ++ (e.name ++ nul :: '[' :: (m ++ nul :: rest)),
            some (nameEnd e + 2 + m.length)⟩, some ⟨e.name, m, e.addr⟩) := by
  obtain ⟨hmnul, hbracket, -⟩ := e.module_text m hm
  have hnul : nul ∉ e.name := fun hx => (e.name_word _ hx).1 rfl
  have hsplit : ∀ c : Char, e.front ++ (e.name ++ nul :: '[' :: (m ++ c :: rest))
      = (e.front ++ e.name ++ [nul, '[']) ++ (m ++ c :: rest) := fun c => by simp
  have hpos : nameEnd e + 1 + 1 = (e.front ++ e.name ++ [nul, '[']).length := by
    simp [nameEnd, Nat.add_assoc]
  have hopen : readAt (e.front ++ (e.name ++ nul :: '[' :: (m ++ ']' :: rest))) (nameEnd e + 1)
      = .ok '[' := by
    have hopen' := readAt_length (e.front ++ e.name ++ [nul]) (m ++ ']' :: rest) '['
    simpa [nameEnd, Nat.add_assoc] using hopen'
  have hinside : ∀ x ∈ m, (x == nul || x == ']') = false := by
    intro x hx
    have hx₁ : x ≠ nul := fun h => hmnul (h ▸ hx)
    have hx₂ : x ≠ ']' := fun h => hbracket (h ▸ hx)
    simp [hx₁, hx₂]
  have hend := advance_length hinside (show (']' == nul || ']' == ']') = true by decide)
    (e.front ++ e.name ++ [nul, '[']) rest
  have hsplit' : ∀ c : Char, (e.front ++ e.name ++ [nul, '[']) ++ (m ++ c :: rest)
      = (e.front ++ e.name ++ [nul, '['] ++ m) ++ c :: rest := fun c => by simp
  have hclose := readAt_length (e.front ++ e.name ++ [nul, '['] ++ m) rest ']'
  have hwrite := writeAt_length (e.front ++ e.name ++ [nul, '['] ++ m) rest ']' nul
  have hname : cstr (e.front ++ (e.name ++ nul :: '[' :: (m ++ nul :: rest))) e.front.length
      = e.name := cstr_length hnul _ _
  have hmodname : cstr ((e.front ++ e.name ++ [nul, '[']) ++ (m ++ nul :: rest))
      (e.front ++ e.name ++ [nul, '[']).length = m := cstr_length hmnul _ _
  rw [ksymLine_reported e endmod _ h rfl]
  unfold ksymModule
  simp only [hopen, ok_bind, if_true, pure_eq_ok]
  rw [hpos, hsplit, hend, ok_bind, hsplit', ← length_append, hclose, ok_bind, if_pos (by decide),
    hwrite, ok_bind, ← hsplit', hmodname, ← hsplit, hname]

/-- **One line.**  The call is the one the line asks for, except that a line without a module
    gets an empty name for it when `endmod` is still set; and `endmod` is set from the first
    reported line with a module on. -/
theorem ksymLine_text : ∃ st,
    ksymLine addrSpace ⟨e.text ++ '\n' :: nul :: rest, endmod⟩
        = .ok (st, e.call addrSpace (if endmod = none then "kernel".toList else []))
      ∧ st.line.length = (e.text ++ '\n' :: nul :: rest).length
      ∧ (st.endmod = none ↔ endmod = none ∧ ¬ e.SetsModule addrSpace) := by
  rw [e.text_eq, append_assoc, append_assoc]
  by_cases h : e.Reported addrSpace
  · rw [Entry.call, if_pos h]
    cases hm : e.module with
    | none =>
      have hsets : ¬ e.SetsModule addrSpace := fun hs => hs.2 hm
      refine ⟨_, ksymLine_plain endmod rest h, by simp [moduleSuffix], ?_⟩
      simp [hsets]
    | some m =>
      have hsets : e.SetsModule addrSpace := ⟨h, by simp [hm]⟩
      have hline := ksymLine_module endmod ('\n' :: nul :: rest) h hm
      have htail : moduleSuffix (some m) ++ '\n' :: nul :: rest
          = '\t' :: '[' :: (m ++ ']' :: '\n' :: nul :: rest) := by simp [moduleSuffix]
      rw [htail]
      refine ⟨_, hline, by simp, ?_⟩
      simp [hsets]
  · have hsets : ¬ e.SetsModule addrSpace := fun hs => h hs.1
    rw [Entry.call, if_neg h]
    refine ⟨_, ksymLine_skip e addrSpace endmod _ h, rfl, ?_⟩
    simp [hsets]

end Line

/-! ### The whole file -/

/-- The contents of the file. -/
def fileText (es : List Entry) : List Char := es.flatMap fun e => e.text ++ ['\n']

/-- The calls for the lines `es`; `seen` says whether a line with a module has been reported
    before them. -/
def calls (addrSpace : Nat) : Bool → List Entry → List Callback
  | _, [] => []
  | seen, e :: es =>
    (e.call addrSpace (if seen then [] else "kernel".toList)).toList
      ++ calls addrSpace (seen || decide (e.SetsModule addrSpace)) es

/-- **All lines**, from any contents of the array. -/
theorem ksymLoop_fileText (addrSpace : Nat) (es : List Entry) {fuel : Nat}
    (hfuel : es.length < fuel) {st : Parser} (hline : st.line.length = 2048) :
    ksymLoop addrSpace fuel st (fileText es)
      = .ok (calls addrSpace st.endmod.isSome es) := by
  induction es generalizing fuel st with
  | nil =>
    obtain ⟨fuel, rfl⟩ := Nat.exists_eq_succ_of_ne_zero (Nat.ne_of_gt hfuel)
    rfl
  | cons e es ih =>
    obtain ⟨fuel, rfl⟩ := Nat.exists_eq_succ_of_ne_zero (Nat.ne_zero_of_lt hfuel)
    have hfit : e.text.length + 1 < st.line.length := hline ▸ e.fits
    have hfile : fileText (e :: es) = e.text ++ '\n' :: fileText es := by simp [fileText]
    obtain ⟨st', hstep, hlen, hend⟩ :=
      ksymLine_text e addrSpace st.endmod (st.line.drop (e.text.length + 2))
    have hline' : st'.line.length = 2048 := by
      rw [hlen]
      simp only [length_append, length_cons, List.length_drop]
      omega
    have hseen : st'.endmod.isSome
        = (st.endmod.isSome || decide (e.SetsModule addrSpace)) := by
      rw [Bool.eq_iff_iff, ← not_iff_not]
      simpa using hend
    have hother : (if st.endmod = none then "kernel".toList else [])
        = if st.endmod.isSome = true then [] else "kernel".toList := by
      cases st.endmod <;> rfl
    rw [ksymLoop, hfile, fgets_line e.newline_notMem_text hfit]
    dsimp only
    rw [hstep, ok_bind]
    rw [ih (Nat.lt_of_succ_lt_succ hfuel) hline', hseen, hother]
    rfl

/-- **Which calls are made.** -/
theorem eachKsym_fileText (addrSpace : Nat) (junk : Fin 2048 → Char) (es : List Entry) :
    eachKsym addrSpace junk (some (fileText es))
      = .ok (0, calls addrSpace false es) := by
  have hfuel : es.length < (fileText es).length + 1 := by
    have hlines : es.length ≤ (fileText es).length := by
      induction es with
      | nil => exact Nat.zero_le _
      | cons e es ih =>
        simp only [fileText, flatMap_cons, length_append, length_cons] at ih ⊢
        omega
    omega
  rw [eachKsym, ksymLoop_fileText addrSpace es hfuel (length_ofFn)]
  rfl

/-! ### The calls the lines ask for -/

section Asked

variable {addrSpace : Nat}

/-- A line gets the call it asks for, unless it is reported without a module where the module
    is lost. -/
theorem call_eq_result_iff {e : Entry} {seen : Bool} :
    e.call addrSpace (if seen then [] else "kernel".toList) = e.result addrSpace
      ↔ (seen = true → e.Reported addrSpace → e.module ≠ none) := by
  unfold Entry.result Entry.call
  by_cases h : e.Reported addrSpace
  · cases seen with
    | false => exact iff_of_true rfl fun hseen => absurd hseen Bool.false_ne_true
    | true => cases hm : e.module <;> simp [h]
  · simp [h]

/-- The two calls for a line are there or not there together, so they can be compared line by
    line. -/
theorem call_append_eq_iff {e : Entry} {other : List Char} {cs cs' : List Callback} :
    (e.call addrSpace other).toList ++ cs = (e.result addrSpace).toList ++ cs'
      ↔ e.call addrSpace other = e.result addrSpace ∧ cs = cs' := by
  unfold Entry.result Entry.call
  by_cases h : e.Reported addrSpace <;> simp [h]

theorem calls_eq_iff {seen : Bool} {es : List Entry} :
    calls addrSpace seen es = es.filterMap (·.result addrSpace)
      ↔ (seen = true → ∀ e ∈ es, e.Reported addrSpace → e.module ≠ none)
        ∧ es.Pairwise fun e e' =>
            e.SetsModule addrSpace → e'.Reported addrSpace → e'.module ≠ none := by
  induction es generalizing seen with
  | nil => simp [calls]
  | cons e es ih =>
    have hfilter : (e :: es).filterMap (·.result addrSpace)
        = (e.result addrSpace).toList ++ es.filterMap (·.result addrSpace) := by
      cases hr : e.result addrSpace <;> simp [hr]
    rw [calls, hfilter, call_append_eq_iff, call_eq_result_iff, ih, pairwise_cons]
    simp only [Bool.or_eq_true, decide_eq_true_eq, forall_mem_cons]
    constructor
    · rintro ⟨hhead, htail, hpairs⟩
      exact ⟨fun hs => ⟨hhead hs, htail (.inl hs)⟩, fun e' he' hsets => htail (.inr hsets) e' he',
        hpairs⟩
    · rintro ⟨hseen, hsets, hpairs⟩
      refine ⟨fun hs => (hseen hs).1, ?_, hpairs⟩
      rintro (hs | hs)
      · exact (hseen hs).2
      · exact fun e' he' => hsets e' he' hs

end Asked

/-- **The calls are those the lines ask for, one after the other, exactly if no line without a
    module is reported after a line with one.** -/
theorem eachKsym_eq_iff (addrSpace : Nat) (junk : Fin 2048 → Char) (es : List Entry) :
    eachKsym addrSpace junk (some (fileText es))
        = .ok (0, es.filterMap (·.result addrSpace))
      ↔ es.Pairwise fun e e' =>
          e.SetsModule addrSpace → e'.Reported addrSpace → e'.module ≠ none := by
  rw [eachKsym_fileText, Except.ok.injEq, Prod.mk.injEq, calls_eq_iff]
  simp

/-- A function of a module, and one of the kernel. -/
def mixedEntries : List Entry :=
  [⟨"ffffffffc0000000".toList, 't', "foo".toList, some "mod".toList, by decide,
      all_iff_forall_prop.mp (by decide), by decide, all_iff_forall_prop.mp (by decide),
      by decide +kernel, by decide⟩,
    ⟨"ffffffff81000000".toList, 'T', "bar".toList, none, by decide,
      all_iff_forall_prop.mp (by decide), by decide, all_iff_forall_prop.mp (by decide),
      by decide, by decide⟩]

/-- The function of the kernel is reported with an empty module. -/
theorem eachKsym_after_module :
    fileText mixedEntries
        = "ffffffffc0000000 t foo\t[mod]\nffffffff81000000 T bar\n".toList
      ∧ mixedEntries.filterMap (·.result 0xffffffffffffff)
        = [⟨"foo".toList, "mod".toList, 0xffffffffc0000000⟩,
            ⟨"bar".toList, "kernel".toList, 0xffffffff81000000⟩]
      ∧ eachKsym 0xffffffffffffff (fun _ => nul) (some (fileText mixedEntries))
        = .ok (0, [⟨"foo".toList, "mod".toList, 0xffffffffc0000000⟩,
            ⟨"bar".toList, [], 0xffffffff81000000⟩]) := by
  refine ⟨by decide, by rfl, ?_⟩
  rw [eachKsym_fileText]
  rfl

end Bcc.Syms
