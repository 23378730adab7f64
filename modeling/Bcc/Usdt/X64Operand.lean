import Bcc.Text.Decimal
import Bcc.Usdt.X64Calls

namespace Bcc.Usdt.X64

open CText List

/-!
# USDT — the x86-64 operands a compiler writes

* `Operand` — the operands of the SDT notes as a syntax of their own.  Numbers are canonical
  decimals that fit their field, registers are entries of the table `registers`;
* `parse_render` — wherever the rendering of an operand stands in a format string, before white
  space or the end, `parse` accepts it, stores exactly its components and leaves the cursor after
  the white space.
-/

/-! ### Syntax -/

/-- A number that fits an `int`. -/
abbrev Int32Value := { n : Int // -2 ^ 31 ≤ n ∧ n < 2 ^ 31 }

/-- A number that fits a `long long` or an `unsigned long long`, with its sign. -/
abbrev Int64Value := { n : Int // n.natAbs < 2 ^ 64 }

/-- An entry of the register table. -/
abbrev RegRef := { e : String × Register × Int // e ∈ registers }

/-- A C identifier. -/
abbrev Ident := { l : List Char //
  ((peek l).isAlpha = true ∨ peek l = '_') ∧ ∀ c ∈ l, isIdentChar c = true }

/-- The operand sizes. -/
abbrev Size := { n : Int // n ∈ [1, 2, 4, 8, -1, -2, -4, -8] }

/-- A displacement after a symbol: a sign character and a magnitude. -/
structure SymbolOffset where
  neg : Bool
  mag : Nat
  fits : mag < 2 ^ 31 ∨ (neg = true ∧ mag = 2 ^ 31)

/-- An operand of the supported grammar, without its size. -/
inductive Operand where
  /-- `$n` -/
  | const (n : Int64Value)
  /-- `%reg` -/
  | reg (r : RegRef)
  /-- `(%base)`, with an optional displacement in front and an optional index register, that
      may have a scale, behind the base register -/
  | mem (off : Option Int32Value) (base : RegRef) (index : Option (RegRef × Option Int32Value))
  /-- `ident(%rip)`, `ident+off(%rip)` or `ident-off(%rip)` -/
  | symbol (ident : Ident) (off : Option SymbolOffset)
  /-- `off+ident(%rip)` -/
  | offSymbol (off : Int32Value) (ident : Ident)

/-- The instruction pointer. -/
def rip : RegRef := ⟨("rip", .rip, 8), by decide⟩

namespace RegRef

/-- `%name`. -/
def text (r : RegRef) : List Char := '%' :: r.1.1.toList

/-- The normalised name. -/
def norm (r : RegRef) : String := regToName r.1.2.1

/-- The size of the register. -/
def size (r : RegRef) : Int := r.1.2.2

end RegRef

namespace SymbolOffset

/-- `+off` or `-off`. -/
def text (o : SymbolOffset) : List Char :=
  (if o.neg then '-' else '+') :: Nat.toDigits 10 o.mag

/-- The displacement. -/
def value (o : SymbolOffset) : Int := if o.neg then -(o.mag : Int) else o.mag

end SymbolOffset

/-- The text of an optional part. -/
def optText {α : Type} (f : α → List Char) : Option α → List Char
  | none => []
  | some x => f x

@[simp] theorem optText_none {α : Type} (f : α → List Char) : optText f none = [] := rfl
@[simp] theorem optText_some {α : Type} (f : α → List Char) (x : α) :
    optText f (some x) = f x := rfl

/-- `(%base)`, `(%base,%index)` or `(%base,%index,scale)`. -/
def addressText (base : RegRef) (index : Option (RegRef × Option Int32Value)) : List Char :=
  '(' :: base.text
    ++ optText (fun i => ',' :: i.1.text ++ optText (fun s => ',' :: decimal s.1) i.2) index
    ++ [')']

namespace Operand

/-- The rendering of an operand without size. -/
def body : Operand → List Char
  | const n => '$' :: decimal n.1
  | reg r => r.text
  | mem off base index => optText (fun o => decimal o.1) off ++ addressText base index
  | symbol ident off => ident.1 ++ optText SymbolOffset.text off ++ addressText rip none
  | offSymbol off ident => decimal off.1 ++ '+' :: ident.1 ++ addressText rip none

/-- The rendering of an operand: the optional size prefix `N@` and the body. -/
def render (size : Option Size) (op : Operand) : List Char :=
  optText (fun n => decimal n.1 ++ ['@']) size ++ op.body

/-- The argument an operand stands for.  Without a size prefix the size is that of the base
    register; a constant has none. -/
def argument (size : Option Size) : Operand → Argument
  | const n => { Argument.empty with
      argSize := size.map (·.1)
      constant := some (toInt64 n.1) }
  | reg r => { Argument.empty with
      argSize := some ((size.map (·.1)).getD r.size)
      baseRegisterName := some r.norm }
  | mem off base index => { Argument.empty with
      argSize := some ((size.map (·.1)).getD base.size)
      derefOffset := some ((off.map (·.1)).getD 0)
      baseRegisterName := some base.norm
      indexRegisterName := index.map (·.1.norm)
      scale := index.bind (fun i => i.2.map (·.1)) }
  | symbol ident off => { Argument.empty with
      argSize := some ((size.map (·.1)).getD 8)
      derefOffset := some ((off.map SymbolOffset.value).getD 0)
      derefIdent := some (String.ofList ident.1)
      baseRegisterName := some "ip" }
  | offSymbol off ident => { Argument.empty with
      argSize := some ((size.map (·.1)).getD 8)
      derefOffset := some off.1
      derefIdent := some (String.ofList ident.1)
      baseRegisterName := some "ip" }

end Operand

/-! ### The lexical parts are read back -/

variable {n : Nat} {rest : List Char}

/-- Every register name is found in the table, and is alphanumeric. -/
theorem registers_lookup : ∀ e ∈ registers,
    normalizeRegister e.1 = some (regToName e.2.1, e.2.2) ∧
      e.1.toList.all Char.isAlphanum = true := by
  decide +kernel

theorem registerAt_text (r : RegRef) (hr : NumberEnd rest) :
    registerAt (r.text ++ rest) = some (r.text.length, r.norm, r.size) := by
  obtain ⟨hfind, hall⟩ := registers_lookup r.1 r.2
  have htw : (r.1.1.toList ++ rest).takeWhile Char.isAlphanum = r.1.1.toList := by
    rw [takeWhile_append_of_pos (all_eq_true.mp hall)]
    cases rest with
    | nil => simp
    | cons c cs => rw [takeWhile_cons_of_neg (by simpa [NumberEnd] using hr), append_nil]
  unfold registerAt RegRef.text
  simp only [cons_append, peek_cons, tail_cons, if_true, htw, String.ofList_toList, hfind,
    Option.map_some, length_cons, RegRef.norm, RegRef.size]
  rw [Nat.add_comm]

variable (v : Int32Value)

theorem intAt_decimal (hr : NumberEnd rest) (result : Option Int) :
    intAt (decimal v.1 ++ rest) result = some v.1 := by
  have hpos : 0 < (decimal v.1).length := by
    unfold decimal; split <;> simp [Nat.length_toDigits_pos]
  rw [intAt, strtol_decimal v.1 hr v.2.1 v.2.2, if_pos hpos, toInt32_eq_self v.2.1 v.2.2]

theorem strtol_used_decimal (hr : NumberEnd rest) :
    (strtol (decimal v.1 ++ rest)).1 = (decimal v.1).length := by
  rw [strtol_decimal v.1 hr v.2.1 v.2.2]

theorem intAt_symbolOffset (o : SymbolOffset) (hr : NumberEnd rest) (result : Option Int) :
    (strtol (o.text ++ rest)).1 = o.text.length ∧ intAt (o.text ++ rest) result = some o.value := by
  have hsign : (if o.neg then '-' else '+') = '-' ∨ (if o.neg then '-' else '+') = '+' := by
    cases o.neg <;> simp
  have hneg : ((if o.neg then '-' else '+') == '-') = o.neg := by cases o.neg <;> rfl
  have hscan := scan_sign_toDigits hsign o.mag hr
  rw [hneg] at hscan
  have hfits := o.fits
  have hstr : strtol (o.text ++ rest) = (o.text.length, o.value) := by
    unfold strtol SymbolOffset.text
    rw [cons_append, hscan]
    simp only [Scan.value, SymbolOffset.value, length_cons, Prod.mk.injEq, true_and]
    cases hb : o.neg
    · omega
    · omega
  have hlo : -2 ^ 31 ≤ o.value ∧ o.value < 2 ^ 31 := by
    unfold SymbolOffset.value
    cases hb : o.neg
    · simp only [hb, Bool.false_eq_true, false_and, or_false] at hfits
      omega
    · simp only [if_true]; omega
  refine ⟨by rw [hstr], ?_⟩
  rw [intAt, hstr, if_pos (by simp [SymbolOffset.text]), toInt32_eq_self hlo.1 hlo.2]

/-- The first character of an identifier. -/
theorem ident_cons (i : Ident) : ∃ c cs, i.1 = c :: cs ∧ (c.isAlpha || c == '_') = true := by
  obtain ⟨l, hhead, _⟩ := i
  cases l with
  | nil => exact absurd hhead (by decide)
  | cons c cs => exact ⟨c, cs, rfl, by simpa using hhead⟩

theorem identAt_ident (i : Ident) (hr : isIdentChar (peek rest) = false) (result : Option String) :
    identLen (i.1 ++ rest) = i.1.length ∧
      identAt (i.1 ++ rest) result = some (String.ofList i.1) := by
  obtain ⟨c, cs, hc, hhead⟩ := ident_cons i
  have hall : ∀ d ∈ cs, isIdentChar d = true := fun d hd =>
    i.2.2 d (by rw [hc]; exact mem_cons_of_mem _ hd)
  have htw : (cs ++ rest).takeWhile isIdentChar = cs := by
    rw [takeWhile_append_of_pos hall]
    cases rest with
    | nil => simp
    | cons d ds => rw [takeWhile_cons_of_neg (by simpa using hr), append_nil]
  have hlen : identLen (i.1 ++ rest) = i.1.length := by
    rw [hc]
    unfold identLen
    simp only [cons_append, peek_cons, hhead, if_true, tail_cons, htw, length_cons]
    omega
  refine ⟨hlen, ?_⟩
  rw [identAt, hlen, if_pos (by rw [hc]; simp), take_left]

/-! ### Addresses and operands are read back -/

variable {c : Char} (n : Nat) (size : Option Size) (op : Operand)

theorem closeAt_text (d : Argument) : closeAt n (')' :: rest) d = .stop (n + 1) d := rfl

theorem indexAt_text (i : RegRef × Option Int32Value) (d : Argument) (hs : d.scale = none) :
    indexAt n (i.1.text ++ (optText (fun s => ',' :: decimal s.1) i.2 ++ ')' :: rest)) d
      = .stop (n + i.1.text.length + (optText (fun s => ',' :: decimal s.1) i.2).length + 1)
        { d with indexRegisterName := some i.1.norm, scale := i.2.map (·.1) } := by
  obtain ⟨r, sc⟩ := i
  cases sc with
  | none =>
    rw [indexAt, registerThen, registerAt_text r (by rfl)]
    simp only [drop_left]
    rw [hs]
    rfl
  | some v =>
    simp only [optText_some]
    rw [cons_append, indexAt, registerThen, registerAt_text r (by rfl)]
    simp only [drop_left, peek_cons, if_true]
    rw [← drop_drop, drop_left, drop_one, tail_cons, scaleAt,
      strtol_used_decimal v (by rfl), drop_left, closeAt_text, intAt_decimal v (by rfl)]
    simp only [length_cons]
    congr 1; omega

theorem addressAt_text (base : RegRef) (index : Option (RegRef × Option Int32Value)) (d : Argument)
    (hi : d.indexRegisterName = none) (hs : d.scale = none) :
    addressAt n (addressText base index ++ rest) d
      = .stop (n + (addressText base index).length)
        { withBase d base.norm base.size with
          indexRegisterName := index.map (·.1.norm)
          scale := index.bind (fun i => i.2.map (·.1)) } := by
  unfold addressText
  simp only [cons_append, append_assoc]
  rw [addressAt, peek_cons, if_pos rfl, tail_cons, baseAt, registerThen]
  cases index with
  | none =>
    simp only [optText_none, nil_append]
    rw [registerAt_text base (by rfl)]
    simp only [drop_left, peek_cons]
    rw [if_neg (by decide), closeAt_text]
    simp only [Option.map_none, Option.bind_none, length_cons, length_append, length_nil]
    rw [← hi, ← hs]
    congr 1; omega
  | some i =>
    simp only [optText_some, cons_append, append_assoc]
    rw [registerAt_text base (by rfl)]
    simp only [drop_left, peek_cons, if_true]
    rw [← drop_drop, drop_left, drop_one, tail_cons]
    rw [indexAt_text _ _ _ (show (withBase d base.norm base.size).scale = none from hs)]
    simp only [length_cons, length_append, length_nil]
    congr 1; omega

/-- A number starts with a digit or a minus sign. -/
theorem decimal_cons (n : Int) : ∃ c cs, decimal n = c :: cs ∧ (c.isDigit || c == '-') = true := by
  unfold decimal
  split
  · exact ⟨'-', _, rfl, rfl⟩
  · obtain ⟨c, cs, hc, hd⟩ := toDigits_eq_cons n.natAbs
    exact ⟨c, cs, hc, by simp [hd]⟩

/-- What starts with a digit or a minus sign is read with the displacement first. -/
theorem exprAt_number {cs : List Char} (hc : (c.isDigit || c == '-') = true) (n : Nat)
    (d : Argument) : exprAt n (c :: cs) d = offsetFirstAt n (c :: cs) d := by
  have h1 : c ≠ '$' := by rintro rfl; cases hc
  have h2 : c ≠ '%' := by rintro rfl; cases hc
  simp [exprAt, h1, h2, hc]

/-- No character starts both a number and a symbol or an address. -/
theorem not_number_of_symbol (hc : (c.isAlpha || c == '_' || c == '(') = true) :
    (c.isDigit || c == '-') = false := by
  rw [Bool.or_eq_false_iff]
  refine ⟨?_, by rw [beq_eq_false_iff_ne]; rintro rfl; cases hc⟩
  simp only [Bool.or_eq_true, beq_iff_eq] at hc
  rcases hc with (halpha | rfl) | rfl
  · exact isDigit_eq_false_of_isAlpha halpha
  · rfl
  · rfl

/-- What starts with a letter, an underscore or a parenthesis is read symbol first. -/
theorem exprAt_symbol {cs : List Char} (hc : (c.isAlpha || c == '_' || c == '(') = true) (n : Nat)
    (d : Argument) : exprAt n (c :: cs) d = identFirstAt n (c :: cs) d := by
  have h1 : c ≠ '$' := by rintro rfl; cases hc
  have h2 : c ≠ '%' := by rintro rfl; cases hc
  simp [exprAt, h1, h2, not_number_of_symbol hc]

/-- The start of the argument record that `parse_1` hands to `parse_expr`. -/
def sized : Argument := { Argument.empty with argSize := size.map (·.1) }

theorem peek_addressText (base : RegRef) (index : Option (RegRef × Option Int32Value))
    (rest : List Char) : peek (addressText base index ++ rest) = '(' := rfl

theorem exprAt_const (v : Int64Value) (hr : IsBreak rest) :
    exprAt n ((Operand.const v).body ++ rest) (sized size)
      = .stop (n + (Operand.const v).body.length) ((Operand.const v).argument size) := by
  have hu := strtoull_decimal v.1 hr.numberEnd v.2
  have hpos : 0 < (decimal v.1).length := by
    obtain ⟨c, cs, hc, _⟩ := decimal_cons v.1
    rw [hc]; simp
  simp only [Operand.body, cons_append, exprAt, peek_cons, if_true, tail_cons, hu, hpos,
    length_cons]
  congr 1; omega

theorem exprAt_reg (r : RegRef) (hr : IsBreak rest) :
    exprAt n ((Operand.reg r).body ++ rest) (sized size)
      = .stop (n + (Operand.reg r).body.length) ((Operand.reg r).argument size) := by
  have hreg := registerAt_text r hr.numberEnd
  simp only [Operand.body, exprAt] at hreg ⊢
  rw [hreg]
  rfl

theorem exprAt_mem (off : Option Int32Value) (base : RegRef)
    (index : Option (RegRef × Option Int32Value)) :
    exprAt n ((Operand.mem off base index).body ++ rest) (sized size)
      = .stop (n + (Operand.mem off base index).body.length)
        ((Operand.mem off base index).argument size) := by
  cases off with
  | none =>
    simp only [Operand.body, optText_none, nil_append]
    have hcons : addressText base index ++ rest = '(' :: (addressText base index ++ rest).tail :=
      rfl
    have hid : identLen (addressText base index ++ rest) = 0 := rfl
    rw [hcons, exprAt_symbol (by decide), ← hcons, identFirstAt]
    simp only [hid, drop_zero, Nat.add_zero]
    rw [addressAt_text n base index _ rfl rfl]
    rfl
  | some v =>
    simp only [Operand.body, optText_some, append_assoc]
    obtain ⟨c, cs, hc, hd⟩ := decimal_cons v.1
    rw [hc, cons_append, exprAt_number hd, ← cons_append, ← hc, offsetFirstAt,
      strtol_used_decimal v (by rfl), drop_left, intAt_decimal v (by rfl), peek_addressText,
      if_neg (by decide), addressAt_text _ base index _ rfl rfl]
    simp only [length_append]
    congr 1; omega

theorem exprAt_symbolOperand (ident : Ident) (off : Option SymbolOffset) :
    exprAt n ((Operand.symbol ident off).body ++ rest) (sized size)
      = .stop (n + (Operand.symbol ident off).body.length)
        ((Operand.symbol ident off).argument size) := by
  obtain ⟨c, cs, hc, hd⟩ := ident_cons ident
  have hd' : (c.isAlpha || c == '_' || c == '(') = true := by rw [hd]; rfl
  cases off with
  | none =>
    simp only [Operand.body, optText_none, append_nil, append_assoc]
    have hid := @identAt_ident (addressText rip none ++ rest) ident (by rfl) none
    rw [hc, cons_append, exprAt_symbol hd', ← cons_append, ← hc, identFirstAt, hid.1, drop_left,
      addressAt_text _ rip none _ rfl rfl, length_append]
    simp only [sized, Argument.empty, hid.2]
    congr 1
  | some o =>
    simp only [Operand.body, optText_some, append_assoc]
    have hsign : peek (o.text ++ (addressText rip none ++ rest)) = '+' ∨
        peek (o.text ++ (addressText rip none ++ rest)) = '-' := by
      unfold SymbolOffset.text
      cases o.neg <;> simp
    have hnid : isIdentChar (peek (o.text ++ (addressText rip none ++ rest))) = false := by
      rcases hsign with h | h <;> rw [h] <;> rfl
    have hid := identAt_ident ident hnid none
    have hoff := @intAt_symbolOffset (addressText rip none ++ rest) o (by rfl) (some 0)
    rw [hc, cons_append, exprAt_symbol hd', ← cons_append, ← hc, identFirstAt, hid.1,
      drop_left, if_pos hsign]
    simp only [hoff.1, hoff.2]
    rw [← drop_drop, drop_left, drop_left, addressAt_text _ rip none _ rfl rfl]
    simp only [sized, Argument.empty, hid.2, length_append]
    congr 1; omega

theorem exprAt_offSymbol (v : Int32Value) (ident : Ident) :
    exprAt n ((Operand.offSymbol v ident).body ++ rest) (sized size)
      = .stop (n + (Operand.offSymbol v ident).body.length)
        ((Operand.offSymbol v ident).argument size) := by
  obtain ⟨c, cs, hc, hd⟩ := decimal_cons v.1
  simp only [Operand.body, append_assoc, cons_append]
  have hid := @identAt_ident (addressText rip none ++ rest) ident (by rfl) none
  have hdrop : ∀ t : List Char, (decimal v.1 ++ '+' :: t).drop ((decimal v.1).length + 1) = t := by
    intro t
    rw [← drop_drop, drop_left]; rfl
  rw [hc, cons_append, exprAt_number hd, ← cons_append, ← hc, offsetFirstAt,
    strtol_used_decimal v (by rfl), drop_left, intAt_decimal v (by rfl), peek_cons, if_pos rfl]
  simp only [← drop_drop, hdrop, hid.1]
  simp only [sized, Argument.empty, hid.2, Option.isNone_some, Bool.false_eq_true, if_false]
  rw [drop_left, addressAt_text _ rip none _ rfl rfl]
  simp only [length_append, length_cons]
  congr 1; omega

/-- Every operand is read back from its body. -/
theorem exprAt_body (hr : IsBreak rest) :
    exprAt n (op.body ++ rest) (sized size) = .stop (n + op.body.length) (op.argument size) := by
  cases op with
  | const v => exact exprAt_const n size v hr
  | reg r => exact exprAt_reg n size r hr
  | mem off base index => exact exprAt_mem n size off base index
  | symbol ident off => exact exprAt_symbolOperand n size ident off
  | offSymbol off ident => exact exprAt_offSymbol n size off ident

/-- The size prefix is taken for what it is. -/
theorem sizeAt_size (t : List Char) :
    sizeAt (decimal v.1 ++ '@' :: t) = (decimal v.1).length + 1 := by
  have hu := strtol_used_decimal v (show NumberEnd ('@' :: t) by rfl)
  obtain ⟨c, cs, hc, hd⟩ := decimal_cons v.1
  have hp : peek (decimal v.1 ++ '@' :: t) = c := by rw [hc]; rfl
  have hpos : 0 < (decimal v.1).length := by rw [hc]; simp
  unfold sizeAt
  rw [hu, hp, hd, if_pos (by simp [hpos])]

/-- A displacement is not taken for a size. -/
theorem sizeAt_offset {x : Char} (hx : x.isAlphanum = false) (hat : x ≠ '@') (t : List Char) :
    sizeAt (decimal v.1 ++ x :: t) = 0 := by
  have hu := strtol_used_decimal v (show NumberEnd (x :: t) from hx)
  unfold sizeAt
  rw [hu, if_neg (by simp [hat])]

/-- Only an operand that starts with a number can have a size. -/
theorem sizeAt_of_peek {r : List Char} (h : ((peek r).isDigit || peek r == '-') = false) :
    sizeAt r = 0 := by
  unfold sizeAt
  rw [h]; rfl

theorem sizeAt_body : sizeAt (op.body ++ rest) = 0 := by
  cases op with
  | const v | reg r => exact sizeAt_of_peek (by rfl)
  | mem off base index =>
    cases off with
    | none => exact sizeAt_of_peek (by rfl)
    | some v =>
      simp only [Operand.body, append_assoc]
      exact sizeAt_offset v (by decide) (by decide) _
  | symbol ident off =>
    obtain ⟨c, cs, hc, hd⟩ := ident_cons ident
    apply sizeAt_of_peek
    simp only [Operand.body, hc, cons_append, peek_cons]
    exact not_number_of_symbol (by rw [hd]; rfl)
  | offSymbol v ident =>
    simp only [Operand.body, append_assoc]
    exact sizeAt_offset v (by decide) (by decide) _

/-- Every size fits an `int`. -/
def Size.toInt32Value (n : Size) : Int32Value :=
  ⟨n.1, by
    have : ∀ m ∈ ([1, 2, 4, 8, -1, -2, -4, -8] : List Int), -2 ^ 31 ≤ m ∧ m < 2 ^ 31 := by decide
    exact this n.1 n.2⟩

/-- The rendering of an operand is read as that operand. -/
theorem operandAt_render (hr : IsBreak rest) :
    operandAt (op.render size ++ rest) Argument.empty
      = .stop (op.render size).length (op.argument size) := by
  cases size with
  | none =>
    have hrender : op.render none = op.body := rfl
    rw [hrender, operandAt, if_pos (sizeAt_body op), show Argument.empty = sized none from rfl,
      exprAt_body 0 none op hr, Nat.zero_add]
  | some n =>
    have hsz := sizeAt_size n.toInt32Value (op.body ++ rest)
    have hint :=
      intAt_decimal n.toInt32Value (show NumberEnd ('@' :: (op.body ++ rest)) by rfl) none
    simp only [Size.toInt32Value] at hsz hint
    simp only [Operand.render, optText_some, append_assoc, cons_append, nil_append]
    rw [operandAt, hsz, if_neg (by omega), hint, ← drop_drop, drop_left, drop_one, tail_cons,
      show { Argument.empty with argSize := some n.1 } = sized (some n) from rfl,
      exprAt_body _ (some n) op hr]
    simp only [length_append, length_cons]
    congr 1; omega

/-- An operand has a non-empty rendering. -/
theorem length_render_pos : 0 < (op.render size).length := by
  have h := operandAt_exact (op.render size ++ []) Argument.empty rfl
  rw [operandAt_render size op isBreak_nil] at h
  exact h.1

/-- **Round trip.**  Wherever an operand is rendered in a format string, before white space
    or the end of the string, `parse` accepts it, fills a fresh argument with exactly the
    operand's components and leaves the cursor after the following white space. -/
theorem parse_render (pre rest : List Char) (s : CStr)
    (hs : s.chars = pre ++ (op.render size ++ rest)) (hrest : IsBreak rest) :
    parse s Argument.empty pre.length
      = .ok ⟨.accepted, op.argument size,
          pre.length + (op.render size).length + (rest.takeWhile isspace).length⟩ := by
  have hlen : s.length = pre.length + ((op.render size).length + rest.length) := by
    rw [CStr.length, hs, length_append, length_append]
  have hpos := length_render_pos size op
  have hdrop : s.chars.drop pre.length = op.render size ++ rest := by rw [hs, drop_left]
  have hdrop' : s.chars.drop (pre.length + (op.render size).length) = rest := by
    rw [← drop_drop, hdrop, drop_left]
  have hop := operandAt_render size op hrest
  rw [← hdrop] at hop
  rw [parse_of_stop (by omega) hop (by omega), hdrop', if_pos hrest, acceptAt_eq (by omega), hdrop']

theorem parse_render_indexed :
    parse (CStr.ofString "8@$5 -4@-16(%rbp,%r12d,4) %ax") Argument.empty 5
      = .ok ⟨.accepted,
          { Argument.empty with
            argSize := some (-4)
            derefOffset := some (-16)
            baseRegisterName := some "bp"
            indexRegisterName := some "r12"
            scale := some 4 }, 26⟩ := by
  have h := parse_render (some ⟨-4, by decide⟩)
    (.mem (some ⟨-16, by decide⟩) ⟨("rbp", .bp, 8), by decide⟩
      (some (⟨("r12d", .r12, 4), by decide⟩, some ⟨4, by decide⟩)))
    "8@$5 ".toList " %ax".toList (CStr.ofString "8@$5 -4@-16(%rbp,%r12d,4) %ax")
    (by decide) (.inr (by decide))
  exact h

end Bcc.Usdt.X64
