import Bcc.Text.Hex

namespace CText

open List

/-!
# C text — format strings and `printf`

* `directives` — a format string is read into directives once.  Only the conversions below are
  known; a format with another one has no meaning;
* `printf_eq` — what is printed.
-/

/-- The length modifiers `hh`, `h`, none and `l`. -/
inductive Length where
  | hh
  | h
  | int
  | l
  deriving DecidableEq, Repr

/-- The bits of the integer that a modifier stands for. -/
def Length.bits : Length → Nat
  | .hh => 8
  | .h => 16
  | .int => 32
  | .l => 64

/-- What a format string is made of. -/
inductive Directive where
  /-- A character that stands for itself; for `scanf`, white space stands for any white space. -/
  | literal (c : Char)
  /-- `%x` -/
  | hex (len : Length)
  /-- `%i` -/
  | int (len : Length)
  /-- `%s` -/
  | str
  /-- `%[^c]` -/
  | upTo (c : Char)
  /-- `%n` -/
  | count
  deriving DecidableEq, Repr

/-- How far a directive has been read: nothing of it, or the part of a conversion. -/
inductive Mode where
  | text
  | percent
  | modified (len : Length)
  | bracket
  | caret
  | set (c : Char)
  deriving DecidableEq, Repr

/-- The next character of a format: it goes on with a directive, or ends it. -/
def Mode.next : Mode → Char → Option (Mode × Option Directive)
  | .text, c => if c = '%' then some (.percent, none) else some (.text, some (.literal c))
  | .percent, 'h' => some (.modified .h, none)
  | .percent, 'l' => some (.modified .l, none)
  | .percent, 'x' => some (.text, some (.hex .int))
  | .percent, 'i' => some (.text, some (.int .int))
  | .percent, 's' => some (.text, some .str)
  | .percent, 'n' => some (.text, some .count)
  | .percent, '[' => some (.bracket, none)
  | .modified .h, 'h' => some (.modified .hh, none)
  | .modified len, 'x' => some (.text, some (.hex len))
  | .modified len, 'i' => some (.text, some (.int len))
  | .bracket, '^' => some (.caret, none)
  | .caret, c => some (.set c, none)
  | .set c, ']' => some (.text, some (.upTo c))
  | _, _ => none

/-- The directives of the rest of a format string. -/
def directivesFrom : Mode → List Char → Option (List Directive)
  | m, [] => if m = .text then some [] else none
  | m, c :: f => do
    let (m', d) ← m.next c
    let ds ← directivesFrom m' f
    return d.toList ++ ds

/-- The directives of a format string. -/
def directives (f : List Char) : Option (List Directive) := directivesFrom .text f

theorem directivesFrom_append {m : Mode} {f g : List Char} {ds es : List Directive}
    (hf : directivesFrom m f = some ds) (hg : directives g = some es) :
    directivesFrom m (f ++ g) = some (ds ++ es) := by
  induction f generalizing m ds with
  | nil =>
    -- A format whose directives are known ends outside of a conversion.
    obtain ⟨rfl, rfl⟩ : m = .text ∧ [] = ds := by simpa [directivesFrom] using hf
    exact hg
  | cons c f ih =>
    simp only [directivesFrom, Option.bind_eq_bind, Option.bind_eq_some_iff, Option.pure_def,
      Option.some.injEq] at hf
    obtain ⟨⟨m', d⟩, hnext, ds', hds', rfl⟩ := hf
    simp [directivesFrom, hnext, ih hds']

theorem directives_append {f g : List Char} {ds es : List Directive}
    (hf : directives f = some ds) (hg : directives g = some es) :
    directives (f ++ g) = some (ds ++ es) :=
  directivesFrom_append hf hg

theorem directives_literals {f : List Char} (h : '%' ∉ f) :
    directives f = some (f.map .literal) := by
  induction f with
  | nil => rfl
  | cons c f ih =>
    obtain ⟨hc, hf⟩ : '%' ≠ c ∧ '%' ∉ f := by simpa using h
    have hone : directives [c] = some [.literal c] := by
      simp [directives, directivesFrom, Mode.next, Ne.symm hc]
    exact directives_append hone (ih hf)

/-! ### `printf` -/

/-- An argument of `printf`: a number, or the bytes that start where a pointer points. -/
inductive Value where
  | num (n : Nat)
  | bytes (cs : List Char)
  deriving DecidableEq, Repr

/-- The string in front of the first NUL; reading it fails if there is none. -/
def cString (cs : List Char) : Res (List Char) :=
  if nul ∈ cs then .ok (cs.takeWhile (· ≠ nul)) else .error .outOfBounds

/-- The text of a format with its arguments. -/
def printf : List Directive → List Value → Res (List Char)
  | [], _ => .ok []
  | .literal c :: ds, args => (c :: ·) <$> printf ds args
  | .hex len :: ds, .num n :: args => (hex (n % 2 ^ len.bits) ++ ·) <$> printf ds args
  | .str :: ds, .bytes cs :: args => do
    let s ← cString cs
    (s ++ ·) <$> printf ds args
  | _, _ => .error .absentValue

/-- The directives take the arguments and print the text. -/
def Prints (ds : List Directive) (args : List Value) (text : List Char) : Prop :=
  ∀ ds' args', printf (ds ++ ds') (args ++ args') = (text ++ ·) <$> printf ds' args'

theorem map_append_append {α : Type} (x : Res (List α)) (a b : List α) :
    (a ++ ·) <$> (b ++ ·) <$> x = (a ++ b ++ ·) <$> x := by
  cases x <;> simp

namespace Prints

variable {ds ds' : List Directive} {args args' : List Value} {text text' : List Char}

theorem nil : Prints [] [] [] := by
  intro ds args
  cases h : printf ds args <;> simp [h]

theorem append (h : Prints ds args text) (h' : Prints ds' args' text') :
    Prints (ds ++ ds') (args ++ args') (text ++ text') := by
  intro ds'' args''
  rw [append_assoc, append_assoc, h, h', map_append_append]

theorem literal (c : Char) : Prints [.literal c] [] [c] := fun _ _ => rfl

theorem literals (cs : List Char) : Prints (cs.map .literal) [] cs := by
  induction cs with
  | nil => exact nil
  | cons c cs ih => exact (literal c).append ih

theorem hex {len : Length} {n : Nat} (h : n < 2 ^ len.bits) :
    Prints [.hex len] [.num n] (hex n) := by
  intro ds args
  rw [singleton_append, singleton_append, printf, Nat.mod_eq_of_lt h]

theorem str {cs : List Char} (h : nul ∈ cs) :
    Prints [.str] [.bytes cs] (cs.takeWhile (· ≠ nul)) := by
  intro ds args
  rw [singleton_append, singleton_append, printf, cString, if_pos h]
  rfl

/-- All of a format. -/
theorem printf_eq (h : Prints ds args text) : printf ds args = .ok text := by
  have hall := h [] []
  rw [append_nil, append_nil] at hall
  rw [hall]
  exact congrArg Except.ok (append_nil text)

end Prints

end CText
