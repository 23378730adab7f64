import Bcc.Text.Outcome
import Mathlib.Data.List.TakeWhile

namespace CText

open List

/-!
# C text — NUL-terminated strings and checked reads

* `CStr` — the characters before the NUL;
* `CStr.read`, `CStr.skipWhile` — code walks a string by index and relies on the NUL to stop, and a
  read behind it is a fault.

The character classes are those of `<ctype.h>` in the C locale.  `isdigit`, `isalpha` and `isalnum`
agree with Lean's; only `isspace` differs (it also holds of the vertical tab and the form feed).
-/

/-- The terminating NUL. -/
def nul : Char := '\x00'

/-- `isspace` of the C locale. -/
def isspace (c : Char) : Bool :=
  c == ' ' || c == '\t' || c == '\n' || c == '\x0b' || c == '\x0c' || c == '\r'

/-- A white-space character is one of the six of the C locale. -/
theorem isspace_cases {c : Char} (h : isspace c = true) :
    c = ' ' ∨ c = '\t' ∨ c = '\n' ∨ c = '\x0b' ∨ c = '\x0c' ∨ c = '\r' := by
  simpa [isspace, or_assoc] using h

/-- A white-space character satisfies `p` only if one of the six does. -/
theorem eq_false_of_isspace {p : Char → Bool} {c : Char}
    (hp : [' ', '\t', '\n', '\x0b', '\x0c', '\r'].all (fun c => !p c) = true)
    (h : isspace c = true) : p c = false := by
  simp only [all_cons, all_nil, Bool.and_true, Bool.and_eq_true, Bool.not_eq_true'] at hp
  obtain ⟨h1, h2, h3, h4, h5, h6⟩ := hp
  rcases isspace_cases h with rfl | rfl | rfl | rfl | rfl | rfl <;> assumption

/-- The first character of a text; the NUL when the text is empty. -/
def peek : List Char → Char
  | [] => nul
  | c :: _ => c

@[simp] theorem peek_nil : peek [] = nul := rfl
@[simp] theorem peek_cons (c : Char) (cs : List Char) : peek (c :: cs) = c := rfl

/-- A text that starts with `x`, for an `x` that is not NUL, has a first character. -/
theorem eq_cons_of_peek {x : Char} {r : List Char} (h : peek r = x) (hx : x ≠ nul) :
    r = x :: r.tail := by
  cases r with
  | nil => exact absurd h.symm hx
  | cons c cs => rw [show c = x from h]; rfl

/-- There is room for one more behind a text in front of such a character. -/
theorem succ_le_of_peek {x : Char} {r : List Char} {k : Nat} (h : peek (r.drop k) = x)
    (hx : x ≠ nul) : k + 1 ≤ r.length := by
  by_contra hlt
  rw [drop_eq_nil_of_le (by omega)] at h
  exact hx h.symm

/-- A NUL-terminated string: the characters before the terminator, none of which is NUL. -/
structure CStr where
  chars : List Char
  noNul : nul ∉ chars

namespace CStr

/-- `strlen`: also the index of the terminating NUL. -/
def length (s : CStr) : Nat := s.chars.length

/-- `s[pos]`; reading past the NUL is a fault. -/
def read (s : CStr) (pos : Nat) : Res Char :=
  if pos ≤ s.length then .ok (s.chars.getD pos nul) else .error .outOfBounds

/-- The C string at `s + pos`, as its characters. -/
def text (s : CStr) (pos : Nat) : Res (List Char) :=
  if pos ≤ s.length then .ok (s.chars.drop pos) else .error .outOfBounds

/-- `while (p(s[pos])) pos++`.  No class used with it holds of NUL, so the loop stops at
    the terminator at the latest. -/
def skipWhile (s : CStr) (p : Char → Bool) (pos : Nat) : Res Nat := do
  let r ← s.text pos
  return pos + (r.takeWhile p).length

/-- The substring of `len` characters at `pos`, as `std::string(s + pos, len)`. -/
def substr (s : CStr) (pos len : Nat) : String :=
  String.ofList ((s.chars.drop pos).take len)

/-- The string whose characters are those of a Lean string without NUL. -/
def ofString (t : String) (h : nul ∉ t.toList := by decide) : CStr := ⟨t.toList, h⟩

/-! ### Reads inside the string -/

variable {s : CStr} {pos : Nat}

/-- Up to the NUL a read succeeds, and yields the first character of the remaining text. -/
theorem read_eq (h : pos ≤ s.length) : s.read pos = .ok (peek (s.chars.drop pos)) := by
  rw [read, if_pos h, getD_eq_getElem?_getD, ← head?_drop]
  cases s.chars.drop pos <;> rfl

/-- Past the NUL a read faults. -/
theorem read_of_length_lt (h : s.length < pos) : s.read pos = .error .outOfBounds :=
  if_neg (by omega)

theorem text_eq (h : pos ≤ s.length) : s.text pos = .ok (s.chars.drop pos) := if_pos h

/-- Up to the NUL the loop ends after the longest run of characters in the class. -/
theorem skipWhile_eq (p : Char → Bool) (h : pos ≤ s.length) :
    s.skipWhile p pos = .ok (pos + ((s.chars.drop pos).takeWhile p).length) := by
  rw [skipWhile, text_eq h]; rfl

/-- No character of the string is NUL, so a suffix starts with NUL only if it is empty. -/
theorem peek_drop_eq_nul (s : CStr) (pos : Nat) :
    peek (s.chars.drop pos) = nul ↔ s.chars.drop pos = [] := by
  cases hr : s.chars.drop pos with
  | nil => simp
  | cons c cs =>
    have hc : c ∈ s.chars := mem_of_mem_drop (hr ▸ mem_cons_self)
    have : c ≠ nul := fun he => s.noNul (he ▸ hc)
    simp [this]

theorem drop_eq_nil_iff (h : pos ≤ s.length) : s.chars.drop pos = [] ↔ pos = s.length := by
  rw [List.drop_eq_nil_iff, length]
  have : pos ≤ s.chars.length := h
  omega

/-- Skipping never leaves the string. -/
theorem skip_le_length (p : Char → Bool) (h : pos ≤ s.length) :
    pos + ((s.chars.drop pos).takeWhile p).length ≤ s.length := by
  have h1 : ((s.chars.drop pos).takeWhile p).length ≤ (s.chars.drop pos).length :=
    (takeWhile_sublist p).length_le
  have h2 : (s.chars.drop pos).length = s.length - pos := List.length_drop
  omega

end CStr

end CText
