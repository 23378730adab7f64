import Bcc.Text.Hex

namespace CText

open List

/-!
# C text — a buffer that is parsed in place

C code that reads a file line by line often keeps one array for all lines, and writes a NUL behind
each part it wants as a string.  The array is the list of all its characters, so what an earlier
line has left is there too; a pointer is a position, and an access outside is a fault.

* `fgets_line` — a line in the array;
* `strtoullHex_digits` — the hexadecimal number that is read.
-/

variable {buf a b : List Char} {c d : Char}

/-- `*p`. -/
def readAt (buf : List Char) (p : Nat) : Res Char :=
  match buf[p]? with
  | some c => .ok c
  | none => .error .outOfBounds

/-- `*p = c`. -/
def writeAt (buf : List Char) (p : Nat) (c : Char) : Res (List Char) :=
  if p < buf.length then .ok (buf.set p c) else .error .outOfBounds

/-- How far `while (!stop(*p)) p++` moves, from the characters at and behind `p`. -/
def steps (stop : Char → Bool) : List Char → Res Nat
  | [] => .error .outOfBounds
  | c :: cs => do
    if stop c then return 0
    return (← steps stop cs) + 1

/-- `while (!stop(*p)) p++`. -/
def advance (stop : Char → Bool) (buf : List Char) (p : Nat) : Res Nat := do
  return p + (← steps stop (buf.drop p))

/-- The string at `p`, up to the first NUL. -/
def cstr (buf : List Char) (p : Nat) : List Char := (buf.drop p).takeWhile (· ≠ nul)

/-! ### A buffer in two parts -/

theorem readAt_length (a b : List Char) (c : Char) : readAt (a ++ c :: b) a.length = .ok c := by
  simp [readAt]

theorem writeAt_length (a b : List Char) (c d : Char) :
    writeAt (a ++ c :: b) a.length d = .ok (a ++ d :: b) := by
  simp [writeAt]

theorem steps_append {stop : Char → Bool} (ha : ∀ x ∈ a, stop x = false) (hd : stop d = true) :
    steps stop (a ++ d :: b) = .ok a.length := by
  induction a with
  | nil => simp [steps, hd]
  | cons x a ih =>
    obtain ⟨hx, ha⟩ := forall_mem_cons.mp ha
    simp [steps, hx, ih ha]

/-- The loop stops at the first character that stops it. -/
theorem advance_length {stop : Char → Bool} {s : List Char} (hs : ∀ x ∈ s, stop x = false)
    (hd : stop d = true) (a b : List Char) :
    advance stop (a ++ (s ++ d :: b)) a.length = .ok (a.length + s.length) := by
  simp [advance, steps_append hs hd]

/-- The loop stops at once. -/
theorem advance_stay {stop : Char → Bool} (hd : stop d = true) (a b : List Char) :
    advance stop (a ++ d :: b) a.length = .ok a.length := by
  simp [advance, steps, hd]

theorem cstr_length {s : List Char} (hs : nul ∉ s) (a b : List Char) :
    cstr (a ++ (s ++ nul :: b)) a.length = s := by
  have hall : ∀ x ∈ s, decide (x ≠ nul) = true := by
    intro x hx
    rw [decide_eq_true_eq]
    rintro rfl
    exact hs hx
  rw [cstr, drop_left, takeWhile_append_of_pos hall]
  simp

/-! ### Reading a line -/

/-- A text up to its first newline, that included. -/
def upToNewline : List Char → List Char
  | [] => []
  | c :: cs => if c = '\n' then [c] else c :: upToNewline cs

/-- `fgets(buf, sizeof(buf), f)`: the contents of the buffer and what is left of the file, or
    `none` at its end.  A line that does not fit is cut. -/
def fgets (buf file : List Char) : Option (List Char × List Char) :=
  let got := upToNewline (file.take (buf.length - 1))
  if file = [] then none
  else some (got ++ nul :: buf.drop (got.length + 1), file.drop got.length)

theorem upToNewline_append {l : List Char} (hl : '\n' ∉ l) (rest : List Char) :
    upToNewline (l ++ '\n' :: rest) = l ++ ['\n'] := by
  induction l with
  | nil => rfl
  | cons c l ih =>
    rw [mem_cons, not_or] at hl
    simp [upToNewline, Ne.symm hl.1, ih hl.2]

/-- A line that fits is read whole. -/
theorem fgets_line {l : List Char} (hl : '\n' ∉ l) (hfit : l.length + 1 < buf.length)
    (rest : List Char) :
    fgets buf (l ++ '\n' :: rest)
      = some (l ++ '\n' :: nul :: buf.drop (l.length + 2), rest) := by
  have htake : (l ++ '\n' :: rest).take (buf.length - 1)
      = l ++ '\n' :: rest.take (buf.length - 1 - (l.length + 1)) := by
    obtain ⟨k, hk⟩ : ∃ k, buf.length - 1 = l.length + (k + 1) :=
      ⟨buf.length - l.length - 2, by omega⟩
    rw [hk, take_length_add_append, take_succ_cons,
      show l.length + (k + 1) - (l.length + 1) = k by omega]
  unfold fgets
  rw [htake, upToNewline_append hl]
  simp

/-! ### Hexadecimal numbers -/

/-- Base `16`: the marker `0x` may be there, if a digit follows. -/
def hexRadix (r : List Char) : Nat × Nat :=
  if peek r = '0' ∧ (peek r.tail = 'x' ∨ peek r.tail = 'X') ∧ digitVal (peek r.tail.tail) < 16
  then (16, 2) else (16, 0)

/-- `strtoull(r, &endp, 16)`: characters consumed and the value.  A negative number is negated
    modulo `2 ^ 64`; a magnitude out of range gives `ULLONG_MAX`. -/
def strtoullHex (r : List Char) : Nat × Nat :=
  let m := scan hexRadix r
  (m.used, if 2 ^ 64 ≤ m.mag then 2 ^ 64 - 1 else (m.value % 2 ^ 64).toNat)

/-- Digits are no marker. -/
theorem hexRadix_digits {ds e : List Char} (hds : ∀ c ∈ ds, digitVal c < 16) (hne : ds ≠ [])
    (he : IsBreak e) : hexRadix (ds ++ e) = (16, 0) := by
  have hx : ¬ (peek (ds ++ e).tail = 'x' ∨ peek (ds ++ e).tail = 'X') := by
    obtain ⟨c, cs, rfl⟩ := exists_cons_of_ne_nil hne
    rw [cons_append, tail_cons, peek_append_break (by decide) (by decide) cs he,
      peek_append_break (by decide) (by decide) cs he]
    cases cs with
    | nil => decide
    | cons d cs =>
      have hd := hds d (by simp)
      rintro (h | h) <;> rw [show d = _ from h] at hd <;> exact absurd hd (by decide)
  unfold hexRadix
  rw [if_neg (fun h => hx h.2.1)]

/-- A digit is neither white space nor a sign. -/
theorem scan_eq_scanUnsigned {radix : List Char → Nat × Nat} {c : Char} (hc : digitVal c < 16)
    (cs : List Char) : scan radix (c :: cs) = (scanUnsigned radix (c :: cs)).after 0 := by
  have hspace : isspace c = false := by
    cases h : isspace c with
    | false => rfl
    | true =>
      have := digit_spaceless 16 (by decide) c h
      simp [hc] at this
  have hminus : c ≠ '-' := by rintro rfl; exact absurd hc (by decide)
  have hplus : c ≠ '+' := by rintro rfl; exact absurd hc (by decide)
  simp [scan, scanSigned, hspace, hminus, hplus]

/-- **Digits are read back**, in front of white space; a number that does not fit as
    `ULLONG_MAX`. -/
theorem strtoullHex_digits {ds e : List Char} (hds : ∀ c ∈ ds, digitVal c < 16) (hne : ds ≠ [])
    (he : IsBreak e) :
    strtoullHex (ds ++ e) = (ds.length, min (digitsValue 16 ds) (2 ^ 64 - 1)) := by
  have htake : (ds ++ e).takeWhile (fun c => decide (digitVal c < 16)) = ds := by
    rw [takeWhile_append_break (digit_spaceless 16 (by decide)) ds he]
    simpa using hds
  have hscan : scanUnsigned hexRadix (ds ++ e) = ⟨ds.length, false, digitsValue 16 ds⟩ := by
    unfold scanUnsigned
    rw [hexRadix_digits hds hne he]
    simp [htake, hne]
  obtain ⟨c, cs, rfl⟩ := exists_cons_of_ne_nil hne
  have hafter : scan hexRadix (c :: cs ++ e)
      = ⟨(c :: cs).length, false, digitsValue 16 (c :: cs)⟩ := by
    rw [cons_append, scan_eq_scanUnsigned (hds c (by simp)), ← cons_append, hscan]
    simp [Scan.after]
  unfold strtoullHex
  rw [hafter]
  refine Prod.ext rfl ?_
  dsimp only [Scan.value]
  split
  · omega
  · simp only [Bool.false_eq_true, if_false]
    omega

end CText
