import Bcc.Usdt.Argument
import Mathlib.Logic.Relation

namespace Bcc.Usdt

open CText List

/-!
# USDT — the base class of the argument parsers

* `parseInt`, `errorReturn` — helpers of `ArgumentParser`, which walks `arg_` by `cur_pos_`;
* `parseLoop` — `Location::Location` calls `parse` until the string is used up.
-/

/-- How a call of `parse` ends.  `threw` is a C++ exception out of `std::stoi` or
    `std::stoull`, which nobody catches. -/
inductive Status where
  | accepted
  | rejected
  | threw
  deriving DecidableEq, Repr

/-- The state after a call of `parse`. -/
structure ParseOut where
  status : Status
  dest : Argument
  curPos : Nat
  deriving DecidableEq, Repr

/-! ### Cursor movements -/

/-- `skip_whitespace_from`: the new cursor. -/
def skipWhitespaceFrom (s : CStr) (pos : Nat) : Res Nat := s.skipWhile isspace pos

/-- `skip_until_whitespace_from`: the new cursor. -/
def skipUntilWhitespaceFrom (s : CStr) (pos : Nat) : Res Nat :=
  s.skipWhile (fun c => !isspace c) pos

/-- `error_return`: the new cursor.  (Its first argument is only printed.) -/
def errorReturn (s : CStr) (skipStart : Nat) : Res Nat := do
  let c ← s.read skipStart
  -- make sure at least one character is skipped
  let skipStart := if isspace c then skipStart + 1 else skipStart
  skipUntilWhitespaceFrom s skipStart

/-- `return error_return(…)` out of `parse`. -/
def rejectAt (s : CStr) (dest : Argument) (skipStart : Nat) : Res ParseOut := do
  let pos ← errorReturn s skipStart
  return ⟨.rejected, dest, pos⟩

/-- `skip_whitespace_from(pos); return true;` -/
def acceptAt (s : CStr) (dest : Argument) (pos : Nat) : Res ParseOut := do
  let pos ← skipWhitespaceFrom s pos
  return ⟨.accepted, dest, pos⟩

/-- `done()`.  The cursor is a `Nat` here: it is never negative. -/
def done (s : CStr) (curPos : Nat) : Res Bool := do
  let c ← s.read curPos
  return c == nul

/-- `parse_number(pos, optional<int> *)`: the end position, and the number if one was read. -/
def parseInt (s : CStr) (pos : Nat) (result : Option Int) : Res (Nat × Option Int) := do
  let r ← s.text pos
  let (used, number) := strtol r
  return (pos + used, if 0 < used then some (toInt32 number) else result)

/-- `parse_number(pos, optional<long long> *)`. -/
def parseLongLong (s : CStr) (pos : Nat) (result : Option Int) : Res (Nat × Option Int) := do
  let r ← s.text pos
  let (used, number) := strtoull r
  return (pos + used, if 0 < used then some number else result)

/-! ### Facts about the movements -/

variable {s : CStr} {pos : Nat}

/-- `strlen` minus the cursor is the length of the remaining text. -/
theorem length_drop (s : CStr) (pos : Nat) : (s.chars.drop pos).length = s.length - pos :=
  List.length_drop

/-- Where `error_return` leaves the cursor, relative to the text it starts at. -/
def errorSkip (r : List Char) : Nat :=
  if isspace (peek r) then 1 + (r.tail.takeWhile (fun c => !isspace c)).length
  else (r.takeWhile (fun c => !isspace c)).length

theorem errorSkip_le (r : List Char) : errorSkip r ≤ r.length := by
  unfold errorSkip
  split
  · rename_i h
    cases r with
    | nil => cases h
    | cons c cs =>
      have : (cs.takeWhile (fun c => !isspace c)).length ≤ cs.length :=
        (takeWhile_sublist _).length_le
      simp only [tail_cons, length_cons]
      omega
  · exact (takeWhile_sublist _).length_le

/-- Inside the string `error_return` skips at least one character. -/
theorem errorSkip_pos {r : List Char} (h : r ≠ []) : 0 < errorSkip r := by
  obtain ⟨c, cs, rfl⟩ := exists_cons_of_ne_nil h
  unfold errorSkip
  by_cases hc : isspace c = true
  · simp only [peek_cons, hc, if_true]; omega
  · simp [hc]

/-- `error_return` past the NUL reads memory that is not part of the string. -/
theorem errorReturn_of_length_lt (h : s.length < pos) :
    errorReturn s pos = .error .outOfBounds := by
  rw [errorReturn, CStr.read_of_length_lt h]; rfl

theorem rejectAt_of_length_lt (dest : Argument) (h : s.length < pos) :
    rejectAt s dest pos = .error .outOfBounds := by
  rw [rejectAt, errorReturn_of_length_lt h]; rfl

section Inside

variable (h : pos ≤ s.length)
include h

theorem done_eq : done s pos = .ok (decide (pos = s.length)) := by
  rw [done, CStr.read_eq h]
  show Except.ok _ = _
  congr 1
  rw [Bool.eq_iff_iff, beq_iff_eq, decide_eq_true_eq, CStr.peek_drop_eq_nul, CStr.drop_eq_nil_iff h]

theorem skipWhitespaceFrom_eq :
    skipWhitespaceFrom s pos = .ok (pos + ((s.chars.drop pos).takeWhile isspace).length) :=
  CStr.skipWhile_eq _ h

theorem skipUntilWhitespaceFrom_eq :
    skipUntilWhitespaceFrom s pos
      = .ok (pos + ((s.chars.drop pos).takeWhile (fun c => !isspace c)).length) :=
  CStr.skipWhile_eq _ h

theorem errorReturn_eq : errorReturn s pos = .ok (pos + errorSkip (s.chars.drop pos)) := by
  rw [errorReturn, CStr.read_eq h]
  show skipUntilWhitespaceFrom s _ = _
  unfold errorSkip
  by_cases hc : isspace (peek (s.chars.drop pos)) = true
  · -- the character at `pos` is white space, so `pos` is not the NUL
    have hlt : pos + 1 ≤ s.length := by
      by_contra hge
      have : s.chars.drop pos = [] := (CStr.drop_eq_nil_iff h).mpr (by omega)
      rw [this] at hc
      cases hc
    rw [if_pos hc, if_pos hc, skipUntilWhitespaceFrom_eq hlt, tail_drop]
    congr 1; omega
  · rw [if_neg hc, if_neg hc, skipUntilWhitespaceFrom_eq h]

theorem parseInt_eq (result : Option Int) :
    parseInt s pos result = .ok (pos + (strtol (s.chars.drop pos)).1,
      if 0 < (strtol (s.chars.drop pos)).1 then some (toInt32 (strtol (s.chars.drop pos)).2)
      else result) := by
  rw [parseInt, CStr.text_eq h]; rfl

theorem parseLongLong_eq (result : Option Int) :
    parseLongLong s pos result = .ok (pos + (strtoull (s.chars.drop pos)).1,
      if 0 < (strtoull (s.chars.drop pos)).1 then some (strtoull (s.chars.drop pos)).2
      else result) := by
  rw [parseLongLong, CStr.text_eq h]; rfl

/-- A rejection inside the string moves the cursor on, and never out of the string. -/
theorem rejectAt_eq (dest : Argument) :
    rejectAt s dest pos = .ok ⟨.rejected, dest, pos + errorSkip (s.chars.drop pos)⟩ := by
  rw [rejectAt, errorReturn_eq h]; rfl

theorem acceptAt_eq (dest : Argument) :
    acceptAt s dest pos
      = .ok ⟨.accepted, dest, pos + ((s.chars.drop pos).takeWhile isspace).length⟩ := by
  rw [acceptAt, skipWhitespaceFrom_eq h]; rfl

theorem add_errorSkip_le : pos + errorSkip (s.chars.drop pos) ≤ s.length := by
  have := errorSkip_le (s.chars.drop pos)
  rw [length_drop] at this
  omega

end Inside

theorem drop_ne_nil (h : pos < s.length) : s.chars.drop pos ≠ [] := by
  rw [Ne, CStr.drop_eq_nil_iff (le_of_lt h)]
  omega

/-! ### The parts of an operand's text -/

/-- The text of the size: what stands before the first `@`. -/
def sizeText (t : List Char) : List Char := t.takeWhile (· != '@')

/-- The text of the operand: what stands behind the first `@`. -/
def operandText (t : List Char) : List Char := (t.dropWhile (· != '@')).drop 1

theorem sizeText_append {w t₁ : List Char} (hw : '@' ∉ w) : sizeText (w ++ '@' :: t₁) = w := by
  have hall : ∀ x ∈ w, (x != '@') = true := by
    intro x hx
    rw [bne_iff_ne]
    rintro rfl
    exact hw hx
  rw [sizeText, takeWhile_append_of_pos hall, takeWhile_cons_of_neg (by simp), append_nil]

theorem operandText_append {w t₁ : List Char} (hw : '@' ∉ w) :
    operandText (w ++ '@' :: t₁) = t₁ := by
  have hsplit := takeWhile_append_dropWhile (p := (· != '@')) (l := w ++ '@' :: t₁)
  rw [show (w ++ '@' :: t₁).takeWhile (· != '@') = w from sizeText_append hw] at hsplit
  rw [operandText, append_cancel_left hsplit]
  rfl

/-- The text up to the next space. -/
def token (t : List Char) : List Char := t.takeWhile (· != ' ')

theorem token_append {w e : List Char} (hw : ' ' ∉ w) (he : e = [] ∨ peek e = ' ') :
    token (w ++ e) = w := by
  have hall : ∀ x ∈ w, (x != ' ') = true := by
    intro x hx
    rw [bne_iff_ne]
    rintro rfl
    exact hw hx
  have hnil : e.takeWhile (· != ' ') = [] := by
    cases e with
    | nil => rfl
    | cons c cs =>
      have hc : c = ' ' := by simpa using he
      simp [hc]
  rw [token, takeWhile_append_of_pos hall, hnil, append_nil]

theorem mem_token {w e : List Char} {x : Char} (hw : ' ' ∉ w) (hx : x ≠ ' ') :
    x ∈ token (w ++ x :: e) := by
  have hall : ∀ y ∈ w, (y != ' ') = true := by
    intro y hy
    rw [bne_iff_ne]
    rintro rfl
    exact hw hy
  rw [token, takeWhile_append_of_pos hall, takeWhile_cons_of_pos (by simpa using hx)]
  simp

/-! ### The loop of `Location::Location` -/

/-- The loop of the constructor: the arguments it collects, or `none` if `parse` throws.  One
    unit of fuel pays for one call of `parse`. -/
def parseLoop (parse : Nat → Res ParseOut) (s : CStr) : Nat → Nat → Res (Option (List Argument))
  | fuel, curPos => do
    if ← done s curPos then return some []
    else match fuel with
      | 0 => throw .outOfFuel
      | fuel + 1 =>
        let out ← parse curPos
        match out.status with
        | .accepted =>
            let args ← parseLoop parse s fuel out.curPos
            return args.map (out.dest :: ·)
        | .rejected => parseLoop parse s fuel out.curPos
        | .threw => return none

/-- One turn of the loop moves the cursor from `p` to `q`. -/
def LoopStep (parse : Nat → Res ParseOut) (s : CStr) (p q : Nat) : Prop :=
  p < s.length ∧ ∃ out, parse p = .ok out ∧ out.status ≠ .threw ∧ out.curPos = q

/-- The loop, started at `0`, comes to stand at `p`. -/
def Reaches (parse : Nat → Res ParseOut) (s : CStr) : Nat → Prop :=
  Relation.ReflTransGen (LoopStep parse s) 0

/-- A call at `p` reads only inside the string, and leaves the cursor further on and still
    inside the string. -/
def Advances (parse : Nat → Res ParseOut) (s : CStr) (p : Nat) : Prop :=
  ∃ out, parse p = .ok out ∧ p < out.curPos ∧ out.curPos ≤ s.length

variable {parse : Nat → Res ParseOut}

/-- If every call the loop makes advances, the loop never leaves the string. -/
theorem Reaches.le_length (hadv : ∀ p, Reaches parse s p → p < s.length → Advances parse s p)
    {p : Nat} (hp : Reaches parse s p) : p ≤ s.length := by
  induction hp with
  | refl => exact Nat.zero_le _
  | tail hp hstep _ =>
    obtain ⟨hlt, out, hout, _, rfl⟩ := hstep
    obtain ⟨out', hout', _, hle⟩ := hadv _ hp hlt
    rw [hout] at hout'
    cases hout'
    exact hle

/-- **Termination rule.**  If every call the loop makes advances, then from any position it
    reaches, as many calls as there are characters left are enough. -/
theorem parseLoop_ok_of_advances
    (hadv : ∀ p, Reaches parse s p → p < s.length → Advances parse s p) :
    ∀ (fuel p : Nat), Reaches parse s p → s.length - p ≤ fuel →
      ∃ r, parseLoop parse s fuel p = .ok r := by
  intro fuel
  induction fuel with
  | zero =>
    intro p hp hf
    have hle := hp.le_length hadv
    have : p = s.length := by omega
    rw [parseLoop, done_eq hle]
    simp [this]
  | succ fuel ih =>
    intro p hp hf
    have hle := hp.le_length hadv
    rw [parseLoop, done_eq hle]
    by_cases hlen : p = s.length
    · exact ⟨some [], by simp [hlen]⟩
    have hlt : p < s.length := by omega
    obtain ⟨out, hout, hgt, hin⟩ := hadv p hp hlt
    simp only [hlen, bind, Except.bind, hout]
    cases hst : out.status with
    | threw => exact ⟨none, rfl⟩
    | rejected =>
      have hnext : Reaches parse s out.curPos :=
        hp.tail ⟨hlt, out, hout, by simp [hst], rfl⟩
      exact ih _ hnext (by omega)
    | accepted =>
      have hnext : Reaches parse s out.curPos :=
        hp.tail ⟨hlt, out, hout, by simp [hst], rfl⟩
      obtain ⟨r, hr⟩ := ih _ hnext (by omega)
      exact ⟨r.map (out.dest :: ·), by simp [hr]⟩

end Bcc.Usdt
