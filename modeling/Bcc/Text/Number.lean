import Bcc.Text.CString
import Mathlib.Algebra.Order.Ring.Int

namespace CText

open List

/-!
# C text — reading numbers

`strtol`, `strtoull` and the C++ wrappers `std::stoi`, `std::stoull`, as functions from
the text they are handed to the number of characters they consume and the value.

* `strtol`, `strtoull`, `stoi`, `stoull` — the library functions, over `scan`;
* `strtol_numberChar` — which characters a number is made of;
* `scan_append_end` — what cannot continue a number (`NumberEnd`) has no influence on it.
-/

/-! ### Text that ends a token -/

/-- `e` is empty or starts with white space: a token that precedes it ends there. -/
def IsBreak (e : List Char) : Prop := e = [] ∨ isspace (peek e) = true

instance (e : List Char) : Decidable (IsBreak e) := inferInstanceAs (Decidable (_ ∨ _))

theorem isBreak_nil : IsBreak [] := Or.inl rfl

variable {c : Char}

theorem isBreak_cons {cs : List Char} : IsBreak (c :: cs) ↔ isspace c = true := by
  simp [IsBreak]

/-- A class of characters without white space. -/
def Spaceless (p : Char → Bool) : Prop := ∀ c, isspace c = true → p c = false

theorem spaceless_of_all {p : Char → Bool}
    (hp : [' ', '\t', '\n', '\x0b', '\x0c', '\r'].all (fun c => !p c) = true) : Spaceless p :=
  fun _ => eq_false_of_isspace hp

variable {e : List Char}

/-- A run of non-white-space characters ends at a break. -/
theorem takeWhile_append_break {p : Char → Bool} (hp : Spaceless p) (t : List Char)
    (he : IsBreak e) : (t ++ e).takeWhile p = t.takeWhile p := by
  have hnil : e.takeWhile p = [] := by
    cases e with
    | nil => rfl
    | cons c cs => simp [hp c (isBreak_cons.mp he)]
  rw [takeWhile_append, hnil]
  split
  · rename_i h
    rw [append_nil, (takeWhile_sublist p).eq_of_length h]
  · rfl

/-- The first character of a text is `x` before a break exactly if it is without it, for
    any `x` that is neither white space nor NUL. -/
theorem peek_append_break {x : Char} (hx : isspace x = false) (hx' : x ≠ nul) (t : List Char)
    (he : IsBreak e) : peek (t ++ e) = x ↔ peek t = x := by
  cases t with
  | cons c cs => exact Iff.rfl
  | nil =>
    cases e with
    | nil => exact Iff.rfl
    | cons c cs =>
      have hc : c ≠ x := by
        rintro rfl
        exact absurd (isBreak_cons.mp he) (by simp [hx])
      simp [hc, hx'.symm]

/-- Same, for a class of characters in place of a single one. -/
theorem class_peek_append_break {p : Char → Bool} (hp : Spaceless p) (hn : p nul = false)
    (t : List Char) (he : IsBreak e) : p (peek (t ++ e)) = p (peek t) := by
  cases t with
  | cons c cs => rfl
  | nil =>
    cases e with
    | nil => rfl
    | cons c cs => simp [hp c (isBreak_cons.mp he), hn]

/-! ### Digits and radix -/

/-- The value of a digit in any base up to 36; 36 for a character that is no digit. -/
def digitVal (c : Char) : Nat :=
  if c.isDigit then c.toNat - '0'.toNat
  else if c.isLower then c.toNat - 'a'.toNat + 10
  else if c.isUpper then c.toNat - 'A'.toNat + 10
  else 36

/-- No letter is a digit. -/
theorem isDigit_eq_false_of_isAlpha (h : c.isAlpha = true) : c.isDigit = false := by
  change (decide (c.val ≥ 'A'.val ∧ c.val ≤ 'Z'.val)
    || decide (c.val ≥ 'a'.val) && decide (c.val ≤ 'z'.val)) = true at h
  simp only [Bool.or_eq_true, Bool.and_eq_true, decide_eq_true_eq, UInt32.le_iff_toNat_le] at h
  simp only [Char.isDigit, Bool.and_eq_false_iff, decide_eq_false_iff_not, UInt32.le_iff_toNat_le]
  have e1 : '9'.val.toNat = 57 := rfl
  have e2 : 'A'.val.toNat = 65 := rfl
  have e3 : 'a'.val.toNat = 97 := rfl
  omega

theorem digitVal_of_isDigit (h : c.isDigit = true) : digitVal c = c.toNat - '0'.toNat := if_pos h

theorem digitVal_lt_ten : digitVal c < 10 ↔ c.isDigit = true := by
  unfold digitVal
  by_cases h : c.isDigit = true
  · have hb : c.toNat ≤ 57 := by
      simp only [Char.isDigit, Bool.and_eq_true, decide_eq_true_eq] at h
      exact h.2
    have h0 : '0'.toNat = 48 := rfl
    simp only [h, if_true, iff_true]
    omega
  · simp only [h]
    split
    · rename_i h'; cases h'
    · split
      · simp
      · split <;> simp

theorem digitVal_eq_of_not_isAlphanum (h : c.isAlphanum = false) : digitVal c = 36 := by
  have hc : (c.isAlpha || c.isDigit) = false := h
  have hcase : (c.isUpper || c.isLower) = false := (Bool.or_eq_false_iff.mp hc).1
  obtain ⟨hupper, hlower⟩ := Bool.or_eq_false_iff.mp hcase
  simp [digitVal, hupper, hlower, (Bool.or_eq_false_iff.mp hc).2]

/-- The number a run of digits writes. -/
def digitsValue (base : Nat) (ds : List Char) : Nat :=
  ds.foldl (fun acc c => base * acc + digitVal c) 0

variable (radix : List Char → Nat × Nat) (r : List Char)

/-- Base `0`: the radix, and how many characters its marker takes.  `0x` counts as a
    marker only if a hexadecimal digit follows; otherwise the `0` is a number by itself. -/
def autoRadix : Nat × Nat :=
  if peek r = '0' then
    if peek r.tail = 'x' ∨ peek r.tail = 'X' then
      if digitVal (peek r.tail.tail) < 16 then (16, 2) else (8, 0)
    else (8, 0)
  else (10, 0)

theorem autoRadix_le : (autoRadix r).1 ≤ 36 := by
  unfold autoRadix
  split_ifs <;> decide

/-- Base `10`. -/
def decimalRadix (_ : List Char) : Nat × Nat := (10, 0)

/-- What was read: characters consumed, sign and magnitude. -/
structure Scan where
  used : Nat
  neg : Bool
  mag : Nat
  deriving DecidableEq, Repr

/-- Nothing was read. -/
def Scan.none : Scan := ⟨0, false, 0⟩

/-- The digits of a number without sign. -/
def scanUnsigned : Scan :=
  let ds := (r.drop (radix r).2).takeWhile (fun c => digitVal c < (radix r).1)
  if ds.isEmpty then Scan.none
  else ⟨(radix r).2 + ds.length, false, digitsValue (radix r).1 ds⟩

/-- Put a sign character in front of a number that was read. -/
def Scan.signed (neg : Bool) (m : Scan) : Scan :=
  if m.used = 0 then Scan.none else ⟨m.used + 1, neg, m.mag⟩

/-- An optional sign and the digits. -/
def scanSigned : Scan :=
  if peek r = '-' then (scanUnsigned radix r.tail).signed true
  else if peek r = '+' then (scanUnsigned radix r.tail).signed false
  else scanUnsigned radix r

/-- Skipped white space counts as consumed only if a number follows it. -/
def Scan.after (n : Nat) (m : Scan) : Scan :=
  if m.used = 0 then Scan.none else { m with used := n + m.used }

/-- White space, an optional sign and the digits. -/
def scan : Scan :=
  (scanSigned radix (r.dropWhile isspace)).after (r.takeWhile isspace).length

/-- The signed value that was read. -/
def Scan.value (m : Scan) : Int := if m.neg then -(m.mag : Int) else m.mag

/-! ### The library functions -/

/-- Conversion to a 32-bit `int`. -/
def toInt32 (n : Int) : Int := n.bmod (2 ^ 32)

/-- Conversion to a 64-bit `long long`. -/
def toInt64 (n : Int) : Int := n.bmod (2 ^ 64)

/-- `strtol(r, &endp, 0)`: characters consumed and the value, clamped to `long`. -/
def strtol : Nat × Int :=
  let m := scan autoRadix r
  (m.used, max (-2 ^ 63) (min (2 ^ 63 - 1) m.value))

/-- `(long long)strtoull(r, &endp, 0)`: a negative number is negated modulo `2 ^ 64`; a
    magnitude out of range gives `ULLONG_MAX`. -/
def strtoull : Nat × Int :=
  let m := scan autoRadix r
  (m.used, toInt64 (if 2 ^ 64 ≤ m.mag then 2 ^ 64 - 1 else m.value))

/-- `std::stoi`: `none` stands for the exception it throws when the text holds no number
    or one out of the range of `int`. -/
def stoi : Option Int :=
  let m := scan decimalRadix r
  if m.used = 0 ∨ m.value < -2 ^ 31 ∨ 2 ^ 31 ≤ m.value then none else some m.value

/-- `(long long)std::stoull`: the sign is accepted as by `strtoull`; a magnitude out of
    range throws. -/
def stoull : Option Int :=
  let m := scan decimalRadix r
  if m.used = 0 ∨ 2 ^ 64 ≤ m.mag then none else some (toInt64 m.value)

/-! ### Bounds -/

variable (radix : List Char → Nat × Nat)

/-- A number that was read lies inside the text. -/
theorem scanUnsigned_used_le (r : List Char) : (scanUnsigned radix r).used ≤ r.length := by
  unfold scanUnsigned
  set ds := (r.drop (radix r).2).takeWhile (fun c => digitVal c < (radix r).1) with hds
  by_cases he : ds.isEmpty = true
  · simp [he, Scan.none]
  · have hle : ds.length ≤ r.length - (radix r).2 := by
      rw [← List.length_drop]; exact (takeWhile_sublist _).length_le
    have hpos : 0 < ds.length := length_pos_iff.mpr (by simpa using he)
    simp only [he, Bool.false_eq_true, if_false]
    omega

theorem scanSigned_used_le (r : List Char) : (scanSigned radix r).used ≤ r.length := by
  have hsign : ∀ b, peek r ≠ nul → ((scanUnsigned radix r.tail).signed b).used ≤ r.length := by
    intro b hr
    cases r with
    | nil => exact absurd rfl hr
    | cons c cs =>
      have := scanUnsigned_used_le radix cs
      rw [Scan.signed]
      by_cases hz : (scanUnsigned radix cs).used = 0
      · simp [hz, Scan.none]
      · simpa [hz] using this
  unfold scanSigned
  split
  · rename_i h; exact hsign _ (by rw [h]; decide)
  · split
    · rename_i h; exact hsign _ (by rw [h]; decide)
    · exact scanUnsigned_used_le radix r

theorem scan_used_le (r : List Char) : (scan radix r).used ≤ r.length := by
  have h := scanSigned_used_le radix (r.dropWhile isspace)
  have hsum : (r.takeWhile isspace).length + (r.dropWhile isspace).length = r.length := by
    rw [← length_append, takeWhile_append_dropWhile]
  unfold scan Scan.after
  split
  · simp [Scan.none]
  · show _ + _ ≤ _
    omega

variable (r : List Char)

theorem strtol_used_le : (strtol r).1 ≤ r.length := scan_used_le autoRadix r

theorem strtoull_used_le : (strtoull r).1 ≤ r.length := scan_used_le autoRadix r

/-! ### The characters of a number -/

/-- The characters that can be part of a number or of the white space before it. -/
def numberChar (c : Char) : Bool := isspace c || c == '-' || c == '+' || c.isAlphanum

theorem numberChar_of_digitVal (h : digitVal c < 36) : numberChar c = true := by
  have : c.isAlphanum = true := by
    unfold digitVal at h
    show (c.isUpper || c.isLower || c.isDigit) = true
    split at h
    · simp [*]
    · split at h
      · simp [*]
      · split at h
        · simp [*]
        · exact absurd h (Nat.lt_irrefl _)
  simp [numberChar, this]

theorem numberChar_of_isspace (h : isspace c = true) : numberChar c = true := by
  simp [numberChar, h]

theorem scanUnsigned_numberChar :
    ∀ c ∈ r.take (scanUnsigned autoRadix r).used, numberChar c = true := by
  -- the marker `0x`
  have hmarker : ∀ c ∈ r.take (autoRadix r).2, numberChar c = true := by
    unfold autoRadix
    split_ifs with h0 hx
    · have e0 := eq_cons_of_peek h0 (by decide)
      intro c hc
      rw [e0] at hc
      rcases hx with hx | hx <;> rw [eq_cons_of_peek hx (by decide)] at hc <;>
        simp only [take_succ_cons, take_zero, mem_cons, not_mem_nil,
          or_false] at hc <;> rcases hc with rfl | rfl <;> decide
    all_goals simp
  unfold scanUnsigned
  set ds := (r.drop (autoRadix r).2).takeWhile (fun c => digitVal c < (autoRadix r).1) with hds
  intro c hc
  dsimp only at hc
  split_ifs at hc
  · simp [Scan.none] at hc
  · rw [take_add, mem_append] at hc
    rcases hc with hc | hc
    · exact hmarker c hc
    · have hpre : (r.drop (autoRadix r).2).take ds.length = ds :=
        prefix_iff_eq_take.mp (List.takeWhile_prefix _) |>.symm
      rw [hpre] at hc
      have hlt := mem_takeWhile_imp (hds ▸ hc)
      have hdigit : digitVal c < (autoRadix r).1 := by simpa using hlt
      exact numberChar_of_digitVal (hdigit.trans_le (autoRadix_le r))

theorem scanSigned_numberChar :
    ∀ c ∈ r.take (scanSigned autoRadix r).used, numberChar c = true := by
  have hsign : ∀ {x : Char} (b : Bool), numberChar x = true → peek r = x → x ≠ nul →
      ∀ c ∈ r.take ((scanUnsigned autoRadix r.tail).signed b).used, numberChar c = true := by
    intro x b hx hp hn c hc
    unfold Scan.signed at hc
    split_ifs at hc
    · simp [Scan.none] at hc
    · rw [eq_cons_of_peek hp hn, take_succ_cons, mem_cons] at hc
      rcases hc with rfl | hc
      · exact hx
      · exact scanUnsigned_numberChar r.tail c hc
  unfold scanSigned
  split_ifs with hm hp
  · exact hsign true (by decide) hm (by decide)
  · exact hsign false (by decide) hp (by decide)
  · exact scanUnsigned_numberChar r

/-- The text a number is read from holds white space, signs, letters and digits only. -/
theorem strtol_numberChar : ∀ c ∈ r.take (strtol r).1, numberChar c = true := by
  show ∀ c ∈ r.take (scan autoRadix r).used, numberChar c = true
  unfold scan Scan.after
  intro c hc
  split_ifs at hc
  · simp [Scan.none] at hc
  · have htake : r.take (r.takeWhile isspace).length = r.takeWhile isspace :=
      (prefix_iff_eq_take.mp (List.takeWhile_prefix _)).symm
    have hdrop : r.drop (r.takeWhile isspace).length = r.dropWhile isspace := by
      have hsplit := take_append_drop (r.takeWhile isspace).length r
      rw [htake] at hsplit
      exact append_cancel_left (hsplit.trans takeWhile_append_dropWhile.symm)
    rw [take_add, htake, hdrop, mem_append] at hc
    rcases hc with hc | hc
    · exact numberChar_of_isspace (mem_takeWhile_imp hc)
    · exact scanSigned_numberChar _ c hc

/-- Only the first character decides whether white space was skipped. -/
theorem dropWhile_isspace_of_head (hc : isspace c = false) (cs : List Char) :
    (c :: cs).dropWhile isspace = c :: cs := by simp [hc]

/-- A number that does not start with white space starts with a digit or a sign. -/
theorem strtol_head {cs : List Char} (hc : isspace c = false) (h : 0 < (strtol (c :: cs)).1) :
    c.isDigit = true ∨ c = '-' ∨ c = '+' := by
  by_cases hm : c = '-'
  · exact .inr (.inl hm)
  by_cases hp : c = '+'
  · exact .inr (.inr hp)
  left
  have hused : 0 < (scanUnsigned autoRadix (c :: cs)).used := by
    by_contra hz
    have h0 : (scanUnsigned autoRadix (c :: cs)).used = 0 := by omega
    have hscan : (strtol (c :: cs)).1 = 0 := by
      show (scan autoRadix (c :: cs)).used = 0
      unfold scan scanSigned Scan.after
      rw [dropWhile_isspace_of_head hc]
      simp [hm, hp, h0, Scan.none]
    omega
  by_contra hd
  have hd : c.isDigit = false := by simpa using hd
  have h0 : c ≠ '0' := by
    rintro rfl
    cases hd
  have hval : ¬ digitVal c < 10 := by
    rw [digitVal_lt_ten, hd]
    decide
  have hnone : scanUnsigned autoRadix (c :: cs) = Scan.none := by
    simp [scanUnsigned, autoRadix, h0, hval]
  rw [hnone] at hused
  cases hused

/-! ### Where a number ends -/

/-- `e` cannot continue a number: it does not start with a letter or a digit. -/
def NumberEnd (e : List Char) : Prop := (peek e).isAlphanum = false

instance (e : List Char) : Decidable (NumberEnd e) := inferInstanceAs (Decidable (_ = false))

theorem IsBreak.numberEnd (he : IsBreak e) : NumberEnd e := by
  rcases he with rfl | h
  · decide
  · exact eq_false_of_isspace (by decide) h

theorem digit_spaceless (base : Nat) (h : base ≤ 36) : Spaceless (fun c => digitVal c < base) := by
  intro c hc
  have : digitVal c = 36 := by
    rcases isspace_cases hc with rfl | rfl | rfl | rfl | rfl | rfl <;> rfl
  simp only [decide_eq_false_iff_not]
  omega

/-- What ends a number is no digit. -/
theorem digitVal_of_numberEnd (he : NumberEnd e) : digitVal (peek e) = 36 :=
  digitVal_eq_of_not_isAlphanum he

/-- A digit or a letter at the start of a text. -/
theorem peek_append_end {x : Char} (hx : x.isAlphanum = true) (hx' : x ≠ nul) (t : List Char)
    (he : NumberEnd e) : peek (t ++ e) = x ↔ peek t = x := by
  cases t with
  | cons c cs => exact Iff.rfl
  | nil =>
    refine iff_of_false (fun h => ?_) hx'.symm
    rw [NumberEnd, ← nil_append e, h, hx] at he
    cases he

theorem autoRadix_append_end (t : List Char) (he : NumberEnd e) :
    autoRadix (t ++ e) = autoRadix t ∧ (autoRadix t).2 ≤ t.length := by
  -- Peel the at most three characters the rule looks at.
  have h0 := peek_append_end (x := '0') (by decide) (by decide) t he
  unfold autoRadix
  by_cases hz : peek t = '0'
  · obtain ⟨t1, rfl⟩ : ∃ t1, t = '0' :: t1 := ⟨_, eq_cons_of_peek hz (by decide)⟩
    have hx := peek_append_end (x := 'x') (by decide) (by decide) t1 he
    have hX := peek_append_end (x := 'X') (by decide) (by decide) t1 he
    simp only [cons_append, tail_cons, hx, hX]
    by_cases hm : peek t1 = 'x' ∨ peek t1 = 'X'
    · obtain ⟨c, t2, rfl⟩ : ∃ c t2, t1 = c :: t2 := by
        cases t1 with
        | nil => exact absurd hm (by decide)
        | cons c cs => exact ⟨c, cs, rfl⟩
      have hd : digitVal (peek (t2 ++ e)) < 16 ↔ digitVal (peek t2) < 16 := by
        cases t2 with
        | cons c cs => exact Iff.rfl
        | nil => exact iff_of_false (by simp [digitVal_of_numberEnd he]) (by decide)
      simp only [hm, cons_append, tail_cons, hd]
      by_cases h16 : digitVal (peek t2) < 16
      · simp [h16]
      · simp [h16]
    · simp [hm]
  · simp [h0, hz]

theorem scanUnsigned_append_end (t : List Char) (he : NumberEnd e) :
    scanUnsigned autoRadix (t ++ e) = scanUnsigned autoRadix t := by
  obtain ⟨hr, hle⟩ := autoRadix_append_end t he
  have hend : e.takeWhile (fun c => digitVal c < (autoRadix t).1) = [] := by
    cases e with
    | nil => rfl
    | cons c cs =>
      have hc : digitVal c = 36 := digitVal_of_numberEnd he
      simpa [hc] using autoRadix_le t
  unfold scanUnsigned
  rw [hr, drop_append_of_le_length hle, takeWhile_append, hend]
  split
  · next h => rw [append_nil, (takeWhile_sublist _).eq_of_length h]
  · rfl

theorem scanSigned_append_end (c : Char) (t : List Char) (he : NumberEnd e) :
    scanSigned autoRadix (c :: t ++ e) = scanSigned autoRadix (c :: t) := by
  have htail := scanUnsigned_append_end t he
  have hall := scanUnsigned_append_end (c :: t) he
  unfold scanSigned
  rw [hall, cons_append, tail_cons, htail]
  rfl

/-- **A number ends.**  If the text does not start with white space, what cannot continue a number
    has no influence on the one that is read. -/
theorem scan_append_end (hc : isspace c = false) (t : List Char) (he : NumberEnd e) :
    scan autoRadix (c :: t ++ e) = scan autoRadix (c :: t) := by
  have hs := scanSigned_append_end c t he
  unfold scan
  rw [cons_append, dropWhile_isspace_of_head hc, ← cons_append, hs]
  simp [hc]

end CText
