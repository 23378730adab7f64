import Bcc.Text.Number

namespace CText

open List Nat

/-!
# C text — canonical decimal numbers

* `decimal` — the decimal rendering of an integer;
* `scan_decimal` — `strtol` and `strtoull` read it back.
-/

/-- The canonical decimal rendering: no leading zero, a sign only if negative. -/
def decimal (n : Int) : List Char :=
  if n < 0 then '-' :: Nat.toDigits 10 n.natAbs else Nat.toDigits 10 n.natAbs

variable {e : List Char}

/-- Digits write the number they were rendered from. -/
theorem digitsValue_toDigits (n : Nat) : digitsValue 10 (Nat.toDigits 10 n) = n := by
  have hall : ∀ c ∈ Nat.toDigits 10 n, c.isDigit = true := fun c hc =>
    isDigit_of_mem_toDigits (by decide) (by decide) hc
  have hfold : ∀ (l : List Char) (acc : Nat), (∀ c ∈ l, c.isDigit = true) →
      l.foldl (fun acc c => 10 * acc + digitVal c) acc = Nat.ofDigitChars 10 l acc := by
    intro l
    induction l with
    | nil => intro acc _; rfl
    | cons c cs ih =>
      intro acc h
      rw [foldl_cons, ofDigitChars_cons, ih _ (fun d hd => h d (by simp [hd])),
        digitVal_of_isDigit (h c (by simp))]
  rw [digitsValue, hfold _ _ hall, ofDigitChars_ten_toDigits]

/-- The leading digit of a decimal number is `0` only for the number zero. -/
theorem peek_toDigits_eq_zero {n : Nat} (h : peek (Nat.toDigits 10 n) = '0') : n = 0 := by
  induction n using Nat.strong_induction_on with
  | _ n ih =>
    rw [toDigits_eq_if (by decide)] at h
    split at h
    · simpa using h
    · have hne : Nat.toDigits 10 (n / 10) ≠ [] := toDigits_ne_nil
      obtain ⟨c, cs, hc⟩ := exists_cons_of_ne_nil hne
      have h0 : n / 10 = 0 := ih (n / 10) (by omega) (by rw [hc] at h ⊢; exact h)
      omega

/-- **Digits are read back.**  The decimal digits of `n`, before text that cannot continue
    a number, are read as `n` under base `0`. -/
theorem scanUnsigned_toDigits (n : Nat) (he : NumberEnd e) :
    scanUnsigned autoRadix (Nat.toDigits 10 n ++ e) = ⟨(Nat.toDigits 10 n).length, false, n⟩ := by
  have hedig : (peek e).isDigit = false := by
    have h : ((peek e).isAlpha || (peek e).isDigit) = false := he
    exact (Bool.or_eq_false_iff.mp h).2
  have hall : ∀ c ∈ Nat.toDigits 10 n, c.isDigit = true := fun c hc =>
    isDigit_of_mem_toDigits (by decide) (by decide) hc
  have hne : Nat.toDigits 10 n ≠ [] := toDigits_ne_nil
  by_cases hn : n = 0
  · -- `0`: octal by the rule, with the single digit `0`.
    subst hn
    have hx : ¬ (peek e = 'x' ∨ peek e = 'X') := by
      rintro (h | h) <;> exact absurd he (by rw [NumberEnd, h]; decide)
    have hdig : ¬ digitVal (peek e) < 8 := by
      intro h
      have := digitVal_lt_ten.mp (show digitVal (peek e) < 10 by omega)
      simp [hedig] at this
    have htw : e.takeWhile (fun c => decide (digitVal c < 8)) = [] := by
      cases e with
      | nil => rfl
      | cons c cs => simp only [peek_cons] at hdig; simp [hdig]
    have hr : autoRadix ('0' :: e) = (8, 0) := by simp [autoRadix, hx]
    show scanUnsigned autoRadix ('0' :: e) = ⟨1, false, 0⟩
    rw [scanUnsigned, hr]
    have h0 : digitVal '0' = 0 := by decide
    simp [htw, h0, digitsValue]
  · have hr : autoRadix (Nat.toDigits 10 n ++ e) = (10, 0) := by
      have : peek (Nat.toDigits 10 n ++ e) ≠ '0' := by
        obtain ⟨c, cs, hc⟩ := exists_cons_of_ne_nil hne
        intro h
        exact hn (peek_toDigits_eq_zero (by rw [hc] at h ⊢; exact h))
      simp [autoRadix, this]
    have htw : (Nat.toDigits 10 n ++ e).takeWhile (fun c => decide (digitVal c < 10))
        = Nat.toDigits 10 n := by
      rw [takeWhile_append_of_pos (fun c hc => by simpa using digitVal_lt_ten.mpr (hall c hc))]
      have : e.takeWhile (fun c => decide (digitVal c < 10)) = [] := by
        cases e with
        | nil => rfl
        | cons c cs =>
          rw [peek_cons] at hedig
          simp [digitVal_lt_ten, hedig]
      rw [this, append_nil]
    rw [scanUnsigned, hr]
    simp only [drop_zero, htw, digitsValue_toDigits]
    simp

/-- A digit is neither a sign nor white space. -/
theorem not_sign_of_isDigit {c : Char} (h : c.isDigit = true) :
    c ≠ '-' ∧ c ≠ '+' ∧ isspace c = false := by
  refine ⟨?_, ?_, ?_⟩
  · rintro rfl; cases h
  · rintro rfl; cases h
  · by_contra hs
    have := eq_false_of_isspace (p := Char.isDigit) (by decide) (Bool.not_eq_false _ |>.mp hs)
    simp [h] at this

/-- The first character of a rendered number is a digit. -/
theorem toDigits_eq_cons (n : Nat) : ∃ c cs, Nat.toDigits 10 n = c :: cs ∧ c.isDigit = true := by
  obtain ⟨c, cs, hc⟩ := exists_cons_of_ne_nil (toDigits_ne_nil (b := 10))
  have hmem : c ∈ Nat.toDigits 10 n := by rw [hc]; exact mem_cons_self
  exact ⟨c, cs, hc, isDigit_of_mem_toDigits (by decide) (by decide) hmem⟩

/-- A number with an explicit sign character. -/
theorem scan_sign_toDigits {c : Char} (hc : c = '-' ∨ c = '+') (n : Nat) (he : NumberEnd e) :
    scan autoRadix (c :: (Nat.toDigits 10 n ++ e))
      = ⟨(Nat.toDigits 10 n).length + 1, c == '-', n⟩ := by
  have hs : isspace c = false := by rcases hc with rfl | rfl <;> rfl
  unfold scan
  rw [dropWhile_isspace_of_head hs, takeWhile_cons_of_neg (by simp [hs]), scanSigned]
  rcases hc with rfl | rfl
  · simp [scanUnsigned_toDigits n he, Scan.signed, Scan.after]
  · simp [scanUnsigned_toDigits n he, Scan.signed, Scan.after]

/-- **Canonical decimals are read back.**  The rendering of `n`, before text that cannot
    continue a number, is consumed exactly and gives `n`. -/
theorem scan_decimal (n : Int) (he : NumberEnd e) :
    scan autoRadix (decimal n ++ e) = ⟨(decimal n).length, decide (n < 0), n.natAbs⟩ := by
  unfold decimal
  by_cases hn : n < 0
  · simp only [hn, if_true, cons_append]
    rw [scan_sign_toDigits (Or.inl rfl) _ he]
    rfl
  · simp only [hn, if_false]
    obtain ⟨c, cs, hc, hd⟩ := toDigits_eq_cons n.natAbs
    obtain ⟨h1, h2, h3⟩ := not_sign_of_isDigit hd
    have hu := scanUnsigned_toDigits n.natAbs he
    have hpos : (Nat.toDigits 10 n.natAbs).length ≠ 0 := by simp
    rw [hc] at hu hpos ⊢
    rw [cons_append] at hu ⊢
    unfold scan
    rw [dropWhile_isspace_of_head h3, takeWhile_cons_of_neg (by simp [h3]), scanSigned]
    simp only [peek_cons, h1, h2, hu]
    simp [Scan.after]

/-- The value of a canonical decimal. -/
theorem decimal_value (n : Int) :
    (Scan.mk (decimal n).length (decide (n < 0)) n.natAbs).value = n := by
  by_cases hn : n < 0
  · rw [decide_eq_true hn]
    show -(n.natAbs : Int) = n
    omega
  · rw [decide_eq_false hn]
    show (n.natAbs : Int) = n
    omega

/-- `strtol` reads back every canonical decimal in the range of `int`. -/
theorem strtol_decimal (n : Int) (he : NumberEnd e) (hlo : -2 ^ 31 ≤ n) (hhi : n < 2 ^ 31) :
    strtol (decimal n ++ e) = ((decimal n).length, n) := by
  unfold strtol
  rw [scan_decimal n he]
  simp only [decimal_value, Prod.mk.injEq, true_and]
  omega

/-- An `int` is unchanged by the conversion to `int`. -/
theorem toInt32_eq_self {n : Int} (hlo : -2 ^ 31 ≤ n) (hhi : n < 2 ^ 31) : toInt32 n = n := by
  exact Int.bmod_eq_of_le (by simpa using hlo) (by simpa using hhi)

/-- `strtoull` reads back every canonical decimal of magnitude below `2 ^ 64`, modulo
    `2 ^ 64`. -/
theorem strtoull_decimal (n : Int) (he : NumberEnd e) (hn : n.natAbs < 2 ^ 64) :
    strtoull (decimal n ++ e) = ((decimal n).length, toInt64 n) := by
  unfold strtoull
  rw [scan_decimal n he]
  simp only [decimal_value, if_neg (not_le.mpr hn)]

/-! ### Different numbers -/

theorem toDigits_ten_injective : Function.Injective (Nat.toDigits 10) :=
  Function.LeftInverse.injective digitsValue_toDigits

/-- A decimal number is made of digits, behind a sign. -/
theorem mem_decimal {n : Int} {c : Char} (hc : c ∈ decimal n) : c = '-' ∨ c.isDigit = true := by
  unfold decimal at hc
  have hdigits : ∀ c ∈ Nat.toDigits 10 n.natAbs, c.isDigit = true := fun c hc =>
    isDigit_of_mem_toDigits (by decide) (by decide) hc
  split at hc
  · exact (mem_cons.mp hc).imp_right (hdigits c)
  · exact .inr (hdigits c hc)

theorem decimal_injective : Function.Injective decimal := by
  intro m n h
  have hsign : ∀ k : Nat, ∀ t, Nat.toDigits 10 k ≠ '-' :: t := by
    intro k t hk
    have hdigit : ('-' : Char).isDigit = true :=
      isDigit_of_mem_toDigits (by decide) (by decide) (hk ▸ mem_cons_self)
    cases hdigit
  unfold decimal at h
  split at h <;> split at h
  · have habs := toDigits_ten_injective (List.cons.inj h).2
    omega
  · exact absurd h.symm (hsign _ _)
  · exact absurd h (hsign _ _)
  · have habs := toDigits_ten_injective h
    omega

end CText
