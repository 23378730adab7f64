import Bcc.Text.Decimal

namespace CText

open List

/-!
# C text — hexadecimal numbers

* `hex`, `hexBytes` — numbers and bytes as `%x` and `std::hex` have them.
-/

/-- The hexadecimal digits of a number. -/
def hex (n : Nat) : List Char := Nat.toDigits 16 n

theorem hex_ne_nil (n : Nat) : hex n ≠ [] := Nat.toDigits_ne_nil

theorem digitVal_digitChar {k : Nat} (hk : k < 16) : digitVal k.digitChar = k := by
  have hall : ∀ i : Fin 16, digitVal (Nat.digitChar i) = i := by decide
  exact hall ⟨k, hk⟩

/-- One more digit. -/
theorem digitsValue_concat (base : Nat) (ds : List Char) (d : Char) :
    digitsValue base (ds ++ [d]) = base * digitsValue base ds + digitVal d := by
  rw [digitsValue, foldl_append]
  rfl

theorem hex_eq (n : Nat) :
    hex n = if n < 16 then [n.digitChar] else hex (n / 16) ++ [(n % 16).digitChar] :=
  Nat.toDigits_eq_if (by decide)

theorem digitsValue_hex (n : Nat) : digitsValue 16 (hex n) = n := by
  induction n using Nat.strong_induction_on with
  | _ n ih =>
    rw [hex_eq]
    split
    · next hn => exact (Nat.zero_add _).trans (digitVal_digitChar hn)
    · next hn =>
      rw [digitsValue_concat, ih (n / 16) (by omega), digitVal_digitChar (Nat.mod_lt _ (by decide))]
      omega

theorem hex_injective : Function.Injective hex := Function.LeftInverse.injective digitsValue_hex

/-- The digits are hexadecimal digits. -/
theorem digitVal_lt_of_mem_hex {n : Nat} {c : Char} (hc : c ∈ hex n) : digitVal c < 16 := by
  induction n using Nat.strong_induction_on with
  | _ n ih =>
    rw [hex_eq] at hc
    split at hc
    · next hn =>
      rw [mem_singleton.mp hc, digitVal_digitChar hn]
      exact hn
    · next hn =>
      rcases mem_append.mp hc with hc | hc
      · exact ih (n / 16) (by omega) hc
      · rw [mem_singleton.mp hc, digitVal_digitChar (Nat.mod_lt _ (by decide))]
        exact Nat.mod_lt _ (by decide)

/-! ### Bytes -/

/-- The two digits of a byte. -/
def hexByte (b : UInt8) : List Char := [(b.toNat / 16).digitChar, (b.toNat % 16).digitChar]

/-- The digits of bytes, two for each. -/
def hexBytes (bs : List UInt8) : List Char := bs.flatMap hexByte

/-- `%02hhx` prints the two digits of a byte. -/
theorem leftpad_hex_eq_hexByte (b : UInt8) : (hex b.toNat).leftpad 2 '0' = hexByte b := by
  have hb := b.toNat_lt
  rw [hex_eq]
  by_cases hlow : b.toNat < 16
  · rw [if_pos hlow, hexByte, Nat.div_eq_of_lt hlow, Nat.mod_eq_of_lt hlow]
    rfl
  · rw [if_neg hlow, hex_eq, if_pos (by omega : b.toNat / 16 < 16)]
    rfl

theorem hexByte_injective : Function.Injective hexByte := by
  intro a b h
  obtain ⟨hhigh, hlow, -⟩ : _ ∧ _ ∧ _ := by simpa only [hexByte, List.cons.injEq] using h
  have ha := a.toNat_lt
  have hb := b.toNat_lt
  have hdiv := congrArg digitVal hhigh
  have hmod := congrArg digitVal hlow
  rw [digitVal_digitChar (by omega), digitVal_digitChar (by omega)] at hdiv
  rw [digitVal_digitChar (by omega), digitVal_digitChar (by omega)] at hmod
  apply UInt8.toNat_inj.mp
  omega

theorem length_hexBytes (bs : List UInt8) : (hexBytes bs).length = 2 * bs.length := by
  induction bs with
  | nil => rfl
  | cons b bs ih =>
    rw [hexBytes, flatMap_cons, length_append, length_cons]
    show 2 + (hexBytes bs).length = _
    omega

theorem hexBytes_injective : Function.Injective hexBytes := by
  intro as
  induction as with
  | nil =>
    intro bs h
    have hlen := congrArg List.length h
    rw [length_hexBytes, length_hexBytes] at hlen
    exact (eq_nil_of_length_eq_zero (by simpa using hlen.symm)).symm
  | cons a as ih =>
    intro bs h
    cases bs with
    | nil => exact absurd (congrArg List.length h) (by simp [length_hexBytes])
    | cons b bs =>
      -- the digits of the first bytes are as many
      have happend : hexByte a ++ hexBytes as = hexByte b ++ hexBytes bs := h
      obtain ⟨hfirst, hrest⟩ := append_inj happend rfl
      rw [hexByte_injective hfirst, ih hrest]

end CText
