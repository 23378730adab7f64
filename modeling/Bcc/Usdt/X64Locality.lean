import Bcc.Usdt.X64Calls

namespace Bcc.Usdt.X64

open CText List

/-!
# USDT — how far the x86-64 parser looks

An operand is read from a token, but `strtol` and `strtoull` skip white space before a
number, so a token that ends where a number is due lets the parser look into the next one.

* `Apart` — the token ends with a break, and where it ends in `$` or `,`, no number follows;
* `operandAt_append` — then the operand is read as if the token stood by itself.
-/

/-- No white space in a text. -/
def NoSpace (t : List Char) : Prop := ∀ c ∈ t, isspace c = false

theorem NoSpace.drop {t : List Char} (h : NoSpace t) (k : Nat) : NoSpace (t.drop k) :=
  fun c hc => h c (mem_of_mem_drop hc)

/-- What follows the text `t` cannot continue it: it starts with a break, and no number comes
    first in it if `t` ends where the parser looks for one. -/
structure Apart (t e : List Char) : Prop where
  isBreak : IsBreak e
  number : t.getLast? = some '$' ∨ t.getLast? = some ',' → (strtol e).1 = 0

section Local

variable {n k : Nat} {t e : List Char}

theorem Apart.drop (h : Apart t e) (k : Nat) : Apart (t.drop k) e := by
  refine ⟨h.isBreak, fun hlast => h.number ?_⟩
  rw [getLast?_drop] at hlast
  split at hlast
  · simp at hlast
  · exact hlast

/-- Behind the last character of the text, if it is one of the two. -/
theorem Apart.used_eq_zero (h : Apart t e) {x : Char} (hx : x = '$' ∨ x = ',')
    (hp : peek (t.drop k) = x) (hnil : t.drop (k + 1) = []) : (strtol e).1 = 0 := by
  have hx' : x ≠ nul := by rcases hx with rfl | rfl <;> decide
  have hlast : (t.drop k).getLast? = some x := by
    rw [eq_cons_of_peek hp hx', tail_drop, hnil]
    rfl
  refine (h.drop k).number ?_
  rw [hlast, Option.some_inj, Option.some_inj]
  exact hx

theorem scan_append_break (h : NoSpace t) (hne : t ≠ []) (he : IsBreak e) :
    scan autoRadix (t ++ e) = scan autoRadix t := by
  obtain ⟨c, cs, rfl⟩ := exists_cons_of_ne_nil hne
  exact scan_append_end (h c mem_cons_self) cs he.numberEnd

theorem strtol_append_break (h : NoSpace t) (hne : t ≠ []) (he : IsBreak e) :
    strtol (t ++ e) = strtol t := by
  unfold strtol
  rw [scan_append_break h hne he]

theorem strtoull_append_break (h : NoSpace t) (hne : t ≠ []) (he : IsBreak e) :
    strtoull (t ++ e) = strtoull t := by
  unfold strtoull
  rw [scan_append_break h hne he]

/-- Nothing is left of a token where a character other than white space is found. -/
theorem ne_nil_of_peek {x : Char} (hp : peek t = x) (hx : x ≠ nul) : t ≠ [] := by
  rintro rfl
  exact hx hp.symm

/-- A character of the token, or none of those the parser looks for. -/
theorem peek_drop_append_break {x : Char} (hx : isspace x = false) (hx' : x ≠ nul)
    (hk : k ≤ t.length) (he : IsBreak e) :
    peek ((t ++ e).drop k) = x ↔ peek (t.drop k) = x := by
  rw [drop_append_of_le_length hk]
  exact peek_append_break hx hx' _ he

theorem registerAt_append_break (he : IsBreak e) : registerAt (t ++ e) = registerAt t := by
  have hp := peek_append_break (x := '%') (by decide) (by decide) t he
  have hsp : Spaceless Char.isAlphanum := spaceless_of_all (by decide)
  unfold registerAt
  by_cases hpc : peek t = '%'
  · have ht := eq_cons_of_peek hpc (by decide)
    have htail : (t ++ e).tail = t.tail ++ e := by
      rw [ht, cons_append, tail_cons, tail_cons]
    simp [hp.mpr hpc, hpc, htail, takeWhile_append_break hsp _ he]
  · rw [if_neg (fun hc => hpc (hp.mp hc)), if_neg hpc]

theorem identLen_append_break (he : IsBreak e) : identLen (t ++ e) = identLen t := by
  have hstart : Spaceless (fun c => c.isAlpha || c == '_') := spaceless_of_all (by decide)
  have hid : Spaceless isIdentChar := spaceless_of_all (by decide)
  have hp := class_peek_append_break hstart (by decide) t he
  unfold identLen
  rw [hp]
  split
  · rename_i hc
    have hne : t ≠ [] := by
      rintro rfl
      cases hc
    obtain ⟨c, cs, rfl⟩ := exists_cons_of_ne_nil hne
    rw [cons_append, tail_cons, tail_cons, takeWhile_append_break hid _ he]
  · rfl

theorem identAt_append_break (he : IsBreak e) (result : Option String) :
    identAt (t ++ e) result = identAt t result := by
  unfold identAt
  rw [identLen_append_break he, take_append_of_le_length (identLen_le t)]

theorem intAt_append_break (h : NoSpace t) (hne : t ≠ []) (he : IsBreak e)
    (result : Option Int) : intAt (t ++ e) result = intAt t result := by
  unfold intAt
  rw [strtol_append_break h hne he]

/-! ### The readings -/

theorem isNumber_append_break (t : List Char) (he : IsBreak e) :
    ((peek (t ++ e)).isDigit || peek (t ++ e) == '-') = ((peek t).isDigit || peek t == '-') :=
  class_peek_append_break (p := fun c => c.isDigit || c == '-') (spaceless_of_all (by decide))
    (by decide) t he

variable (dest : Argument)

theorem closeAt_append_break (he : IsBreak e) : closeAt n (t ++ e) dest = closeAt n t dest := by
  have hp := peek_append_break (x := ')') (by decide) (by decide) t he
  unfold closeAt
  simp [hp]

theorem registerThen_append {f : String → Int → Argument}
    {R : Nat → List Char → Argument → Reading} (he : IsBreak e)
    (hR : ∀ k m d, peek (t.drop k) = ',' →
      R m (t.drop (k + 1) ++ e) d = R m (t.drop (k + 1)) d) :
    registerThen f R n (t ++ e) dest = registerThen f R n t dest := by
  unfold registerThen
  rw [registerAt_append_break he]
  cases hr : registerAt t with
  | none => rfl
  | some p =>
    have hk := (registerAt_bounds hr).2
    simp only [peek_drop_append_break (x := ',') (by decide) (by decide) hk he]
    split
    · next hc =>
      rw [drop_append_of_le_length (succ_le_of_peek hc (by decide)), hR _ _ _ hc]
    · rw [drop_append_of_le_length hk, closeAt_append_break _ he]

/-- The scale of an address: the only place where the text may be used up. -/
theorem scaleAt_append (h : NoSpace t) (he : IsBreak e) (hnil : t = [] → (strtol e).1 = 0) :
    scaleAt n (t ++ e) dest = scaleAt n t dest := by
  by_cases hne : t = []
  · subst hne
    have hu := hnil rfl
    have hc := closeAt_append_break (n := n) (t := []) dest he
    simp only [nil_append, scaleAt, intAt, hu]
    exact hc
  · unfold scaleAt
    rw [strtol_append_break h hne he, intAt_append_break h hne he,
      drop_append_of_le_length (strtol_used_le t), closeAt_append_break _ he]

variable (h : NoSpace t) (ha : Apart t e)
include h ha

theorem indexAt_append : indexAt n (t ++ e) dest = indexAt n t dest :=
  registerThen_append dest ha.isBreak fun k _ d hp =>
    scaleAt_append d (h.drop (k + 1)) ha.isBreak (ha.used_eq_zero (.inr rfl) hp)

theorem baseAt_append : baseAt n (t ++ e) dest = baseAt n t dest :=
  registerThen_append dest ha.isBreak fun k _ d _ =>
    indexAt_append d (h.drop (k + 1)) (ha.drop (k + 1))

theorem addressAt_append : addressAt n (t ++ e) dest = addressAt n t dest := by
  have hp := peek_append_break (x := '(') (by decide) (by decide) t ha.isBreak
  unfold addressAt
  simp only [hp]
  split
  · next hc =>
    have h1 : 0 + 1 ≤ t.length := succ_le_of_peek hc (by decide)
    rw [← drop_one, drop_append_of_le_length h1, baseAt_append _ (h.drop 1) (ha.drop 1), drop_one]
  · rfl

/-- The address behind `k` characters of the text. -/
theorem addressAt_drop_append (hk : k ≤ t.length) :
    addressAt n ((t ++ e).drop k) dest = addressAt n (t.drop k) dest := by
  rw [drop_append_of_le_length hk, addressAt_append dest (h.drop k) (ha.drop k)]

theorem offsetFirstAt_append (hne : t ≠ []) :
    offsetFirstAt n (t ++ e) dest = offsetFirstAt n t dest := by
  have he := ha.isBreak
  have hk : (strtol t).1 ≤ t.length := strtol_used_le t
  unfold offsetFirstAt
  simp only [strtol_append_break h hne he, intAt_append_break h hne he,
    peek_drop_append_break (x := '+') (by decide) (by decide) hk he]
  split
  · next hc =>
    -- the symbol behind the `+`
    have hk1 := succ_le_of_peek hc (by decide)
    have hj := identLen_le (t.drop ((strtol t).1 + 1))
    rw [List.length_drop] at hj
    simp only [drop_append_of_le_length hk1, identAt_append_break he, identLen_append_break he]
    rw [addressAt_drop_append _ h ha (by omega)]
  · exact addressAt_drop_append _ h ha hk

theorem identFirstAt_append : identFirstAt n (t ++ e) dest = identFirstAt n t dest := by
  have he := ha.isBreak
  have hj : identLen t ≤ t.length := identLen_le t
  unfold identFirstAt
  simp only [identLen_append_break he, identAt_append_break he,
    peek_drop_append_break (x := '+') (by decide) (by decide) hj he,
    peek_drop_append_break (x := '-') (by decide) (by decide) hj he]
  split
  · next hc =>
    -- the displacement behind the symbol
    have hne : t.drop (identLen t) ≠ [] := by
      rcases hc with hc | hc <;> exact ne_nil_of_peek hc (by decide)
    have hk := strtol_used_le (t.drop (identLen t))
    rw [List.length_drop] at hk
    rw [drop_append_of_le_length hj, strtol_append_break (h.drop _) hne he,
      intAt_append_break (h.drop _) hne he, addressAt_drop_append _ h ha (by omega)]
  · exact addressAt_drop_append _ h ha hj

theorem exprAt_append : exprAt n (t ++ e) dest = exprAt n t dest := by
  have he := ha.isBreak
  unfold exprAt
  simp only [peek_append_break (x := '$') (by decide) (by decide) t he,
    peek_append_break (x := '%') (by decide) (by decide) t he, registerAt_append_break he,
    isNumber_append_break t he, identFirstAt_append dest h ha]
  split
  · next hd =>
    have h1 : 0 + 1 ≤ t.length := succ_le_of_peek hd (by decide)
    rw [← drop_one, ← drop_one, drop_append_of_le_length h1]
    by_cases hne : t.drop 1 = []
    · -- a lone `$`
      have hu : (strtoull e).1 = 0 := ha.used_eq_zero (k := 0) (.inl rfl) hd hne
      rw [hne, nil_append, hu]
      rfl
    · rw [strtoull_append_break (h.drop 1) hne he]
  · split
    · rfl
    · split
      · next hnum =>
        refine offsetFirstAt_append dest h ha ?_
        rintro rfl
        cases hnum
      · rfl

theorem sizeAt_append : sizeAt (t ++ e) = sizeAt t := by
  unfold sizeAt
  rw [isNumber_append_break t ha.isBreak]
  by_cases h3 : ((peek t).isDigit || peek t == '-') = true
  · have hne : t ≠ [] := by
      rintro rfl
      cases h3
    have hat : (peek ((t ++ e).drop (strtol t).1) == '@')
        = (peek (t.drop (strtol t).1) == '@') := by
      rw [Bool.eq_iff_iff, beq_iff_eq, beq_iff_eq]
      exact peek_drop_append_break (by decide) (by decide) (strtol_used_le t) ha.isBreak
    rw [strtol_append_break h hne ha.isBreak, hat]
  · rw [show ((peek t).isDigit || peek t == '-') = false by simpa using h3]
    rfl

/-- **The parser looks at one token.**  What follows it has no influence on its operand. -/
theorem operandAt_append : operandAt (t ++ e) dest = operandAt t dest := by
  unfold operandAt
  rw [sizeAt_append h ha]
  split
  · exact exprAt_append dest h ha
  · next h0 =>
    have hne : t ≠ [] := by
      rintro rfl
      exact h0 rfl
    rw [drop_append_of_le_length (sizeAt_le t), intAt_append_break h hne ha.isBreak,
      exprAt_append _ (h.drop _) (ha.drop _)]

end Local

end Bcc.Usdt.X64
