import Bcc.Usdt.X64Calls

namespace Bcc.Usdt.X64

open CText List

/-!
# USDT — what the x86-64 parser accepts

* `accepted_wellFormed_iff` — what `parse` accepts is well formed, with two exceptions.
-/

variable {s : CStr} {pos n m k : Nat} {r : List Char} {dest d : Argument}

/-- The parts of the argument that reading the address leaves as they are, and the base
    register, which it sets. -/
def FromAddress (dest d : Argument) : Prop :=
  d.constant = dest.constant ∧ d.derefOffset = dest.derefOffset ∧ d.baseRegisterName.isSome

theorem closeAt_stop (h : closeAt n r dest = .stop m d) : d = dest := by
  unfold closeAt at h
  split at h
  · exact (Reading.stop.inj h).2.symm
  · cases h

theorem indexAt_stop (h : indexAt n r dest = .stop m d) :
    ∃ idx sc, d = { dest with indexRegisterName := idx, scale := sc } := by
  unfold indexAt registerThen at h
  split at h
  · cases h
  · split at h
    · exact ⟨_, _, closeAt_stop h⟩
    · exact ⟨_, _, closeAt_stop h⟩

theorem addressAt_stop (h : addressAt n r dest = .stop m d) : FromAddress dest d := by
  unfold addressAt baseAt registerThen at h
  split at h
  · split at h
    · cases h
    · split at h
      · obtain ⟨idx, sc, rfl⟩ := indexAt_stop h
        exact ⟨rfl, rfl, rfl⟩
      · rw [closeAt_stop h]
        exact ⟨rfl, rfl, rfl⟩
  · cases h

theorem FromAddress.wellFormed (h : FromAddress dest d) (hc : dest.constant = none)
    (hoff : dest.derefOffset.isSome) : d.WellFormed := by
  obtain ⟨h1, h2, h3⟩ := h
  exact ⟨by rw [h1, hc, h3]; decide, fun _ => h2 ▸ hoff⟩

/-- An operand that starts with its displacement has one: without a number the sign that is
    left over does not open an address. -/
theorem offsetFirstAt_stop (hnum : ((peek r).isDigit || peek r == '-') = true)
    (hc : dest.constant = none) (h : offsetFirstAt n r dest = .stop m d) : d.WellFormed := by
  unfold offsetFirstAt at h
  by_cases hk : (strtol r).1 = 0
  · -- the character at hand is a digit or a minus sign
    have hplus : peek r ≠ '+' := by
      intro he; rw [he] at hnum; cases hnum
    have hparen : peek r ≠ '(' := by
      intro he; rw [he] at hnum; cases hnum
    simp [hk, hplus, addressAt, hparen] at h
  · have hoff : ∀ x : Option Int, (intAt r x).isSome := by
      intro x
      rw [intAt, if_pos (by omega)]
      rfl
    dsimp only at h
    split at h
    · split at h
      · cases h
      · exact (addressAt_stop h).wellFormed hc (hoff _)
    · exact (addressAt_stop h).wellFormed hc (hoff _)

theorem identFirstAt_stop (hc : dest.constant = none) (h : identFirstAt n r dest = .stop m d) :
    d.WellFormed := by
  unfold identFirstAt at h
  dsimp only at h
  split at h
  · refine (addressAt_stop h).wellFormed hc ?_
    unfold intAt
    split <;> rfl
  · exact (addressAt_stop h).wellFormed hc rfl

/-- A `$` that no number follows. -/
def emptyConstant (r : List Char) : Prop := peek r = '$' ∧ (strtoull r.tail).1 = 0

instance (r : List Char) : Decidable (emptyConstant r) := inferInstanceAs (Decidable (_ ∧ _))

/-- What is read without size prefix is well formed, except for a `$` without a number. -/
theorem exprAt_stop (hdest : ∃ size, dest = { Argument.empty with argSize := size })
    (h : exprAt n r dest = .stop m d) :
    (¬ emptyConstant r ∧ d.WellFormed) ∨ (emptyConstant r ∧ m = n + 1 ∧ d = dest) := by
  obtain ⟨size, rfl⟩ := hdest
  unfold exprAt at h
  split at h
  · rename_i hd
    cases h
    by_cases hz : (strtoull r.tail).1 = 0
    · exact .inr ⟨⟨hd, hz⟩, by rw [hz], by simp [hz]⟩
    · refine .inl ⟨fun he => hz he.2, ?_⟩
      have hpos : 0 < (strtoull r.tail).1 := by omega
      simp only [hpos]
      exact ⟨by simp [Argument.empty], by simp [Argument.empty]⟩
  · rename_i hd
    refine .inl ⟨fun he => hd he.1, ?_⟩
    split at h
    · split at h
      · cases h
      · cases h
        exact ⟨by simp [withBase, Argument.empty], by simp [withBase, Argument.empty]⟩
    · split at h
      · rename_i hnum
        exact offsetFirstAt_stop hnum rfl h
      · exact identFirstAt_stop rfl h

theorem operandAt_stop (h : operandAt r Argument.empty = .stop m d) :
    (¬ emptyConstant (r.drop (sizeAt r)) ∧ d.WellFormed)
      ∨ (emptyConstant (r.drop (sizeAt r)) ∧ m = sizeAt r + 1
          ∧ d.constant = none ∧ d.baseRegisterName = none) := by
  unfold operandAt at h
  split at h
  · rename_i h0
    rw [h0]
    refine (exprAt_stop ⟨none, rfl⟩ h).imp_right ?_
    rintro ⟨he, hm, rfl⟩
    exact ⟨he, hm, rfl, rfl⟩
  · refine (exprAt_stop ⟨_, rfl⟩ h).imp_right ?_
    rintro ⟨he, hm, rfl⟩
    exact ⟨he, hm, rfl, rfl⟩

/-- A `$` stops the reading, also without a number. -/
theorem operandAt_of_emptyConstant (h : emptyConstant (r.drop (sizeAt r))) :
    ∃ d, operandAt r Argument.empty = .stop (sizeAt r + 1) d := by
  unfold operandAt
  split
  · rename_i h0
    rw [h0, drop_zero] at h
    exact ⟨_, by rw [exprAt, if_pos h.1, h.2, h0]⟩
  · exact ⟨_, by rw [exprAt, if_pos h.1, h.2]⟩

/-- No operand starts with white space. -/
theorem operandAt_space (h : isspace (peek r) = true) :
    operandAt r Argument.empty = .fail 0 { Argument.empty with derefOffset := some 0 } := by
  have hne : ∀ x : Char, isspace x = false → peek r ≠ x := by
    rintro x hx rfl
    rw [h] at hx
    cases hx
  have hnum : ((peek r).isDigit || peek r == '-') = false :=
    eq_false_of_isspace (p := fun c => c.isDigit || c == '-') (by decide) h
  have hid : identLen r = 0 := by
    have : ((peek r).isAlpha || peek r == '_') = false :=
      eq_false_of_isspace (p := fun c => c.isAlpha || c == '_') (by decide) h
    rw [identLen, this]
    rfl
  have hsz : sizeAt r = 0 := by rw [sizeAt, hnum]; rfl
  rw [operandAt, if_pos hsz, exprAt, if_neg (hne '$' (by decide)), if_neg (hne '%' (by decide)),
    hnum]
  simp [identFirstAt, identAt, hid, hne '+' (by decide), hne '-' (by decide),
    addressAt, hne '(' (by decide)]

/-- The texts from which a call at `pos` accepts an argument without content: white space at
    the very start of the string, and a `$` (behind an optional size) that no number follows. -/
def IllFormed (pos : Nat) (t : List Char) : Prop :=
  (pos = 0 ∧ isspace (peek t) = true)
    ∨ (emptyConstant (t.drop (sizeAt t)) ∧ IsBreak (t.drop (sizeAt t + 1)))

/-- What a call accepts is well formed, except from the texts of `IllFormed`; from those it
    accepts an argument that `assign_to_local` cannot read. -/
theorem accepted_wellFormed_iff (h : pos < s.length) :
    (∀ d q, parse s Argument.empty pos = .ok ⟨.accepted, d, q⟩ → d.WellFormed)
      ↔ ¬ IllFormed pos (s.chars.drop pos) := by
  have hlen := length_drop s pos
  have hbad : ∀ {d : Argument}, d.constant = none → d.baseRegisterName = none → ¬ d.WellFormed :=
    fun h1 h2 hwf => hwf.one (by rw [h1, h2]; rfl)
  cases hop : operandAt (s.chars.drop pos) Argument.empty with
  | stop n d =>
    have hspace : ¬ (pos = 0 ∧ isspace (peek (s.chars.drop pos)) = true) := by
      rintro ⟨-, hsp⟩
      rw [operandAt_space hsp] at hop
      cases hop
    have hle : pos + n ≤ s.length := by
      have hex := operandAt_exact (s.chars.drop pos) Argument.empty rfl
      rw [hop] at hex
      have := hex.2.1
      omega
    have hcall := parse_of_stop h hop hle
    rcases operandAt_stop hop with ⟨hne, hwf⟩ | ⟨he, hn, hc, hb⟩
    · refine iff_of_true ?_ (fun hill => hill.elim hspace (fun hx => hne hx.1))
      intro d' q hq
      rw [hcall] at hq
      split at hq
      · rw [acceptAt_eq hle d] at hq
        cases hq
        exact hwf
      · rw [rejectAt_eq hle d] at hq
        cases hq
    · by_cases hbr : IsBreak (s.chars.drop (pos + n))
      · rw [if_pos hbr, acceptAt_eq hle d] at hcall
        refine iff_of_false (fun hall => hbad hc hb (hall _ _ hcall)) (not_not.mpr (.inr ⟨he, ?_⟩))
        rwa [drop_drop, ← hn]
      · rw [if_neg hbr, rejectAt_eq hle d] at hcall
        refine iff_of_true ?_ ?_
        · intro d' q hq
          rw [hcall] at hq
          cases hq
        · rintro (hsp | ⟨-, hb'⟩)
          · exact hspace hsp
          · rw [drop_drop, ← hn] at hb'
            exact hbr hb'
  | fail n d =>
    have hdollar : ¬ (emptyConstant ((s.chars.drop pos).drop (sizeAt (s.chars.drop pos)))
        ∧ IsBreak ((s.chars.drop pos).drop (sizeAt (s.chars.drop pos) + 1))) := by
      rintro ⟨he, -⟩
      obtain ⟨d', hd'⟩ := operandAt_of_emptyConstant he
      rw [hd'] at hop
      cases hop
    by_cases hpos : 0 < pos + n
    · refine iff_of_true ?_ ?_
      · intro d' q hq
        rw [parse_of_fail h hop hpos] at hq
        rcases Nat.lt_or_ge s.length (pos + n + 1) with hlt | hge
        · rw [rejectAt_of_length_lt d hlt] at hq
          cases hq
        · rw [rejectAt_eq hge d] at hq
          cases hq
      · rintro (⟨rfl, hsp⟩ | hx)
        · rw [operandAt_space hsp] at hop
          have := (Reading.fail.inj hop).1
          omega
        · exact hdollar hx
    · -- a failure at 0 looks like success
      obtain ⟨rfl, rfl⟩ : pos = 0 ∧ n = 0 := by omega
      rw [drop_zero] at hop hdollar ⊢
      have hcall := parse_of_fail_zero h hop
      by_cases hsp : isspace (peek s.chars) = true
      · rw [if_pos hsp] at hcall
        rw [operandAt_space hsp] at hop
        cases hop
        exact iff_of_false (fun hall => hbad rfl rfl (hall _ _ hcall))
          (not_not.mpr (.inl ⟨rfl, hsp⟩))
      · rw [if_neg hsp, rejectAt_eq (Nat.zero_le _) d] at hcall
        refine iff_of_true ?_ (fun hill => hill.elim (fun hx => hsp hx.2) hdollar)
        intro d' q hq
        rw [hcall] at hq
        cases hq

end Bcc.Usdt.X64
