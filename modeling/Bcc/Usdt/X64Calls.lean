import Bcc.Usdt.X64Reading

namespace Bcc.Usdt.X64

open CText List

/-!
# USDT — the x86-64 parser, call by call

* `truncated`, `parse_advances_iff` — what a call of `parse` does, by the operand that the remaining
  text starts with.
-/

/-! ### Where an operand ends or fails -/

variable (r : List Char)

/-- The text ends before the registers of an address are complete: after the comma in front
    of the index register. -/
def truncatedIndex : Bool :=
  match registerAt r with
  | none => r.length ≤ 1
  | some (k, _, _) =>
      if peek (r.drop k) = ',' then ((r.drop (k + 1)).drop (strtol (r.drop (k + 1))).1).isEmpty
      else (r.drop k).isEmpty

/-- Same, after the opening parenthesis. -/
def truncatedBase : Bool :=
  match registerAt r with
  | none => r.length ≤ 1
  | some (k, _, _) =>
      if peek (r.drop k) = ',' then truncatedIndex (r.drop (k + 1)) else (r.drop k).isEmpty

/-- Same, where the opening parenthesis is due. -/
def truncatedAddress : Bool :=
  if peek r = '(' then truncatedBase r.tail else r.isEmpty

/-- Same, for an operand that starts with its displacement. -/
def truncatedOffset : Bool :=
  let k := (strtol r).1
  if peek (r.drop k) = '+' then
    let j := identLen (r.drop (k + 1))
    if j = 0 then (r.drop (k + 1)).isEmpty else truncatedAddress (r.drop (k + 1 + j))
  else truncatedAddress (r.drop k)

/-- Same, for any other operand in memory. -/
def truncatedIdent : Bool :=
  let j := identLen r
  if peek (r.drop j) = '+' ∨ peek (r.drop j) = '-' then
    truncatedAddress (r.drop (j + (strtol (r.drop j)).1))
  else truncatedAddress (r.drop j)

/-- Same, for an operand without size prefix. -/
def truncatedExpr : Bool :=
  if peek r = '$' then false
  else if peek r = '%' then
    match registerAt r with
    | none => r.length ≤ 1
    | some _ => false
  else if (peek r).isDigit || peek r == '-' then truncatedOffset r
  else truncatedIdent r

/-- **The text ends inside its first operand**: nothing is left where a register, a
    parenthesis or the rest of the operand is due, or at most one character where a register
    is due. -/
def truncated : Bool := truncatedExpr (r.drop (sizeAt r))

/-- A reading of the text `r` at offset `n`: it stops inside the text; it fails at most one
    character past the end, and at the end or past it exactly if `trunc`. -/
def Reading.Exact (n : Nat) (r : List Char) (trunc : Bool) : Reading → Prop
  | .stop m _ => n < m ∧ m ≤ n + r.length ∧ trunc = false
  | .fail m _ => n ≤ m ∧ m ≤ n + r.length + 1 ∧ (n + r.length ≤ m ↔ trunc = true)

section Exact

variable {n k : Nat} {r : List Char} {trunc : Bool}

/-- Reading on after `k` characters. -/
theorem Reading.Exact.shift {R : Reading} (hk : k ≤ r.length)
    (h : R.Exact (n + k) (r.drop k) trunc) : R.Exact n r trunc := by
  cases R with
  | stop m d =>
    obtain ⟨h1, h2, h3⟩ := h
    rw [List.length_drop] at h2
    exact ⟨by omega, by omega, h3⟩
  | fail m d =>
    obtain ⟨h1, h2, h3⟩ := h
    rw [List.length_drop] at h2 h3
    refine ⟨by omega, by omega, ?_⟩
    rw [← h3]
    constructor <;> intro <;> omega

variable (n : Nat) (r : List Char) (dest : Argument)

theorem closeAt_exact : (closeAt n r dest).Exact n r r.isEmpty := by
  unfold closeAt
  split
  · rename_i h
    rw [eq_cons_of_peek h (by decide)]
    exact ⟨by omega, by simp, rfl⟩
  · refine ⟨le_refl _, by omega, ?_⟩
    cases r <;> simp

theorem fail_register_exact : (Reading.fail (n + 1) dest).Exact n r (r.length ≤ 1) :=
  ⟨by omega, by omega, by simp⟩

/-- A register, and what is read behind its comma. -/
theorem registerThen_exact {f : String → Int → Argument}
    {R : Nat → List Char → Argument → Reading} {tr : List Char → Bool}
    (hR : ∀ m v d, (R m v d).Exact m v (tr v)) (n : Nat) (r : List Char) (dest : Argument) :
    (registerThen f R n r dest).Exact n r (match registerAt r with
      | none => r.length ≤ 1
      | some (k, _, _) =>
          if peek (r.drop k) = ',' then tr (r.drop (k + 1)) else (r.drop k).isEmpty) := by
  unfold registerThen
  cases hreg : registerAt r with
  | none => exact fail_register_exact n r dest
  | some e =>
    have hk := (registerAt_bounds hreg).2
    simp only
    split
    · rename_i hc
      exact Reading.Exact.shift (succ_le_of_peek hc (by decide)) (hR _ _ _)
    · exact Reading.Exact.shift hk (closeAt_exact _ _ _)

theorem indexAt_exact : (indexAt n r dest).Exact n r (truncatedIndex r) :=
  registerThen_exact (fun _ v _ => Reading.Exact.shift (strtol_used_le v) (closeAt_exact _ _ _))
    n r dest

theorem baseAt_exact : (baseAt n r dest).Exact n r (truncatedBase r) :=
  registerThen_exact indexAt_exact n r dest

theorem addressAt_exact : (addressAt n r dest).Exact n r (truncatedAddress r) := by
  unfold addressAt truncatedAddress
  split
  · rename_i hc
    have h1 : 1 ≤ r.length := succ_le_of_peek (by simpa using hc) (by decide)
    have := baseAt_exact (n + 1) (r.drop 1) dest
    rw [drop_one] at this
    exact Reading.Exact.shift h1 (by rw [drop_one]; exact this)
  · refine ⟨le_refl _, by omega, ?_⟩
    cases r <;> simp

theorem offsetFirstAt_exact (hid : dest.derefIdent = none) :
    (offsetFirstAt n r dest).Exact n r (truncatedOffset r) := by
  unfold offsetFirstAt truncatedOffset
  simp only
  split
  · rename_i hc
    have hk1 := succ_le_of_peek hc (by decide)
    have hj := identLen_le (r.drop ((strtol r).1 + 1))
    rw [List.length_drop] at hj
    unfold identAt
    by_cases h0 : identLen (r.drop ((strtol r).1 + 1)) = 0
    · simp only [h0, hid]
      refine Reading.Exact.shift hk1 ⟨by omega, by omega, ?_⟩
      cases hd : r.drop ((strtol r).1 + 1) <;> simp <;> omega
    · have hpos : 0 < identLen (r.drop ((strtol r).1 + 1)) := by omega
      simp only [h0, hpos, if_false]
      have hle : (strtol r).1 + 1 + identLen (r.drop ((strtol r).1 + 1)) ≤ r.length := by omega
      apply Reading.Exact.shift hle
      have e1 : n + ((strtol r).1 + 1 + identLen (r.drop ((strtol r).1 + 1)))
          = n + (strtol r).1 + 1 + identLen (r.drop ((strtol r).1 + 1)) := by omega
      rw [e1]
      apply addressAt_exact
  · apply Reading.Exact.shift (strtol_used_le r)
    apply addressAt_exact

theorem identFirstAt_exact : (identFirstAt n r dest).Exact n r (truncatedIdent r) := by
  unfold identFirstAt truncatedIdent
  simp only
  have hj := identLen_le r
  split
  · have hk := strtol_used_le (r.drop (identLen r))
    rw [List.length_drop] at hk
    generalize (strtol (r.drop (identLen r))).1 = k at hk ⊢
    have hle : identLen r + k ≤ r.length := by omega
    apply Reading.Exact.shift hle
    rw [← Nat.add_assoc]
    apply addressAt_exact
  · apply Reading.Exact.shift hj
    apply addressAt_exact

theorem exprAt_exact (hid : dest.derefIdent = none) :
    (exprAt n r dest).Exact n r (truncatedExpr r) := by
  unfold exprAt truncatedExpr
  split
  · rename_i hc
    have hu := strtoull_used_le r.tail
    have hlen : r.length = r.tail.length + 1 := by
      conv_lhs => rw [eq_cons_of_peek hc (by decide)]
      rfl
    exact ⟨by omega, by omega, rfl⟩
  · split
    · cases hreg : registerAt r with
      | none => exact fail_register_exact n r dest
      | some e =>
        have := registerAt_bounds hreg
        exact ⟨by omega, by omega, rfl⟩
    · split
      · exact offsetFirstAt_exact n r dest hid
      · exact identFirstAt_exact n r dest

theorem sizeAt_le : sizeAt r ≤ r.length := by
  unfold sizeAt
  split
  · rename_i h
    simp only [Bool.and_eq_true, beq_iff_eq] at h
    exact succ_le_of_peek h.2 (by decide)
  · exact Nat.zero_le _

/-- **Where an operand ends or fails.** -/
theorem operandAt_exact (hid : dest.derefIdent = none) :
    (operandAt r dest).Exact 0 r (truncated r) := by
  unfold operandAt truncated
  split
  · rename_i h0
    rw [h0]
    exact exprAt_exact 0 r dest hid
  · refine Reading.Exact.shift (sizeAt_le r) ?_
    rw [Nat.zero_add]
    exact exprAt_exact _ _ _ hid

end Exact

/-! ### `parse` in terms of the operand -/

section Parse

variable {s : CStr} {pos n : Nat} {dest d : Argument}

/-- Inside the string, `parse` runs `parse_1`. -/
theorem parse_eq (h : pos < s.length) (dest : Argument) :
    parse s dest pos = (do
      let (res, dest) := (operandAt (s.chars.drop pos) dest).encode pos
      if res < 0 then rejectAt s dest ((-res).toNat + 1)
      else
        let c ← s.read res.toNat
        if !isspace c && c != nul then rejectAt s dest res.toNat
        else acceptAt s dest res.toNat) := by
  rw [parse, done_eq (le_of_lt h), decide_eq_false (by omega)]
  simp [parse1_eq (le_of_lt h)]

/-- A failure that the position encoding shows: the parser resumes one character further. -/
theorem parse_of_fail (h : pos < s.length)
    (hop : operandAt (s.chars.drop pos) dest = .fail n d) (hpos : 0 < pos + n) :
    parse s dest pos = rejectAt s d (pos + n + 1) := by
  have hneg : -((pos : Int) + n) < 0 := by omega
  have hnat : (-(-((pos : Int) + n))).toNat + 1 = pos + n + 1 := by omega
  rw [parse_eq h, hop]
  simp only [Reading.encode, hneg, if_true, hnat]

/-- The end of an operand: the parser accepts at a break and rejects anything else. -/
theorem parse_of_stop (h : pos < s.length)
    (hop : operandAt (s.chars.drop pos) dest = .stop n d) (hle : pos + n ≤ s.length) :
    parse s dest pos
      = if IsBreak (s.chars.drop (pos + n)) then acceptAt s d (pos + n)
        else rejectAt s d (pos + n) := by
  have hneg : ¬ (pos : Int) + n < 0 := by omega
  have hnat : ((pos : Int) + n).toNat = pos + n := by omega
  rw [parse_eq h, hop]
  simp only [Reading.encode, hneg, if_false, hnat, CStr.read_eq hle, ok_bind]
  have hiff : (!isspace (peek (s.chars.drop (pos + n))) && peek (s.chars.drop (pos + n)) != nul)
      = true ↔ ¬ IsBreak (s.chars.drop (pos + n)) := by
    simp only [IsBreak, Bool.and_eq_true, Bool.not_eq_true', bne_iff_ne, ne_eq,
      CStr.peek_drop_eq_nul, not_or, Bool.not_eq_true]
    exact And.comm
  by_cases hb : IsBreak (s.chars.drop (pos + n))
  · rw [if_neg (by rw [hiff]; exact not_not.mpr hb), if_pos hb]
  · rw [if_pos (hiff.mpr hb), if_neg hb]

/-- A failure at position `0` looks like a success there: white space at the very start of
    the string is accepted. -/
theorem parse_of_fail_zero (h : 0 < s.length) (hop : operandAt s.chars dest = .fail 0 d) :
    parse s dest 0 = if isspace (peek s.chars) then acceptAt s d 0 else rejectAt s d 0 := by
  have hne : s.chars ≠ [] := length_pos_iff.mp h
  have hread : s.read 0 = .ok (peek s.chars) := CStr.read_eq (Nat.zero_le _)
  have hnn : peek s.chars ≠ nul := by
    have := CStr.peek_drop_eq_nul s 0
    rw [drop_zero] at this
    rwa [Ne, this]
  rw [parse_eq h, drop_zero, hop]
  show (s.read 0 >>= _) = _
  rw [hread]
  by_cases hs : isspace (peek s.chars) = true <;> simp [hs, hnn]

/-- A call stays inside the string, and moves on, exactly if its operand is not cut off by
    the end of the string. -/
theorem parse_advances_iff (h : pos < s.length) (hid : dest.derefIdent = none) :
    Advances (parse s dest) s pos ↔ truncated (s.chars.drop pos) = false := by
  have hex := operandAt_exact (s.chars.drop pos) dest hid
  have hlen := length_drop s pos
  cases hop : operandAt (s.chars.drop pos) dest with
  | stop n d =>
    rw [hop] at hex
    obtain ⟨hn, hle, ht⟩ := hex
    rw [ht]
    have hin : pos + n ≤ s.length := by omega
    refine iff_of_true ?_ rfl
    unfold Advances
    rw [parse_of_stop h hop hin]
    split
    · have := CStr.skip_le_length isspace hin
      exact ⟨_, acceptAt_eq hin d, by dsimp only; omega, this⟩
    · exact ⟨_, rejectAt_eq hin d, by dsimp only; omega, add_errorSkip_le hin⟩
  | fail n d =>
    rw [hop] at hex
    obtain ⟨-, hle, ht⟩ := hex
    unfold Advances
    by_cases hpos : 0 < pos + n
    · rw [parse_of_fail h hop hpos]
      by_cases htr : truncated (s.chars.drop pos) = true
      · -- the parser resumes past the NUL
        rw [rejectAt_of_length_lt d (by have := ht.mpr htr; omega), htr]
        simp
      · have hin : pos + n + 1 ≤ s.length := by
          have : ¬ (0 + (s.chars.drop pos).length ≤ n) := fun hcon => htr (ht.mp hcon)
          omega
        refine iff_of_true ?_ (by simpa using htr)
        exact ⟨_, rejectAt_eq hin d, by dsimp only; omega, add_errorSkip_le hin⟩
    · obtain ⟨rfl, rfl⟩ : pos = 0 ∧ n = 0 := by omega
      rw [drop_zero] at hop ht hlen ⊢
      have htr : truncated s.chars = false := by
        rw [← Bool.not_eq_true, ← ht]
        omega
      refine iff_of_true ?_ htr
      rw [parse_of_fail_zero h hop]
      split
      · rename_i hsp
        have hle := CStr.skip_le_length isspace (Nat.zero_le s.length)
        refine ⟨_, acceptAt_eq (Nat.zero_le _) d, ?_, hle⟩
        obtain ⟨c, cs, hc⟩ := exists_cons_of_ne_nil (length_pos_iff.mp h)
        rw [hc, peek_cons] at hsp
        simp [hc, hsp]
      · refine ⟨_, rejectAt_eq (Nat.zero_le _) d, ?_, add_errorSkip_le (Nat.zero_le _)⟩
        have := errorSkip_pos (drop_ne_nil h)
        dsimp only
        omega

end Parse

end Bcc.Usdt.X64
