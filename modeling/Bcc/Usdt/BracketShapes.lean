import Bcc.Usdt.BracketReading

namespace Bcc.Usdt

open CText List

/-!
# USDT — what the aarch64 and loongarch64 parsers accept

* `ValueShape`, `outcomeOf_accept` — the operands that are accepted.
-/

/-- The argument that is left for the value `t` behind `<size>@`, starting from `e`. -/
inductive ValueShape (startsReg : Char → Bool)
    (registerAt : List Char → Except Nat (Nat × String)) (bare : Argument → Argument)
    (t : List Char) (e : Argument) : Argument → Prop
  /-- A register. -/
  | reg (k : Nat) (name : String) (hreg : startsReg (peek t) = true)
      (hname : registerAt t = .ok (k, name)) :
      ValueShape startsReg registerAt bare t e { e with baseRegisterName := some name }
  /-- A constant. -/
  | const (v : Int) (hreg : startsReg (peek t) = false) (hmem : peek t ≠ '[') :
      ValueShape startsReg registerAt bare t e { e with constant := some v }
  /-- `[reg]` -/
  | bare (k : Nat) (name : String) (hreg : startsReg (peek t) = false) (hmem : peek t = '[')
      (hbase : registerAt (t.drop 1) = .ok (k, name)) (hclose : peek ((t.drop 1).drop k) = ']') :
      ValueShape startsReg registerAt bare t e (bare { e with baseRegisterName := some name })
  /-- `[reg,off]` -/
  | offset (k : Nat) (name : String) (off : Int) (hreg : startsReg (peek t) = false)
      (hmem : peek t = '[') (hbase : registerAt (t.drop 1) = .ok (k, name))
      (hcomma : peek ((t.drop 1).drop k) = ',')
      (hnum : (strtol ((t.drop 1).drop (k + 1))).1 ≠ 0) :
      ValueShape startsReg registerAt bare t e
        { e with baseRegisterName := some name, derefOffset := some off }
  /-- `[reg,reg]` -/
  | index (k : Nat) (name index : String) (hreg : startsReg (peek t) = false)
      (hmem : peek t = '[') (hbase : registerAt (t.drop 1) = .ok (k, name))
      (hcomma : peek ((t.drop 1).drop k) = ',')
      (hnum : (strtol ((t.drop 1).drop (k + 1))).1 = 0) :
      ValueShape startsReg registerAt bare t e
        { e with
          baseRegisterName := some name
          indexRegisterName := some index
          scale := some 1
          derefOffset := some 0 }

variable {s : CStr} {pos : Nat}
  {startsReg : Char → Bool} {registerAt : List Char → Except Nat (Nat × String)}
  {bare : Argument → Argument} {r t : List Char} {dest d : Argument} {n : Nat}

theorem Outcome.of_shift_accept {o : Outcome} {k : Nat} (h : o.shift k = .accept n d) :
    ∃ m, o = .accept m d := by
  cases o with
  | accept m e => exact ⟨m, by rw [(Outcome.accept.inj h).2]⟩
  | reject m e => exact absurd h (by simp [Outcome.shift])

/-- A call accepts what its outcome accepts. -/
theorem Outcome.of_run_accepted {o : Outcome} {q : Nat}
    (h : o.run s pos = .ok ⟨.accepted, d, q⟩) : ∃ m, o = .accept m d := by
  cases o with
  | accept m e =>
    refine ⟨m, ?_⟩
    rw [Outcome.run, acceptAt] at h
    cases hk : skipWhitespaceFrom s (pos + m) with
    | error f => rw [hk] at h; cases h
    | ok k => rw [hk] at h; cases h; rfl
  | reject m e =>
    rw [Outcome.run, rejectAt] at h
    cases hk : errorReturn s (pos + m) with
    | error f => rw [hk] at h; cases h
    | ok k => rw [hk] at h; cases h

theorem memAtOf_accept (hreg : startsReg (peek t) = false) (hmem : peek t = '[')
    (h : memAtOf registerAt bare (t.drop 1) dest = .accept n d) :
    ValueShape startsReg registerAt bare t dest d := by
  unfold memAtOf at h
  cases hbase : registerAt (t.drop 1) with
  | error k => rw [hbase] at h; cases h
  | ok p =>
    obtain ⟨k, name⟩ := p
    rw [hbase] at h
    dsimp only at h
    split at h
    · rename_i hc
      unfold offsetAt at h
      by_cases hz : (strtol ((t.drop 1).drop (k + 1))).1 = 0
      · rw [if_pos hz] at h
        dsimp only at h
        split at h
        · exact absurd h (by simp [closeAt, Outcome.shift])
        · simp only [closeAt, Outcome.shift] at h
          split at h
          · rw [← (Outcome.accept.inj h).2]
            exact .index k name _ hreg hmem hbase hc hz
          · cases h
      · rw [if_neg hz] at h
        simp only [closeAt, Outcome.shift] at h
        split at h
        · rw [← (Outcome.accept.inj h).2]
          exact .offset k name _ hreg hmem hbase hc hz
        · cases h
    · split at h
      · rename_i hc
        rw [← (Outcome.accept.inj h).2]
        exact .bare k name hreg hmem hbase hc
      · cases h

theorem valueAtOf_accept (h : valueAtOf startsReg registerAt bare t dest = .accept n d) :
    ValueShape startsReg registerAt bare t dest d := by
  unfold valueAtOf at h
  split at h
  · rename_i hreg
    cases hr : registerAt t with
    | error k => rw [hr] at h; cases h
    | ok p =>
      rw [hr] at h
      rw [← (Outcome.accept.inj h).2]
      exact .reg p.1 p.2 hreg hr
  · rename_i hreg
    have hreg : startsReg (peek t) = false := by simpa using hreg
    split at h
    · rename_i hmem
      obtain ⟨m, hm⟩ := Outcome.of_shift_accept h
      exact memAtOf_accept hreg hmem hm
    · rename_i hmem
      split at h
      · cases h
      · rw [← (Outcome.accept.inj h).2]
        exact .const _ hreg hmem

/-- The text of the size holds no `@`, so the first one ends it. -/
theorem operandText_of_sizeAt {size : Int} (hsz : sizeAt r = some (n, size))
    (hat : peek (r.drop n) = '@') : operandText r = r.drop (n + 1) := by
  have hn : n = (strtol r).1 := by
    unfold sizeAt at hsz
    split_ifs at hsz
    exact (Prod.mk.inj (Option.some.inj hsz)).1.symm
  have hsplit : r = r.take n ++ '@' :: r.drop (n + 1) := by
    conv_lhs => rw [← take_append_drop n r, eq_cons_of_peek hat (by decide), tail_drop]
  have hno : '@' ∉ r.take n := fun hmem => by
    rw [hn] at hmem
    exact absurd (strtol_numberChar r _ hmem) (by decide)
  conv_lhs => rw [hsplit]
  exact operandText_append hno

/-- **What is accepted.**  A size, an `@` and a register, a constant or a memory operand. -/
theorem outcomeOf_accept (h : outcomeOf startsReg registerAt bare r dest = .accept n d) :
    ∃ m size, sizeAt r = some (m, size) ∧ peek (r.drop m) = '@'
      ∧ ValueShape startsReg registerAt bare (operandText r)
          { dest with argSize := some size } d := by
  unfold outcomeOf at h
  cases hsz : sizeAt r with
  | none => rw [hsz] at h; cases h
  | some p =>
    obtain ⟨m, size⟩ := p
    rw [hsz] at h
    dsimp only at h
    split at h
    · rename_i hat
      obtain ⟨k, hk⟩ := Outcome.of_shift_accept h
      rw [operandText_of_sizeAt hsz hat]
      exact ⟨m, size, rfl, hat, valueAtOf_accept hk⟩
    · cases h

/-- Every accepted argument is well formed, whether or not `[reg]` sets a displacement. -/
theorem ValueShape.wellFormed {size : Option Int}
    (hbare : ∀ e : Argument, ∃ off, bare e = { e with derefOffset := off })
    (h : ValueShape startsReg registerAt bare t { Argument.empty with argSize := size } d) :
    d.WellFormed := by
  cases h with
  | reg k name | const v => exact ⟨by simp [Argument.empty], by simp [Argument.empty]⟩
  | bare k name =>
    obtain ⟨off, hoff⟩ := hbare { Argument.empty with argSize := size, baseRegisterName := name }
    rw [hoff]
    exact ⟨by simp [Argument.empty], by simp [Argument.empty]⟩
  | offset k name off => exact ⟨by simp [Argument.empty], by simp⟩
  | index k name idx => exact ⟨by simp [Argument.empty], by simp⟩

/-- `<size>@[reg]` is accepted, whatever follows. -/
theorem outcomeOf_bare {m k : Nat} {size : Int} {name : String}
    (hsz : sizeAt r = some (m, size)) (hat : peek (r.drop m) = '@')
    (hreg : startsReg (peek (operandText r)) = false) (hmem : peek (operandText r) = '[')
    (hbase : registerAt ((operandText r).drop 1) = .ok (k, name))
    (hclose : peek (((operandText r).drop 1).drop k) = ']') :
    ∃ n, outcomeOf startsReg registerAt bare r dest
      = .accept n (bare { dest with argSize := some size, baseRegisterName := some name }) := by
  rw [operandText_of_sizeAt hsz hat] at hreg hmem hbase hclose
  refine ⟨m + 1 + (1 + (k + 1)), ?_⟩
  rw [outcomeOf, hsz]
  dsimp only
  have hcomma : ¬ peek (((r.drop (m + 1)).drop 1).drop k) = ',' := by
    rw [hclose]
    decide
  rw [if_pos hat, valueAtOf, if_neg (by simp [hreg]), if_pos hmem, memAtOf, hbase]
  dsimp only
  rw [if_neg hcomma, if_pos hclose]
  rfl

/-- The name of a register is no `xmm` register's. -/
theorem registerAtOf_name {marker : List Char} {sp : Int} {k : Nat} {name : String}
    (h : registerAtOf marker sp r = .ok (k, name)) : name.toList.take 3 ≠ ['x', 'm', 'm'] := by
  have hname : ∀ n, (registerName sp n).toList.take 3 ≠ ['x', 'm', 'm'] := by
    intro n
    unfold registerName
    split
    · decide
    · rw [String.append_assoc, String.toList_append]
      exact fun hx => absurd (List.cons.inj hx).1 (by decide)
  unfold registerAtOf at h
  split at h
  · dsimp only at h
    split at h
    · cases h
    · rw [← (Prod.mk.inj (Except.ok.inj h)).2]
      exact hname _
  · split at h
    · rw [← (Prod.mk.inj (Except.ok.inj h)).2]
      decide
    · cases h

/-- The text of a register holds its marker and a number, or `sp`. -/
theorem registerAtOf_chars {marker : List Char} {sp : Int} {k : Nat} {name : String} {x : Char}
    (h : registerAtOf marker sp r = .ok (k, name)) (hm : x ∉ marker) (hn : numberChar x = false) :
    x ∉ r.take k := by
  have hsp : x ∉ ['s', 'p'] := by
    intro hx
    simp only [mem_cons, not_mem_nil, or_false] at hx
    rcases hx with rfl | rfl <;> cases hn
  unfold registerAtOf at h
  split at h
  · rename_i hpre
    dsimp only at h
    split at h
    · cases h
    · rw [← (Prod.mk.inj (Except.ok.inj h)).1, take_add,
        ← prefix_iff_eq_take.mp (List.isPrefixOf_iff_prefix.mp hpre), mem_append]
      rintro (hx | hx)
      · exact hm hx
      · rw [strtol_numberChar _ x hx] at hn
        cases hn
  · split at h
    · rename_i hpre
      rw [← (Prod.mk.inj (Except.ok.inj h)).1,
        show r.take 2 = ['s', 'p'] from
          (prefix_iff_eq_take.mp (List.isPrefixOf_iff_prefix.mp hpre)).symm]
      exact hsp
    · cases h

end Bcc.Usdt
