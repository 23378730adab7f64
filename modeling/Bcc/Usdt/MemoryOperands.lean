import Bcc.Usdt.Arch

namespace Bcc.Usdt

open CText List Regex

/-!
# USDT — operands in memory and in registers, as written and as read

`assign_to_local` tells an operand in memory from one in a register by the displacement alone.

* `accepted_readsAsWritten_iff` — when the statement reads what the text says, for architectures
  whose operands always carry a size.
-/

/-- What an operand is. -/
inductive OperandKind where
  | const
  | reg
  | mem
  deriving DecidableEq, Repr

namespace Arch

/-- The kind of the operand at the start of a text, behind its size. -/
def operandKind : Arch → List Char → OperandKind
  | x64, t => if peek t = '$' then .const else if peek t = '%' then .reg else .mem
  | aarch64, t =>
      if peek t = '[' then .mem else if peek t = 'x' ∨ peek t = 's' then .reg else .const
  | loongarch64, t =>
      if peek t = '[' then .mem else if peek t = '$' ∨ peek t = 's' then .reg else .const
  | powerpc64, t =>
      if '(' ∈ token t ∨ ',' ∈ token t then .mem else if peek t = 'i' then .const else .reg
  | s390x, t => if '(' ∈ token t then .mem else if peek t = '%' then .reg else .const
  | riscv64, t => if '(' ∈ token t then .mem else if (peek t).isAlpha then .reg else .const

/-- The operand in memory at the start of a text writes a displacement. -/
def displaced : Arch → List Char → Prop
  | x64, t => (peek t).isDigit ∨ peek t = '-'
  | aarch64, t | loongarch64, t =>
      -- a number behind the comma, inside the brackets
      ',' ∈ t.takeWhile (· != ']') ∧ (strtol ((t.dropWhile (· != ',')).drop 1)).1 ≠ 0
  | powerpc64, t => '(' ∈ token t
  | s390x, t => peek t ≠ '('
  | riscv64, _ => True

/-- The statement of `assign_to_local` reads what the text `t` of the operand says. -/
structure ReadsAsWritten (A : Arch) (t : List Char) (d : Argument) : Prop where
  /-- An operand in memory: `bpf_probe_read_user` of base plus displacement (plus index times
      scale), where a displacement that is not written is `0`. -/
  mem : A.operandKind t = .mem → ∃ base off,
    d.baseRegisterName = some base ∧ d.derefOffset = some off ∧ (¬ A.displaced t → off = 0)
      ∧ ∀ globals binpath pid, d.assignToLocal globals binpath pid
          = .ok (some (.readUser base off
              (d.indexRegisterName.map (fun idx => (idx, d.scale.getD 1))) d.size))
  /-- A register: its value. -/
  reg : A.operandKind t = .reg → ∃ base,
    d.baseRegisterName = some base ∧ d.derefOffset = none
      ∧ ∀ globals binpath pid, d.assignToLocal globals binpath pid = .ok (some (.reg base))

/-! ### The statements -/

section Statements

variable {A : Arch} {t : List Char} {d : Argument} {base : String}

/-- An argument with base register and displacement reads memory. -/
theorem ReadsAsWritten.of_mem {off : Int} (hkind : A.operandKind t = .mem)
    (hc : d.constant = none) (hi : d.derefIdent = none) (hb : d.baseRegisterName = some base)
    (ho : d.derefOffset = some off) (hz : ¬ A.displaced t → off = 0) : A.ReadsAsWritten t d where
  mem := fun _ => ⟨base, off, hb, ho, hz, fun globals binpath pid => by
    simp [Argument.assignToLocal, hc, hi, ho, hb, deref]⟩
  reg := fun h => by rw [hkind] at h; cases h

/-- An argument with a base register only reads that register. -/
theorem ReadsAsWritten.of_reg (hkind : A.operandKind t ≠ .mem) (hc : d.constant = none)
    (hb : d.baseRegisterName = some base) (ho : d.derefOffset = none)
    (hx : base.toList.take 3 ≠ ['x', 'm', 'm']) : A.ReadsAsWritten t d where
  mem := fun h => absurd h hkind
  reg := fun _ => ⟨base, hb, ho, fun globals binpath pid => by
    simp [Argument.assignToLocal, hc, ho, hb, deref, if_neg hx]⟩

/-- Nothing is said about a constant. -/
theorem ReadsAsWritten.of_const (hkind : A.operandKind t = .const) : A.ReadsAsWritten t d where
  mem := fun h => by rw [hkind] at h; cases h
  reg := fun h => by rw [hkind] at h; cases h

/-- Without a displacement an operand in memory is not read as written. -/
theorem not_readsAsWritten (hkind : A.operandKind t = .mem) (ho : d.derefOffset = none) :
    ¬ A.ReadsAsWritten t d := by
  intro h
  obtain ⟨base, off, -, hoff, -⟩ := h.mem hkind
  rw [ho] at hoff
  cases hoff

end Statements

/-! ### Bracketed operands -/

variable {t : List Char}

/-- A comma behind the base register, and a number behind the comma. -/
theorem displaced_of_comma {k : Nat} (hmem : peek t = '[')
    (hcomma : peek ((t.drop 1).drop k) = ',')
    (hno : ∀ x ∈ [',', ']'], x ∉ (t.drop 1).take k)
    (hnum : (strtol ((t.drop 1).drop (k + 1))).1 ≠ 0) :
    ',' ∈ t.takeWhile (· != ']') ∧ (strtol ((t.dropWhile (· != ',')).drop 1)).1 ≠ 0 := by
  set base := '[' :: (t.drop 1).take k with hbase
  have hsplit : t = base ++ ',' :: (t.drop 1).drop (k + 1) := by
    have h1 : t = '[' :: t.drop 1 := by
      rw [drop_one]
      exact eq_cons_of_peek hmem (by decide)
    have h2 : (t.drop 1).drop k = ',' :: (t.drop 1).drop (k + 1) := by
      rw [eq_cons_of_peek hcomma (by decide), tail_drop]
    rw [cons_append, ← h2, take_append_drop]
    exact h1
  have hword : ∀ x ∈ [',', ']'], x ∉ base := by
    intro x hx
    rw [mem_cons, not_or]
    refine ⟨?_, hno x hx⟩
    rintro rfl
    simp at hx
  have hall : ∀ x ∈ [',', ']'], ∀ y ∈ base, (y != x) = true := by
    intro x hx y hy
    rw [bne_iff_ne]
    rintro rfl
    exact hword y hx hy
  refine ⟨?_, ?_⟩
  · rw [hsplit, takeWhile_append_of_pos (hall ']' (by decide))]
    simp
  · have hdrop : t.dropWhile (· != ',') = ',' :: (t.drop 1).drop (k + 1) := by
      conv_lhs => rw [hsplit]
      rw [dropWhile_append_of_pos (hall ',' (by decide)), dropWhile_cons_of_neg (by simp)]
    rw [hdrop]
    exact hnum

/-- `[reg]`, behind the size. -/
def BareBracket (registerAt : List Char → Except Nat (Nat × String)) (t : List Char) : Prop :=
  peek t = '[' ∧ ∃ k name, registerAt (t.drop 1) = .ok (k, name)
    ∧ peek ((t.drop 1).drop k) = ']'

/-- A bracketed operand other than `[reg]` is read as written. -/
theorem readsAsWritten_of_valueShape (A : Arch) {startsReg : Char → Bool} {marker : List Char}
    {sp : Int} {bare : Argument → Argument} {size : Option Int} {d : Argument}
    (hkind : A.operandKind t
      = if peek t = '[' then .mem else if startsReg (peek t) then .reg else .const)
    (hdisp : ',' ∈ t.takeWhile (· != ']') ∧ (strtol ((t.dropWhile (· != ',')).drop 1)).1 ≠ 0 →
      A.displaced t)
    (hstart : startsReg '[' = false) (hmarker : ∀ x ∈ [',', ']'], x ∉ marker)
    (hv : ValueShape startsReg (registerAtOf marker sp) bare t
      { Argument.empty with argSize := size } d) :
    A.ReadsAsWritten t d
      ∨ (BareBracket (registerAtOf marker sp) t ∧ A.operandKind t = .mem
        ∧ ∃ name, d = bare { Argument.empty with
            argSize := size, baseRegisterName := some name }) := by
  cases hv with
  | reg k name hreg hname =>
    have hno : peek t ≠ '[' := by
      intro he
      rw [he, hstart] at hreg
      cases hreg
    refine .inl (.of_reg ?_ rfl rfl rfl (registerAtOf_name hname))
    rw [hkind, if_neg hno, if_pos hreg]
    decide
  | const v hreg hmem =>
    refine .inl (.of_const ?_)
    rw [hkind, if_neg hmem, hreg]
    rfl
  | bare k name hreg hmem hbase hclose =>
    exact .inr ⟨⟨hmem, k, name, hbase, hclose⟩, by rw [hkind, if_pos hmem], name, rfl⟩
  | offset k name off hreg hmem hbase hcomma hnum =>
    have hpunct : ∀ x ∈ [',', ']'], numberChar x = false :=
      forall_mem_cons.mpr ⟨rfl, forall_mem_singleton.mpr rfl⟩
    have hd : A.displaced t := hdisp (displaced_of_comma hmem hcomma
      (fun x hx => registerAtOf_chars hbase (hmarker x hx) (hpunct x hx)) hnum)
    exact .inl (.of_mem (by rw [hkind, if_pos hmem]) rfl rfl rfl rfl (fun h => absurd hd h))
  | index k name idx hreg hmem hbase hcomma hnum =>
    exact .inl (.of_mem (by rw [hkind, if_pos hmem]) rfl rfl rfl rfl (fun _ => rfl))

/-! ### When operands are read as written -/

/-- The texts from which a call accepts an operand in memory without displacement and leaves
    the displacement unset: `[reg]` on loongarch64, and on s390x any memory operand that starts
    with its parenthesis. -/
def OmitsDisplacement : Arch → List Char → Prop
  | loongarch64, t => (∃ m size, sizeAt t = some (m, size) ∧ peek (t.drop m) = '@')
      ∧ BareBracket Loongarch64.registerAt (operandText t)
  | s390x, t => (search S390x.sizeRx t).isSome ∧ stoi (sizeText t) ≠ none
      ∧ (search S390x.memRx (operandText t)).isSome ∧ peek (operandText t) = '('
  | _, _ => False

variable {s : CStr} {p : Nat}

variable {rest : List Char}

theorem powerpc64_readsAsWritten {n : Int} {d : Argument}
    (h : Powerpc64.operand t { Argument.empty with argSize := some n } = .yes rest d) :
    powerpc64.ReadsAsWritten t d := by
  have hgpr : ∀ r, (Powerpc64.gpr r).toList.take 3 ≠ ['x', 'm', 'm'] := by
    intro r hx
    rw [Powerpc64.gpr, String.append_assoc, String.toList_append] at hx
    exact absurd (List.cons.inj hx).1 (by decide)
  obtain ⟨-, ⟨v, rfl, h1, h2, h3⟩ | ⟨r, rfl, h1, h2, h3⟩ | ⟨off, r, rfl, h1⟩ |
    ⟨r, r', rfl, h1, h2⟩⟩ := Powerpc64.operand_cases h
  · exact .of_const (by simp [operandKind, h1, h2, h3])
  · exact .of_reg (by simp [operandKind, h1, h2, h3]) rfl rfl rfl (hgpr r)
  · exact .of_mem (by simp [operandKind, h1]) rfl rfl rfl rfl (fun hno => absurd h1 hno)
  · exact .of_mem (by simp [operandKind, h2]) rfl rfl rfl rfl (fun _ => rfl)

theorem riscv64_readsAsWritten {n : Int} {d : Argument}
    (h : Riscv64.operand t { Argument.empty with argSize := some n } = .yes rest d) :
    riscv64.ReadsAsWritten t d := by
  obtain ⟨-, ⟨v, rfl, h1, h2⟩ | ⟨r, rfl, h1, hx⟩ | ⟨off, r, rfl, h1⟩⟩ := Riscv64.operand_cases h
  · exact .of_const (by simp [operandKind, h1, h2])
  · refine .of_reg ?_ rfl rfl rfl ?_
    · simp only [operandKind, h1, if_false]
      split <;> decide
    · rw [String.toList_ofList]
      intro htake
      exact hx (mem_of_mem_take (htake ▸ mem_cons_self))
  · exact .of_mem (by simp [operandKind, h1]) rfl rfl rfl rfl (fun hno => absurd trivial hno)

theorem s390x_readsAsWritten_iff {n : Int} {d : Argument}
    (h : S390x.operand t { Argument.empty with argSize := some n } = .yes rest d) :
    s390x.ReadsAsWritten t d ↔ ¬ ((search S390x.memRx t).isSome ∧ peek t = '(') := by
  have hgprs : ∀ r, (S390x.gprs r).toList.take 3 ≠ ['x', 'm', 'm'] := by
    intro r hx
    rw [S390x.gprs, String.append_assoc, String.toList_append] at hx
    exact absurd (List.cons.inj hx).1 (by decide)
  have hparen : (search S390x.memRx t).isSome → '(' ∈ token t := by
    intro hm
    obtain ⟨m, hm⟩ := Option.isSome_iff_exists.mp hm
    exact (S390x.memRx_cases (mem_run_of_search hm)).1
  obtain ⟨-, ⟨v, rfl, hno, hp⟩ | ⟨r, rfl, hno⟩ | ⟨hm, hyes, off, r, idx, rfl, hoff, -⟩⟩ :=
    S390x.operand_cases h
  · exact iff_of_true (.of_const (by simp [operandKind, hno, hp])) (fun hx => hno (hparen hx.1))
  · refine iff_of_true (.of_reg ?_ rfl rfl rfl (hgprs r)) (fun hx => hno (hparen hx.1))
    simp only [operandKind, hno, if_false]
    split <;> decide
  · have hkind : s390x.operandKind t = .mem := by simp [operandKind, hyes]
    rcases hoff with ⟨hp, rfl⟩ | ⟨hp, hsome⟩
    · exact iff_of_false (not_readsAsWritten hkind rfl) (not_not.mpr ⟨hm, hp⟩)
    · obtain ⟨o, rfl⟩ := Option.isSome_iff_exists.mp hsome
      exact iff_of_true (.of_mem hkind rfl rfl rfl rfl (fun hd => absurd hp hd))
        (fun hx => hp hx.2)

/-- **Operands are read as written.**  On the five architectures, every operand a call accepts
    is read from memory or from the register as its text says, exactly if the text at the
    cursor is not one of `OmitsDisplacement`. -/
theorem accepted_readsAsWritten_iff (A : Arch) (hA : A ≠ x64) (s : CStr) (p : Nat)
    (h : p < s.length) :
    (∀ d q, A.parse s p = .ok ⟨.accepted, d, q⟩ →
        A.ReadsAsWritten (operandText (s.chars.drop p)) d)
      ↔ ¬ A.OmitsDisplacement (s.chars.drop p) := by
  cases A with
  | x64 => exact absurd rfl hA
  | aarch64 =>
    refine iff_of_true ?_ not_false
    intro d q ha
    obtain ⟨m, size, -, -, hv⟩ := bracket_accepted ((Aarch64.parse_eq h _).symm.trans ha)
    rcases readsAsWritten_of_valueShape aarch64 (by simp [operandKind]) id rfl (by simp) hv
      with hok | ⟨-, hkind, name, rfl⟩
    · exact hok
    · exact .of_mem hkind rfl rfl rfl rfl (fun _ => rfl)
  | loongarch64 =>
    constructor
    · rintro hall ⟨⟨m, size, hsz, hat⟩, hmem, k, name, hbase, hclose⟩
      have hreg : (fun c => c == '$' || c == 's') (peek (operandText (s.chars.drop p)))
          = false := by
        rw [hmem]
        decide
      obtain ⟨n, hn⟩ : ∃ n, Loongarch64.operandAt (s.chars.drop p) Argument.empty
          = .accept n { Argument.empty with
              argSize := some size, baseRegisterName := some name } :=
        outcomeOf_bare hsz hat hreg hmem hbase hclose
      have hin : (Loongarch64.operandAt (s.chars.drop p) Argument.empty).Inside _ :=
        outcomeOf_inside Loongarch64.register_spec _ _
      rw [hn, length_drop] at hin
      have hle : p + n ≤ s.length := by
        have : n ≤ s.length - p := hin
        omega
      have hcall := Loongarch64.parse_eq h Argument.empty
      rw [hn, Outcome.run, acceptAt_eq hle] at hcall
      exact not_readsAsWritten (by simp [operandKind, hmem]) rfl (hall _ _ hcall)
    · intro hom d q ha
      obtain ⟨m, size, hsz, hat, hv⟩ := bracket_accepted ((Loongarch64.parse_eq h _).symm.trans ha)
      rcases readsAsWritten_of_valueShape loongarch64 (by simp [operandKind]) id rfl
        (by simp) hv with hok | ⟨hbare, -⟩
      · exact hok
      · exact absurd ⟨⟨m, size, hsz, hat⟩, hbare⟩ hom
  | powerpc64 =>
    refine iff_of_true ?_ not_false
    intro d q ha
    obtain ⟨n, rest, -, -, hop⟩ := rx_accepted Powerpc64.frame (by decide) h ha
    exact powerpc64_readsAsWritten hop
  | s390x =>
    constructor
    · rintro hall ⟨hs, hn, hm, hp⟩
      obtain ⟨d, q, rest, n, hq, hop⟩ := s390x_accepts_bare h hs hn hm hp
      exact (s390x_readsAsWritten_iff hop).mp (hall d q hq) ⟨hm, hp⟩
    · intro hom d q ha
      obtain ⟨n, rest, hs, hn, hop⟩ := rx_accepted S390x.frame (by decide) h ha
      exact (s390x_readsAsWritten_iff hop).mpr (fun hx => hom ⟨hs, by simp [hn], hx⟩)
  | riscv64 =>
    refine iff_of_true ?_ not_false
    intro d q ha
    obtain ⟨n, rest, -, -, hop⟩ := rx_accepted Riscv64.frame (by decide) h ha
    exact riscv64_readsAsWritten hop

/-- On aarch64 `[x12]` is read from memory. -/
theorem accepted_readsAsWritten_x12 :
    aarch64.parse (CStr.ofString "8@[x12]") 0 = .ok ⟨.accepted, { Argument.empty with
        argSize := some 8, baseRegisterName := some "regs[12]", derefOffset := some 0 }, 7⟩
      ∧ aarch64.ReadsAsWritten (operandText "8@[x12]".toList) { Argument.empty with
        argSize := some 8, baseRegisterName := some "regs[12]", derefOffset := some 0 } := by
  have hparse : aarch64.parse (CStr.ofString "8@[x12]") 0 = .ok ⟨.accepted, { Argument.empty with
      argSize := some 8, baseRegisterName := some "regs[12]", derefOffset := some 0 }, 7⟩ := by
    rfl
  have hiff := accepted_readsAsWritten_iff aarch64 (by decide) (CStr.ofString "8@[x12]") 0
    (by decide)
  exact ⟨hparse, hiff.mpr not_false _ _ hparse⟩

/-- `[$r12]` on loongarch64 and `(%r1)` on s390x are operands in memory, but the statement
    reads the register. -/
theorem bare_memory_read_as_register :
    (∃ d q, loongarch64.parse (CStr.ofString "8@[$r12]") 0 = .ok ⟨.accepted, d, q⟩
        ∧ loongarch64.operandKind (operandText "8@[$r12]".toList) = .mem ∧ d.derefOffset = none
        ∧ d.assignToLocal (fun _ _ _ => none) "" none = .ok (some (.reg "regs[12]")))
      ∧ ∃ d q, s390x.parse (CStr.ofString "8@(%r1)") 0 = .ok ⟨.accepted, d, q⟩
        ∧ s390x.operandKind (operandText "8@(%r1)".toList) = .mem ∧ d.derefOffset = none
        ∧ d.assignToLocal (fun _ _ _ => none) "" none = .ok (some (.reg "gprs[1]")) :=
  ⟨⟨_, _, rfl, rfl, rfl, rfl⟩, ⟨_, _, rfl, rfl, rfl, rfl⟩⟩

end Arch

end Bcc.Usdt
