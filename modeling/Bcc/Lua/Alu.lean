import Bcc.Lua.Computes

namespace Bcc.Lua

open Bpf CText Function List

/-!
# The Lua compiler — sums and differences

The code for `ADD` and `SUB` computes into the register of the slot it assigns to, which is a
copy of the first operand before.

* `aluImm_computes`, `aluVars_computes` — the code for an immediate, and for registers;
* `vset_computes` — none is needed for constants.
-/

variable {slots : Nat} {o : Order slots}

/-- The result of an operation; it is read the way the first operand is. -/
def arith (op : Alu) (x y : Value) : Value :=
  ⟨x.word.bind fun a => y.word.map (op.eval a), x.access⟩

/-- A number of the program. -/
def number (n : Int) : Value := ⟨some (BitVec.ofInt 64 n), none⟩

/-! ### Constants -/

theorem ofInt_sub (n k : Int) :
    (BitVec.ofInt 64 (n - k) : Word) = BitVec.ofInt 64 n - BitVec.ofInt 64 k := by
  rw [Int.sub_eq_add_neg, BitVec.ofInt_add, BitVec.ofInt_neg, BitVec.sub_eq_add_neg]

theorem access_of_number {c : Const} (h : c.isNumber = true) : c.access = none := by
  cases c with
  | num _ | cdata _ => rfl
  | proxy _ | other _ => simp [Const.isNumber] at h

/-- **Computing with constants** is what the machine would do. -/
theorem constExpr_yields (op : Alu) (c d : Const) : Yields (constExpr op c d) fun e =>
    e.isNumber = true ∧ c.isNumber = true ∧ d.isNumber = true
      ∧ ∃ x y, c.word = some x ∧ d.word = some y ∧ e.word = some (op.eval x y) := by
  have hstep : ∀ n k : Int, (op = .add ∨ op = .sub) →
      BitVec.ofInt 64 (if op = .add then n + k else n - k)
        = op.eval (BitVec.ofInt 64 n) (BitVec.ofInt 64 k) := by
    rintro n k (rfl | rfl)
    · exact BitVec.ofInt_add n k
    · exact ofInt_sub n k
  unfold constExpr
  split
  case h_3 => exact .of_error (by simp)
  -- the two operations there are, with a number or a word on either side
  all_goals
    split
    · next n k =>
      exact .of_ok ⟨rfl, rfl, rfl, _, _, rfl, rfl, congrArg some (hstep n k (by simp))⟩
    · exact .of_ok ⟨rfl, rfl, rfl, _, _, rfl, rfl, rfl⟩
    · exact .of_ok ⟨rfl, rfl, rfl, _, _, rfl, rfl, rfl⟩
    · exact .of_ok ⟨rfl, rfl, rfl, _, _, rfl, rfl, rfl⟩
    · exact .of_error (by simp)

section Constants

variable {v : VInfo} {c : Const}

theorem foldable_eq_some (h : foldable v = some c) : v.const = some c :=
  (Option.filter_eq_some_iff.mp h).1

theorem not_number_of_foldable (h : foldable v = none) : ∀ c ∈ v.const, c.isNumber = false := by
  intro c hc
  rw [foldable, hc, Option.filter_some] at h
  cases c with
  | proxy _ => rfl
  | other _ => rfl
  | num _ | cdata _ => simp [Const.isProxy] at h

end Constants

/-! ### An immediate -/

instance (type : Option CType) : ∀ c, Decidable (Const.Fits type c)
  | .num n => inferInstanceAs (Decidable
      (if type = some (.bytes 8) then 0 ≤ n ∧ n < 2 ^ 32 else -2 ^ 31 ≤ n ∧ n < 2 ^ 31))
  | .cdata _ => inferInstanceAs (Decidable (_ ∨ _))
  | .proxy _ => inferInstanceAs (Decidable (_ ∧ _))
  | .other _ => inferInstanceAs (Decidable True)

variable {x : Nat}

theorem fitsAt_iff {V : Table} {vtype : Option CType} : FitsAt slots V vtype x ↔
    ((follow V (slots + 3) x).toOption.all fun w => w.reg.isSome || w.spill.isSome
      || w.const.all fun c => decide (c.Fits (vtype.or w.type))) = true := by
  rw [FitsAt]
  cases follow V (slots + 3) x with
  | error e => simp [Except.toOption]
  | ok w =>
    simp only [Except.ok.injEq, forall_eq', Except.toOption, Option.all_some]
    cases w.reg <;> cases w.spill <;> cases w.const <;> simp

instance (V : Table) (vtype : Option CType) (x : Nat) : Decidable (FitsAt slots V vtype x) :=
  decidable_of_iff' _ fitsAt_iff

/-- When `ALU_IMM` is correct: a folded constant is put into a slot that may be overwritten.
    Otherwise the slot has no copies, the immediate fits, and there is room. -/
def ImmSafe (o : Order slots) (s : Emitter) (dst a : Nat) (b : Int) (v : VInfo) : Prop :=
  ((foldable v).isSome = true → isimmconst v = true → Overwritable slots s.V dst)
    ∧ ((foldable v).isSome = false →
      copies slots s.V dst = [] ∧ FitsAt slots s.V none a
        ∧ Room o s.V (s.pc - 1) (if dst = a then v.need else 1) [dst] [dst]
        ∧ -2 ^ 31 ≤ b ∧ b < 2 ^ 31)

instance (s : Emitter) (dst a : Nat) (b : Int) (v : VInfo) : Decidable (ImmSafe o s dst a b v) :=
  inferInstanceAs (Decidable (_ ∧ _))

variable {s : Emitter}

theorem Scratch.vset {t : Nat} (h : Scratch s.V t) (hx : x ≠ t) (const : Option Const)
    (vtype : Option CType) : Scratch (vset s x none const vtype).V t := by
  obtain ⟨⟨v, hv, hs, hc⟩, hno⟩ := h
  have hover : Scratch (handOver s.V x) t := by
    unfold handOver
    split
    · exact ⟨⟨v, hv, hs, hc⟩, hno⟩
    · refine ⟨⟨v, by simp [hv, hs], hs, hc⟩, fun y u hu => ?_⟩
      obtain ⟨w, hw, rfl⟩ := Option.map_eq_some_iff.mp hu
      split
      · simp
      · exact hno y w hw
  exact hover.update hx (by simp)

/-- **`vset`** as code. -/
theorem vset_computes (hV : Layout slots s.V) (hx : x < slots + 2)
    (hover : Overwritable slots s.V x) (const : Option Const) (vtype : Option CType) :
    Computes slots [x] s (vset s x none const vtype)
      fun _ σ => σ.assign x (constValue const) := by
  obtain ⟨hlayout, -, hd⟩ := vset_correct hV hx hover const vtype
  refine ⟨hlayout, fun t ht hs => hs.vset (fun h => ht (by simp [h])) const vtype, [],
    (append_nil _).symm, fun w m env h => ⟨hd m env h, rfl⟩⟩

variable {dst a : Nat}

/-- **`ALU_IMM`.** -/
theorem aluImm_computes (hV : Layout slots s.V) {v : VInfo} (hdst : dst < slots + 2)
    (ha : s.V a = some v) {b : Int} (hsafe : ImmSafe o s dst a b v) (op : Alu) :
    Yields (aluImm o s dst a b op) fun s' => Computes slots (written dst a) s s'
      fun _ σ => σ.assign dst (arith op (σ.env a) (number b)) := by
  rw [aluImm, ha]
  dsimp only
  cases hfold : foldable v with
  | some c =>
    have hover := hsafe.1 (by rw [hfold]; rfl)
    have hc := foldable_eq_some hfold
    by_cases himm : isimmconst v = true
    · simp only [himm]
      refine (constExpr_yields op c (.num b)).bind ?_
      rintro e ⟨he, hcnum, -, x, y, hx, hy, hval⟩
      have hset := vset_computes hV hdst (hover himm) (some e) none
      obtain ⟨code, hcode, hrun⟩ := hset.code
      refine .of_ok ⟨hset.layout, fun t ht hs => hset.scratch t (fun h => ?_) hs, code, hcode,
        fun w m env hd => ?_⟩
      · obtain rfl := mem_singleton.mp h
        by_cases hda : t = a
        · -- the slot is not one for temporary values
          obtain ⟨u, hu, -, huc⟩ := hs.entry
          cases hu.symm.trans (hda ▸ ha)
          simp [hc] at huc
        · simp [written, hda] at ht
      · have hword := (hd a v ha).2.2 c hc hcnum
        have haccess := (hd a v ha).2.1
        rw [hc, Option.bind_some, access_of_number hcnum] at haccess
        have hresult : constValue (some e) = arith op (env a) (number b) := by
          rw [constValue, Option.bind_some, Option.bind_some, access_of_number he, hval, arith,
            ← hword, hx, ← haccess]
          cases hy
          rfl
        have := hrun w m env hd
        rwa [hresult] at this
    · simp only [himm]
      exact .of_error (by simp)
  | none =>
    obtain ⟨hcopies, hfit, hroom, himm⟩ := hsafe.2 (by rw [hfold]; rfl)
    have hno := not_copy hV.toRooted hcopies
    have hcopy := copy_loads hV hdst ha hno hfit hroom (cons_subset.mpr ⟨by simp, by simp⟩)
      le_rfl fun y hy hne => absurd (mem_singleton.mp hy) hne
    rw [← bind_assoc]
    refine hcopy.bind ?_
    rintro ⟨r, s₁⟩ h
    have hcomputes := h.computes (not_number_of_foldable hfold) (i := .aluImm op r b)
      (fun w m => rfl) (f := fun env => (arith op (env a) (number b)).word)
      fun m m' env hd hd' _ => by
        obtain ⟨u, hu, hus, hur, -⟩ := h.entry
        have hword := hd'.word_of_reg hu hus hur
        rw [update_self] at hword
        rw [hword, imm32_of_fits himm]
        rfl
    exact .of_ok (hcomputes.retype dst ((s₁.V a).bind VInfo.type))

/-! ### Two variables -/

/-- When the code for two variables is correct.  The slot has no copies but the second operand,
    and if it is the second operand, then that one is in a register that is not given out. -/
def VarsSafe (o : Order slots) (s : Emitter) (dst a b : Nat) (v w : VInfo) : Prop :=
  foldable v = none ∧ (∀ y ∈ copies slots s.V dst, y = b)
    ∧ (dst = b → dst = a ∨ w.shadow = none ∧ (w.reg = some 0 ∨ w.reg = some 6))
    ∧ FitsAt slots s.V none a ∧ FitsAt slots s.V none b
    ∧ Room o s.V (s.pc - 1) (w.need + if dst = a then v.need else 1) [b] [dst, b]

instance (s : Emitter) (dst a b : Nat) (v w : VInfo) : Decidable (VarsSafe o s dst a b v w) :=
  inferInstanceAs (Decidable (_ ∧ _))

/-- What is left for the slot when the second operand is in a register. -/
theorem room_for_copy {s₁ : Emitter} (hV : Layout slots s.V) {b r t : Nat}
    {v w w' v₁ : VInfo} (ha : s.V a = some v) (hb : s.V b = some w)
    (h : Loads o none b r w w' s s₁) (ha₁ : s₁.V a = some v₁)
    (hroom : Room o s.V t (w.need + if dst = a then v.need else 1) [b] [dst, b]) :
    Room o s₁.V t (if dst = a then v₁.need else 1) [b] [dst, b] := by
  have hleft := hroom.loads hV hb h (mem_singleton_self b) (by simp)
  by_cases hda : dst = a
  · subst hda
    rw [if_pos rfl] at hleft ⊢
    rw [if_pos rfl] at hroom
    by_cases hs₁ : v₁.Settled
    · rw [VInfo.need, if_pos hs₁]
      exact .inl (Nat.zero_le _)
    have hdb : dst ≠ b := by
      rintro rfl
      cases ha₁.symm.trans h.entry
      exact hs₁ ⟨by simp [h.reg], h.shadow⟩
    rw [VInfo.need, if_neg hs₁]
    by_cases hs : v.Settled
    · -- the second operand has its register now
      have hmoved : s₁.V dst ≠ s.V dst := by
        intro heq
        rw [ha₁, ha] at heq
        exact hs₁ (Option.some.inj heq ▸ hs)
      have hsw : ¬ w.Settled := fun hsw => hmoved (h.others_of_settled hV hb hsw hdb)
      rw [VInfo.need, if_neg hsw, VInfo.need, if_pos hs] at hroom
      exact hroom.loads_moved hV hb h Nat.one_pos (mem_singleton_self b) (by simp)
        (by simp) hdb hmoved
    · rwa [VInfo.need, if_neg hs] at hleft
  · rw [if_neg hda] at hleft ⊢
    exact hleft

/-- **Two variables.** -/
theorem aluVars_computes (hV : Layout slots s.V) {b : Nat} {v w : VInfo}
    (hdst : dst < slots + 2) (ha : s.V a = some v) (hb : s.V b = some w)
    (hsafe : VarsSafe o s dst a b v w) (op : Alu) :
    Yields (aluVars o s dst a b op) fun s' => Owned s'.V dst
      ∧ Computes slots (written dst a) s s'
        fun _ σ => σ.assign dst (arith op (σ.env a) (σ.env b)) := by
  obtain ⟨hfold, hcopies, hdb, hfita, hfitb, hroom⟩ := hsafe
  refine (vreg_loads hV hb hroom (mem_singleton_self b) (by simp) le_rfl
    (fun y hy hne => absurd (mem_singleton.mp hy) hne) hfitb).bind ?_
  rintro ⟨src, s₁⟩ ⟨w', h, -, -⟩
  have hV₁ := h.moves.layout
  obtain ⟨v₁, ha₁, hconst₁⟩ := h.const_of hb ha
  have hno : ∀ y u, s₁.V y = some u → u.shadow ≠ some dst := by
    intro y u hu hus
    rcases h.shadow_of hu with ⟨-, hnone⟩ | ⟨hy, u₀, hu₀, hshadow⟩
    · simp [hnone] at hus
    · exact hy (hcopies y ((mem_copies hV.toRooted).mpr ⟨u₀, hu₀, hshadow.symm.trans hus⟩))
  obtain ⟨c₁, hc₁, hrun₁⟩ := h.moves.code
  have ht : s.pc - 1 ≤ s₁.pc - 1 := Emitter.pc_le hc₁
  dsimp only
  rw [← bind_assoc]
  refine (copy_loads hV₁ hdst ha₁ hno (hfita.loads hV h) (room_for_copy hV ha hb h ha₁ hroom)
    (by simp) ht fun y hy _ u hu => ?_).bind ?_
  · obtain rfl := mem_singleton.mp hy
    cases hu.symm.trans h.entry
    exact ⟨_, h.live, le_rfl⟩
  rintro ⟨r, s₂⟩ h₂
  obtain ⟨u, hu, hus, hur, -⟩ := h₂.entry
  have hnum₁ : ∀ c ∈ v₁.const, c.isNumber = false := by
    rcases hconst₁ with h | h
    · exact h ▸ not_number_of_foldable hfold
    · simp [h]
  -- the second operand is still in its register
  have hsrc : ∀ m m' env, Describes slots s₁.V env m →
      Describes slots s₂.V (update env dst (env a)) m' →
      (∀ q ≠ r, m'.regs q = m.regs q) → (env b).word = some (m'.regs src) := by
    intro m m' env hd hd' hregs
    by_cases hne : b = dst
    · subst hne
      by_cases hba : b = a
      · subst hba
        cases ha₁.symm.trans h.entry
        have hr := h₂.stays rfl ⟨by simp [h.reg], h.shadow⟩
        cases h.reg.symm.trans hr
        rw [update_eq_self] at hd'
        rw [hd'.word_of_reg hu hus hur]
      · obtain ⟨hws, hwr⟩ := (hdb rfl).resolve_left hba
        have hsrc : w.reg = some src := h.stays rfl ⟨by rcases hwr with h | h <;> simp [h], hws⟩
        have hne : src ≠ r := by
          rintro rfl
          rcases h₂.source hba with hr | ⟨k, u', hk, hu', hus', hur'⟩
          · rcases hwr with h' | h' <;> simp only [hsrc, Option.some.injEq] at h' <;> omega
          · exact hk (hV₁.unique k b u' w' src hu' hus' hur' h.entry h.shadow h.reg)
        rw [hregs src hne, hd.word_of_reg h.entry h.shadow h.reg]
    · have hb₂ := h₂.others b (mem_singleton_self b) hne
      have hword := hd'.word_of_reg (hb₂.trans h.entry) h.shadow h.reg
      rw [update_of_ne hne] at hword
      rw [hword]
  have hcomputes := h₂.computes hnum₁ (i := .alu op r src) (fun w m => rfl)
    (f := fun env => (arith op (env a) (env b)).word) fun m m' env hd hd' hregs => by
      have hword := hd'.word_of_reg hu hus hur
      rw [update_self] at hword
      rw [arith, hsrc m m' env hd hd' hregs, hword]
      rfl
  obtain ⟨c₂, hc₂, hrun₂⟩ := hcomputes.code
  refine .of_ok ⟨⟨⟨u, r, hu, hus, hur⟩, h₂.no_copy⟩, hcomputes.layout, fun t ht hs => ?_,
    c₁ ++ c₂, ?_, fun w m env hd => ?_⟩
  · exact hcomputes.scratch t ht (h.scratch hb hs)
  · rw [hc₂, hc₁, append_assoc]
  · obtain ⟨hd₁, -, hcalls⟩ := hrun₁ w m env hd
    have := hrun₂ w _ env hd₁
    rwa [hcalls, ← exec_append] at this

end Bcc.Lua
