import Bcc.Lua.Alu

namespace Bcc.Lua

open Bpf CText Function

/-!
# The Lua compiler — bytecodes with two operands

* `aluFold_computes` — if both operands count as constants, no code is emitted, and the slot is left
  a copy of the first operand, which is right in place only;
* `aluReg_compiles` — the slot for temporary values is given up behind the code.
-/

variable {slots : Nat} {o : Order slots}

/-! ### Two constants -/

/-- When folding two constants is correct: only in place, in a slot that is nothing but the
    constant and has no copies. -/
def FoldSafe (slots : Nat) (V : Table) (dst a : Nat) (v w : VInfo) : Prop :=
  isimmconst v = true → isimmconst w = true →
    dst = a ∧ v.shadow = none ∧ v.reg = none ∧ v.spill = none ∧ copies slots V dst = []

instance (V : Table) (dst a : Nat) (v w : VInfo) : Decidable (FoldSafe slots V dst a v w) :=
  inferInstanceAs (Decidable (_ → _))

/-- Another constant, in a slot that is nothing but one. -/
theorem Describes.fold {V : Table} {env : Env} {m : Machine} {x : Nat} {v : VInfo}
    (hV : Layout slots V) (hv : V x = some v) (hs : v.shadow = none) (hr : v.reg = none)
    (hspill : v.spill = none) (hno : ∀ y u, V y = some u → u.shadow ≠ some x)
    (hd : Describes slots V env m) (c : Const) :
    Describes slots (Function.update V x (some { v with const := some c }))
      (Function.update env x (constValue (some c))) m := by
  have hvalue : VInfo.value m { v with const := some c } = constValue (some c) :=
    VInfo.value_of_const hr hspill
  have hrecords : VInfo.Records { v with const := some c }
      (VInfo.value m { v with const := some c }) := by
    refine ⟨rfl, fun c' hc' _ => ?_⟩
    cases hc'
    rw [hvalue]
    rfl
  have hshadow : VInfo.shadow { v with const := some c } = none := hs
  have := hd.assign hV.toRooted (hV.dom x v hv) hno hshadow hrecords fun _ _ _ _ _ => rfl
  rwa [hvalue] at this

/-- **Two constants.** -/
theorem aluFold_computes {s : Emitter} (hV : Layout slots s.V) {dst a b : Nat} {v w : VInfo}
    (ha : s.V a = some v) (hb : s.V b = some w) (hsafe : FoldSafe slots s.V dst a v w)
    (op : Alu) :
    Yields (aluFold s dst a b v w op) fun s' => Computes slots [dst] s s'
      fun _ σ => σ.assign dst (arith op (σ.env a) (σ.env b)) := by
  unfold aluFold
  by_cases himm : isimmconst v = true ∧ isimmconst w = true
  · obtain ⟨rfl, hvs, hvr, hvspill, hcopies⟩ := hsafe himm.1 himm.2
    have hno := not_copy hV.toRooted hcopies
    have hcopy : vcopy s dst dst = .ok s := if_pos rfl
    simp only [himm.1, himm.2, ok_bind, hcopy, ha, hb, Option.bind_some]
    cases hc : v.const with
    | none => exact .of_error (by simp)
    | some c =>
      cases hd : w.const with
      | none => exact .of_error (by simp)
      | some d =>
        refine (constExpr_yields op c d).bind ?_
        rintro e ⟨he, hcnum, hdnum, x, y, hx, hy, hval⟩
        have hentry : s.modify dst (fun w => { w with const := some e })
            = ⟨Function.update s.V dst (some { v with const := some e }), s.code⟩ := by
          rw [Emitter.modify, ha, Option.map_some]
        have hadmits : Admits s.V dst { v with const := some e } :=
          ⟨fun _ _ _ _ h => by simp [hvr] at h, fun _ h => by simp [hvspill] at h,
            fun _ h => by simp [hvr] at h⟩
        refine .of_ok ⟨?_, fun t ht hs => ?_, [], ?_, fun world m env hdesc => ⟨?_, rfl⟩⟩
        · rw [hentry]
          exact hV.put hadmits (hV.cut (hV.dom dst v ha) hvs)
        · rw [hentry]
          exact hs.update (fun h => ht (by simp [h])) (by simp [hvs])
        · exact (List.append_nil _).symm
        · have haccess := (hdesc dst v ha).2.1
          rw [hc, Option.bind_some, access_of_number hcnum] at haccess
          have hvalue : constValue (some e) = arith op (env dst) (env b) := by
            rw [constValue, Option.bind_some, Option.bind_some, hval, access_of_number he, arith,
              ← (hdesc dst v ha).2.2 c hc hcnum, hx, ← (hdesc b w hb).2.2 d hd hdnum, hy, ← haccess]
            rfl
          have := hdesc.fold hV ha hvs hvr hvspill hno e
          rwa [hentry, ← hvalue]
  · have hreject : (!isimmconst v || !isimmconst w) = true := by
      rw [Bool.or_eq_true, Bool.not_eq_true', Bool.not_eq_true', ← Bool.not_eq_true,
        ← Bool.not_eq_true, ← not_and_or]
      exact himm
    simp only [hreject]
    exact .of_error (by simp)

/-! ### Two slots -/

/-- Both operands count as constants. -/
def Folds (v w : VInfo) : Prop := (foldable v).isSome = true ∧ ¬ w.const.any Const.isProxy = true

instance (v w : VInfo) : Decidable (Folds v w) := inferInstanceAs (Decidable (_ ∧ _))

/-- When `ALU_REG` is correct. -/
def RegSafe (o : Order slots) (s : Emitter) (dst a b : Nat) (v w : VInfo) : Prop :=
  (Folds v w → FoldSafe slots s.V dst a v w) ∧ (¬ Folds v w → VarsSafe o s dst a b v w)

instance (s : Emitter) (dst a b : Nat) (v w : VInfo) : Decidable (RegSafe o s dst a b v w) :=
  inferInstanceAs (Decidable (_ ∧ _))

/-! ### Temporary values -/

/-- The code between two states of the compiler does to the slots of the program what `f` says. -/
structure Compiles (slots : Nat) (s s' : Emitter) (f : World → Values → Values) : Prop where
  layout : Layout slots s'.V
  scratch : Scratch s'.V slots
  code : ∃ c, s'.code = s.code ++ c ∧ ∀ w m env, Describes slots s.V env m →
    ∃ env', (∀ x < slots, env' x = (f w ⟨env, m.calls⟩).env x)
      ∧ Describes slots s'.V env' (exec w m c)
      ∧ (exec w m c).calls = (f w ⟨env, m.calls⟩).calls

section Compiles

variable {s s' : Emitter} {f : World → Values → Values}

theorem Computes.compiles {uses : List Nat} (h : Computes slots uses s s' f)
    (hscratch : Scratch s.V slots) (huses : slots ∉ uses) :
    Compiles slots s s' f := by
  obtain ⟨c, hc, hrun⟩ := h.code
  exact ⟨h.layout, h.scratch _ huses hscratch, c, hc,
    fun w m env hd => ⟨_, fun _ _ => rfl, hrun w m env hd⟩⟩

/-- `V[slots].reg = nil`. -/
theorem Compiles.release (h : Compiles slots s s' f) :
    Compiles slots s (s'.modify slots fun v => { v with reg := none }) f := by
  obtain ⟨v, hv, hs, hc⟩ := h.scratch.entry
  have hentry : s'.modify slots (fun v => { v with reg := none })
      = ⟨Function.update s'.V slots (some { v with reg := none }), s'.code⟩ := by
    rw [Emitter.modify, hv, Option.map_some]
  have hshadow : VInfo.shadow { v with reg := none } = none := hs
  have hadmits : Admits s'.V slots { v with reg := none } :=
    ⟨fun _ _ _ _ h => by simp at h, fun slot => h.layout.spill_eq slots v slot hv,
      fun _ h => by simp at h⟩
  have hdom := h.layout.dom slots v hv
  obtain ⟨c, hcode, hrun⟩ := h.code
  rw [hentry]
  refine ⟨h.layout.put hadmits (h.layout.cut hdom hs), h.scratch.touch hv rfl rfl, c, hcode,
    fun w m env hd => ?_⟩
  obtain ⟨env', hagree, hd', hcalls⟩ := hrun w m env hd
  have hrecords : VInfo.Records { v with reg := none }
      (VInfo.value (exec w m c) { v with reg := none }) :=
    ⟨rfl, fun c' hc' => by simp [hc] at hc'⟩
  refine ⟨_, fun x hx => ?_, hd'.assign h.layout.toRooted hdom h.scratch.no_copy hshadow hrecords
    fun _ _ _ _ _ => rfl, hcalls⟩
  rw [update_of_ne (Nat.ne_of_lt hx)]
  exact hagree x hx

theorem Owned.release {x t : Nat} (h : Owned s.V x) (hx : x ≠ t) :
    Owned (s.modify t fun v => { v with reg := none }).V x := by
  obtain ⟨⟨u, r, hu, hus, hur⟩, hno⟩ := h
  rw [Emitter.modify_V]
  refine ⟨⟨u, r, by rw [update_of_ne hx, hu], hus, hur⟩, fun y w hw => ?_⟩
  by_cases hy : y = t
  · subst hy
    rw [update_self] at hw
    obtain ⟨u', hu', rfl⟩ := Option.map_eq_some_iff.mp hw
    exact hno y u' hu'
  · rw [update_of_ne hy] at hw
    exact hno y w hw

end Compiles

/-- **`ALU_REG`.** -/
theorem aluReg_compiles {s : Emitter} (hV : Layout slots s.V)
    (hscratch : Scratch s.V slots) {dst a b : Nat} {v w : VInfo} (hdst : dst < slots)
    (hne : a ≠ slots) (ha : s.V a = some v) (hb : s.V b = some w)
    (hsafe : RegSafe o s dst a b v w) (op : Alu) :
    Yields (aluReg o s dst a b op) fun s' => (¬ Folds v w → Owned s'.V dst)
      ∧ Compiles slots s s' fun _ σ => σ.assign dst (arith op (σ.env a) (σ.env b)) := by
  have hwritten : slots ∉ written dst a := by
    rw [written]
    split
    · simp
    · simp [hne.symm, (Nat.ne_of_lt hdst).symm]
  simp only [aluReg, ha, hb]
  by_cases hfold : Folds v w
  · rw [if_pos (show _ ∧ _ from hfold)]
    refine (aluFold_computes hV ha hb (hsafe.1 hfold) op).mono fun s' h => ?_
    exact ⟨fun h => absurd hfold h, h.compiles hscratch (by simp [(Nat.ne_of_lt hdst).symm])⟩
  · rw [if_neg (show ¬ (_ ∧ _) from hfold)]
    refine (aluVars_computes hV (by omega) ha hb (hsafe.2 hfold) op).bind ?_
    rintro s' ⟨howned, h⟩
    exact .of_ok ⟨fun _ => howned.release (Nat.ne_of_lt hdst),
      (h.compiles hscratch hwritten).release⟩

/-! ### A number on the left -/

/-- When `ALU_IMM_NV` is not wrong: it is rejected, since the number is stored without a type;
    a proxy as the other operand gets around the check. -/
def NvSafe (w : VInfo) : Prop := ¬ w.const.any Const.isProxy = true

instance (w : VInfo) : Decidable (NvSafe w) := inferInstanceAs (Decidable (¬ _))

/-- **`ALU_IMM_NV`.** -/
theorem aluImmNv_rejects {s : Emitter} {b : Nat} {w : VInfo} (hb : s.V b = some w)
    (hlt : b < slots) (hsafe : NvSafe w) (dst : Nat) (c : Int) (op : Alu) :
    aluImmNv o s dst c b op = .error .assertion := by
  obtain ⟨w', hw', hconst⟩ : ∃ w', handOver s.V (slots + 1) b = some w'
      ∧ w'.const = w.const := by
    unfold handOver
    cases (s.V (slots + 1)).bind VInfo.reg with
    | none => exact ⟨w, hb, rfl⟩
    | some r =>
      refine ⟨if w.shadow = some (slots + 1) then { w with reg := some r, shadow := none }
        else w, by simp [hb], ?_⟩
      split <;> rfl
  have hb' : (vset s (slots + 1) none (some (.num c)) none).V b = some w' := by
    have hne : b ≠ slots + 1 := by omega
    simp [vset, update_of_ne hne, hw']
  have ha' : (vset s (slots + 1) none (some (.num c)) none).V (slots + 1)
      = some ⟨none, none, some (.num c), none, none, none⟩ := update_self ..
  simp only [aluImmNv, aluReg, ha', hb', hconst]
  rw [if_pos ⟨rfl, hsafe⟩]
  rfl

end Bcc.Lua
