import Bcc.Lua.Live
import Bcc.Lua.Proxy

namespace Bcc.Lua

open Bpf CText Function

/-!
# The Lua compiler — straight-line code

* `Straight.run` — what the bytecodes without control flow mean;
* `Straight.Safe`, `emit_compiles` — when the compiler is right about one of them;
* `compile_tracks` — then the table describes the slots after any number of them.
-/

variable {stackslots : Nat} {o : Order stackslots}

/-! ### What bytecodes mean -/

/-- What a bytecode does to the slots.  A sum with the number on the left is the same sum. -/
def Straight.run (world : World) (σ : Values) : Straight → Values
  | .knum a c => σ.assign a (number c)
  | .kshort a d => σ.assign a (number d)
  | .kcdata a c => σ.assign a ⟨some c, none⟩
  | .kpri a d => σ.assign a (number (if d < 2 then 0 else 1))
  | .kstr a _ => σ.assign a ⟨none, none⟩
  | .gget a value => σ.assign a (constValue (some value))
  | .mov a d => σ.assign a (σ.env d)
  | .addvn a b c => σ.assign a (arith .add (σ.env b) (number c))
  | .subvn a b c => σ.assign a (arith .sub (σ.env b) (number c))
  | .addnv a b c => σ.assign a (arith .add (σ.env b) (number c))
  | .subnv a b c => σ.assign a (arith .sub (number c) (σ.env b))
  | .addvv a b d => σ.assign a (arith .add (σ.env b) (σ.env d))
  | .subvv a b d => σ.assign a (arith .sub (σ.env b) (σ.env d))
  | .tget a b off w => σ.assign a ⟨fieldWord world (σ.env b) off w, none⟩
  | .call a h _ => ⟨update σ.env a ⟨some (world.helper σ.calls h), none⟩, σ.calls + 1⟩

/-- The slots that a bytecode names. -/
def Straight.slots : Straight → List Nat
  | .knum a _ | .kshort a _ | .kcdata a _ | .kpri a _ | .kstr a _ | .gget a _ => [a]
  | .mov a d => [a, d]
  | .addvn a b _ | .subvn a b _ | .addnv a b _ | .subnv a b _ | .tget a b _ _ => [a, b]
  | .addvv a b d | .subvv a b d => [a, b, d]
  | .call a _ _ => [a]

/-- The slots of a program agree. -/
def Agree (stackslots : Nat) (σ σ' : Values) : Prop :=
  (∀ x < stackslots, σ.env x = σ'.env x) ∧ σ.calls = σ'.calls

theorem Agree.assign {σ σ' : Values} (h : Agree stackslots σ σ') (a : Nat) {val val' : Value}
    (hval : val = val') : Agree stackslots (σ.assign a val) (σ'.assign a val') := by
  subst hval
  refine ⟨fun x hx => ?_, h.2⟩
  rw [Values.assign_env, Values.assign_env]
  by_cases hxa : x = a
  · subst hxa
    rw [update_self, update_self]
  · rw [update_of_ne hxa, update_of_ne hxa]
    exact h.1 x hx

/-- Bytecodes look at the slots that they name, and at no others. -/
theorem Straight.run_congr (world : World) {σ σ' : Values} (h : Agree stackslots σ σ')
    {op : Straight} (hop : ∀ x ∈ op.slots, x < stackslots) :
    Agree stackslots (op.run world σ) (op.run world σ') := by
  cases op with
  | knum | kshort | kcdata | kpri | kstr | gget => exact h.assign _ rfl
  | mov a d =>
    have hd := h.1 d (hop d (by simp [slots]))
    exact h.assign a hd
  | addvn a b | subvn a b | addnv a b | subnv a b | tget a b =>
    have hb := h.1 b (hop b (by simp [slots]))
    exact h.assign a (by rw [hb])
  | addvv a b d | subvv a b d =>
    have hb := h.1 b (hop b (by simp [slots]))
    have hd := h.1 d (hop d (by simp [slots]))
    exact h.assign a (by rw [hb, hd])
  | call a f =>
    have hresult : (⟨some (world.helper σ.calls f), none⟩ : Value)
        = ⟨some (world.helper σ'.calls f), none⟩ := by rw [h.2]
    exact ⟨(h.assign a hresult).1, congrArg (· + 1) h.2⟩

/-! ### One bytecode -/

/-- When the compiler is right about a bytecode, by the table before it. -/
def Straight.Safe (o : Order stackslots) (s : Emitter) : Straight → Prop
  | .knum a _ | .kshort a _ | .kcdata a _ | .kpri a _ | .kstr a _ | .gget a _ =>
    Overwritable stackslots s.V a
  | .mov a d => a = d ∨ copies stackslots s.V a = []
  | .addvn a b c | .subvn a b c | .addnv a b c => ∀ v ∈ s.V b, ImmSafe o s a b c v
  | .subnv _ b _ => ∀ w ∈ s.V b, NvSafe w
  | .addvv a b d | .subvv a b d => ∀ v ∈ s.V b, ∀ w ∈ s.V d, RegSafe o s a b d v w
  | .tget a b _ w => TgetSafe o s a b w
  | .call a _ _ => Overwritable stackslots s.V a

instance (s : Emitter) : ∀ op, Decidable (Straight.Safe o s op)
  | .knum a _ | .kshort a _ | .kcdata a _ | .kpri a _ | .kstr a _ | .gget a _ | .call a _ _ =>
    inferInstanceAs (Decidable (Overwritable stackslots s.V a))
  | .mov a d => inferInstanceAs (Decidable (a = d ∨ copies stackslots s.V a = []))
  | .addvn a b c | .subvn a b c | .addnv a b c =>
    inferInstanceAs (Decidable (∀ v ∈ s.V b, ImmSafe o s a b c v))
  | .subnv _ b _ => inferInstanceAs (Decidable (∀ w ∈ s.V b, NvSafe w))
  | .addvv a b d | .subvv a b d =>
    inferInstanceAs (Decidable (∀ v ∈ s.V b, ∀ w ∈ s.V d, RegSafe o s a b d v w))
  | .tget a b _ w => inferInstanceAs (Decidable (TgetSafe o s a b w))

section Step

variable {s : Emitter} {a b d : Nat}

theorem nv_rejects (hb : b < stackslots) (hsafe : ∀ w ∈ s.V b, NvSafe w) (c : Int)
    (Q : Emitter → Prop) : Yields (aluImmNv o s a c b .sub) Q := by
  cases hw : s.V b with
  | none =>
    have hne : b ≠ stackslots + 1 := by omega
    have hb' : (vset s (stackslots + 1) none (some (.num c)) none).V b = none := by
      have hover := handOver_isSome s.V (stackslots + 1) b
      rw [hw] at hover
      simp only [vset, update_of_ne hne]
      exact Option.not_isSome_iff_eq_none.mp (by simp [hover])
    simp only [aluImmNv, aluReg]
    split
    · simp_all
    · exact .of_error (by simp)
  | some w =>
    rw [aluImmNv_rejects hw hb (hsafe w hw)]
    exact .of_error (by simp)

variable (hV : Layout stackslots s.V) (hscratch : Scratch s.V stackslots)
include hV hscratch

theorem mov_compiles (ha : a < stackslots) (hd : d < stackslots)
    (hsafe : a = d ∨ copies stackslots s.V a = []) :
    Yields (vcopy s a d) fun s' => Compiles stackslots s s' fun _ σ => σ.assign a (σ.env d) := by
  by_cases had : a = d
  · subst had
    have hcopy : vcopy s a a = .ok s := if_pos rfl
    rw [hcopy]
    refine .of_ok ⟨hV, hscratch, [], (List.append_nil _).symm, fun w m env hd =>
      ⟨env, fun x _ => ?_,
      hd, rfl⟩⟩
    rw [Values.assign_env, update_eq_self]
  · have hno := not_copy hV.toRooted (hsafe.resolve_left had)
    cases hv : s.V d with
    | none =>
      simp only [vcopy, if_neg had, hv]
      exact .of_error (by simp)
    | some v =>
      obtain ⟨s', hs', hcode, hV', hlayout, hrun⟩ := vcopy_correct hV (by omega) hv had hno
      rw [hs']
      refine .of_ok ⟨hlayout, ?_, [], by rw [hcode, List.append_nil],
        fun w m env hdesc => ⟨_, fun _ _ => rfl, hrun m env hdesc, rfl⟩⟩
      rw [hV']
      exact hscratch.update (by omega) fun h => by
        have := Option.some.inj h
        omega

theorem imm_compiles (ha : a < stackslots) (hb : b < stackslots) {c : Int}
    (hsafe : ∀ v ∈ s.V b, ImmSafe o s a b c v) (op : Alu) :
    Yields (aluImm o s a b c op) fun s' => Compiles stackslots s s'
      fun _ σ => σ.assign a (arith op (σ.env b) (number c)) := by
  cases hv : s.V b with
  | none =>
    simp only [aluImm, hv]
    exact .of_error (by simp)
  | some v =>
    refine (aluImm_computes hV (by omega) hv (hsafe v hv) op).mono fun s' h => ?_
    refine h.compiles hscratch ?_
    rw [written]
    split
    · simp
    · simp [(Nat.ne_of_lt ha).symm, (Nat.ne_of_lt hb).symm]

theorem reg_compiles (ha : a < stackslots) (hb : b < stackslots)
    (hsafe : ∀ v ∈ s.V b, ∀ w ∈ s.V d, RegSafe o s a b d v w) (op : Alu) :
    Yields (aluReg o s a b d op) fun s' => Compiles stackslots s s'
      fun _ σ => σ.assign a (arith op (σ.env b) (σ.env d)) := by
  cases hv : s.V b with
  | none =>
    simp only [aluReg, hv]
    exact .of_error (by simp)
  | some v =>
    cases hw : s.V d with
    | none =>
      simp only [aluReg, hv, hw]
      exact .of_error (by simp)
    | some w =>
      exact (aluReg_compiles hV hscratch ha (Nat.ne_of_lt hb) hv hw (hsafe v hv w hw) op).mono
        fun _ h => h.2

/-- **One bytecode.** -/
theorem emit_compiles {op : Straight} (hop : ∀ x ∈ op.slots, x < stackslots)
    (hsafe : op.Safe o s) :
    Yields (op.emit o s) fun s' => Compiles stackslots s s' fun w σ => op.run w σ := by
  -- constants
  have hset : ∀ a const vtype, a < stackslots → Overwritable stackslots s.V a →
      Yields (.ok (vset s a none const vtype) : Res Emitter) fun s' =>
        Compiles stackslots s s' fun _ σ => σ.assign a (constValue const) := by
    intro a const vtype ha hover
    have h := vset_computes hV (by omega) hover const vtype
    exact .of_ok (h.compiles hscratch (by simp [(Nat.ne_of_lt ha).symm]))
  cases op with
  | knum a c | kshort a c | kcdata a c | kpri a c | kstr a c | gget a c =>
    exact hset a _ _ (hop a (by simp [Straight.slots])) hsafe
  | mov a d =>
    exact mov_compiles hV hscratch (hop a (by simp [Straight.slots]))
      (hop d (by simp [Straight.slots])) hsafe
  | addvn a b c | subvn a b c | addnv a b c =>
    exact imm_compiles hV hscratch (hop a (by simp [Straight.slots]))
      (hop b (by simp [Straight.slots])) hsafe _
  | subnv a b c => exact nv_rejects (hop b (by simp [Straight.slots])) hsafe c _
  | addvv a b d | subvv a b d =>
    exact reg_compiles hV hscratch (hop a (by simp [Straight.slots]))
      (hop b (by simp [Straight.slots])) hsafe _
  | tget a b off w =>
    exact tget_compiles hV hscratch (hop a (by simp [Straight.slots])) hsafe off
  | call a f w =>
    exact callHelper_compiles hV hscratch (hop a (by simp [Straight.slots])) hsafe f w

end Step

/-! ### Whole programs -/

/-- The table and the machine after code, from any state of the machine on, when the slots of the
    program have the values that `F` gives. -/
structure Tracks (stackslots : Nat) (s : Emitter) (F : World → Machine → Values) : Prop where
  layout : Layout stackslots s.V
  scratch : Scratch s.V stackslots
  values : ∀ w m, ∃ env, (∀ x < stackslots, env x = (F w m).env x)
    ∧ Describes stackslots s.V env (exec w m s.code) ∧ (exec w m s.code).calls = (F w m).calls

theorem Tracks.step {s s' : Emitter} {F : World → Machine → Values} {op : Straight}
    (h : Tracks stackslots s F) (hop : ∀ x ∈ op.slots, x < stackslots)
    (h' : Compiles stackslots s s' fun w σ => op.run w σ) :
    Tracks stackslots s' fun w m => op.run w (F w m) := by
  refine ⟨h'.layout, h'.scratch, fun w m => ?_⟩
  obtain ⟨c, hc, hrun⟩ := h'.code
  obtain ⟨env, hagree, hd, hcalls⟩ := h.values w m
  obtain ⟨env', hagree', hd', hcalls'⟩ := hrun w _ env hd
  have hcongr := Straight.run_congr w (show Agree stackslots ⟨env, _⟩ (F w m) from
    ⟨hagree, hcalls⟩) hop
  rw [hc, exec_append]
  exact ⟨env', fun x hx => (hagree' x hx).trans (hcongr.1 x hx), hd', hcalls'.trans hcongr.2⟩

/-- The compiler is right about each bytecode, by the table before it. -/
def SafeRun (o : Order stackslots) : Emitter → List Straight → Prop
  | _, [] => True
  | s, op :: ops => op.Safe o s ∧ ∀ s' ∈ (op.emit o s).toOption, SafeRun o s' ops

instance SafeRun.decidable (o : Order stackslots) : ∀ s ops, Decidable (SafeRun o s ops)
  | _, [] => inferInstanceAs (Decidable True)
  | s, op :: ops =>
    have := fun s' => SafeRun.decidable o s' ops
    inferInstanceAs (Decidable (op.Safe o s ∧ ∀ s' ∈ (op.emit o s).toOption, SafeRun o s' ops))

theorem SafeRun.take {s : Emitter} {ops : List Straight} (h : SafeRun o s ops) (k : Nat) :
    SafeRun o s (ops.take k) := by
  induction k generalizing s ops with
  | zero => trivial
  | succ k ih =>
    cases ops with
    | nil => exact h
    | cons op ops => exact ⟨h.1, fun s' hs' => ih (h.2 s' hs')⟩

/-- **Every bytecode in turn.** -/
theorem compile_tracks {ops : List Straight} {s : Emitter} {F : World → Machine → Values}
    (h : Tracks stackslots s F) (hops : ∀ op ∈ ops, ∀ x ∈ op.slots, x < stackslots)
    (hsafe : SafeRun o s ops) :
    Yields (compile o s ops) fun s' =>
      Tracks stackslots s' fun w m => ops.foldl (Straight.run w) (F w m) := by
  induction ops generalizing s F with
  | nil => exact .of_ok h
  | cons op ops ih =>
    obtain ⟨hop, hops⟩ := List.forall_mem_cons.mp hops
    rw [compile, List.foldlM_cons]
    rcases emit_compiles h.layout h.scratch hop hsafe.1 with ⟨e, herr, he⟩ | ⟨s₁, hs₁, hstep⟩
    · rw [herr]
      exact .of_error he
    · rw [hs₁]
      have hrest : SafeRun o s₁ ops := hsafe.2 s₁ (by rw [hs₁]; rfl)
      exact ih (h.step hop hstep) hops hrest

end Bcc.Lua
