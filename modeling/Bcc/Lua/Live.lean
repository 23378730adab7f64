import Bcc.Lua.Emitter

namespace Bcc.Lua

open Bpf CText Function

/-!
# The Lua compiler — slots that are live

* `compile_keeps` — no function removes an entry of the table, so that every slot that a bytecode
  has assigned to has one from then on.
-/

variable {slots : Nat} {o : Order slots}

/-- Slots with an entry keep one. -/
def Keeps (V V' : Table) : Prop := ∀ x, (V x).isSome = true → (V' x).isSome = true

section Keeps

variable {V V' V'' : Table} {s s' : Emitter} {x : Nat}

theorem Keeps.refl (V : Table) : Keeps V V := fun _ h => h

theorem Keeps.trans (h : Keeps V V') (h' : Keeps V' V'') : Keeps V V'' :=
  fun x hx => h' x (h x hx)

theorem keeps_update (V : Table) (x : Nat) (v : VInfo) : Keeps V (update V x (some v)) := by
  intro y hy
  by_cases hyx : y = x
  · subst hyx
    rw [update_self]
    rfl
  · rwa [update_of_ne hyx]

theorem keeps_modify (s : Emitter) (x : Nat) (f : VInfo → VInfo) : Keeps s.V (s.modify x f).V := by
  intro y hy
  rw [Emitter.modify_V]
  by_cases hyx : y = x
  · subst hyx
    rw [update_self, Option.isSome_map]
    exact hy
  · rwa [update_of_ne hyx]

theorem handOver_isSome (V : Table) (x y : Nat) : (handOver V x y).isSome = (V y).isSome := by
  unfold handOver
  cases (V x).bind VInfo.reg with
  | none => rfl
  | some r => exact Option.isSome_map

theorem keeps_vset (s : Emitter) (x : Nat) (reg : Option Nat) (const : Option Const)
    (vtype : Option CType) : Keeps s.V (vset s x reg const vtype).V := by
  intro y hy
  rw [← handOver_isSome s.V x y] at hy
  exact keeps_update _ x _ y hy

theorem vset_isSome (s : Emitter) (x : Nat) (reg : Option Nat) (const : Option Const)
    (vtype : Option CType) : ((vset s x reg const vtype).V x).isSome = true := by
  unfold vset
  dsimp only
  rw [update_self]
  rfl

end Keeps

/-! ### Registers -/

section Registers

variable {s : Emitter} {x r : Nat} {reg : Option Nat} {reserve : Bool} {vtype : Option CType}

theorem regSpill_keeps : Ensures (regSpill s x) fun s' => Keeps s.V s'.V := by
  unfold regSpill
  split
  · exact nofun
  split
  · exact nofun
  · exact ensures_ok (keeps_update _ _ _)

theorem regAlloc_keeps : Ensures (regAlloc o s reg) fun p => Keeps s.V p.2.V := by
  -- the table stays, or a variable is moved to the stack
  have hsame : ∀ q, Ensures (.ok (q, s)) fun p : Nat × Emitter => Keeps s.V p.2.V :=
    fun _ => ensures_ok (.refl _)
  have hspill : ∀ q k, Ensures (do return (q, ← regSpill s k)) fun p : Nat × Emitter =>
      Keeps s.V p.2.V := fun _ _ => regSpill_keeps.bind fun _ h => ensures_ok h
  unfold regAlloc
  split
  · split
    · exact hsame _
    · exact hspill _ _
  · split_ifs
    · exact hsame _
    · exact hsame _
    · exact hsame _
    split
    · exact nofun
    split
    · exact nofun
    · exact hspill _ _

theorem settle_keeps : Ensures (settle slots s x r reserve vtype) fun s' => Keeps s.V s'.V := by
  unfold settle
  split
  · exact nofun
  · refine ensures_bind fun src => ?_
    split
    · exact ensures_ok (keeps_update _ _ _)
    · exact ensures_bind fun _ => ensures_ok (keeps_update _ _ _)

theorem vreg_keeps : Ensures (vreg o s x reg reserve vtype) fun p => Keeps s.V p.2.V := by
  unfold vreg
  split
  · exact nofun
  · have htouch := keeps_modify s x fun v => { v with liveTo := some (s.pc - 1) }
    split
    · exact ensures_ok htouch
    · refine regAlloc_keeps.bind fun p hp => ?_
      exact settle_keeps.bind fun _ h => ensures_ok ((htouch.trans hp).trans h)

theorem vcopy_keeps {dst src : Nat} : Ensures (vcopy s dst src) fun s' => Keeps s.V s'.V
    ∧ ((s.V src).isSome = true → (s'.V dst).isSome = true) := by
  unfold vcopy
  split
  · rename_i heq
    exact ensures_ok ⟨.refl _, fun hsrc => heq ▸ hsrc⟩
  split
  · exact nofun
  · refine ensures_ok ⟨keeps_update _ _ _, fun _ => ?_⟩
    dsimp only
    rw [update_self]
    rfl

end Registers

/-! ### Arithmetic and loads -/

section Functions

variable {s : Emitter} {dst a b src w : Nat} {n off : Int} {op : Alu}

theorem aluImm_keeps :
    Ensures (aluImm o s dst a n op) fun s' => Keeps s.V s'.V ∧ (s'.V dst).isSome = true := by
  unfold aluImm
  split
  · exact nofun
  rename_i v ha
  split
  · split
    · exact nofun
    · exact ensures_bind fun e => ensures_ok ⟨keeps_vset _ _ _ _ _, vset_isSome ..⟩
  · refine vcopy_keeps.bind fun s₁ ⟨hkeeps, hdst⟩ => ?_
    refine vreg_keeps.bind fun ⟨r, s₂⟩ h => ensures_ok ?_
    have hrest := h.trans
      (keeps_modify s₂ dst fun w => { w with type := (s₂.V a).bind VInfo.type })
    exact ⟨hkeeps.trans hrest, hrest dst (hdst (by simp [ha]))⟩

theorem aluFold_keeps {v u : VInfo} (ha : s.V a = some v) :
    Ensures (aluFold s dst a b v u op) fun s' =>
      Keeps s.V s'.V ∧ (s'.V dst).isSome = true := by
  unfold aluFold
  split
  · exact nofun
  · refine vcopy_keeps.bind fun s₁ ⟨hkeeps, hdst⟩ => ?_
    split
    · refine ensures_bind fun e => ensures_ok ?_
      have hrest := keeps_modify s₁ dst fun w => { w with const := some e }
      exact ⟨hkeeps.trans hrest, hrest dst (hdst (by simp [ha]))⟩
    · exact nofun

theorem aluReg_keeps :
    Ensures (aluReg o s dst a b op) fun s' => Keeps s.V s'.V ∧ (s'.V dst).isSome = true := by
  unfold aluReg
  split
  · rename_i v w ha hb
    split
    · exact aluFold_keeps ha
    have hvars : Ensures (aluVars o s dst a b op) fun s' =>
        Keeps s.V s'.V ∧ (s'.V dst).isSome = true := by
      refine vreg_keeps.bind fun ⟨q, s₁⟩ hfirst => ?_
      refine vcopy_keeps.bind fun s₂ ⟨hkeeps, hdst⟩ => ?_
      refine vreg_keeps.bind fun ⟨r, s₃⟩ h => ensures_ok ?_
      exact ⟨(hfirst.trans hkeeps).trans h, h dst (hdst (hfirst a (by simp [ha])))⟩
    refine hvars.bind fun s₁ h => ensures_ok ?_
    have hrest := keeps_modify s₁ slots fun v => { v with reg := none }
    exact ⟨h.1.trans hrest, hrest dst h.2⟩
  · exact nofun

theorem emitLdAbs_V (s : Emitter) (w : Nat) (off : Int) : (emitLdAbs s w off).V = s.V := by
  unfold emitLdAbs
  split <;> rfl

theorem ldAbs_keeps : Ensures (ldAbs o s dst w off) fun s' => Keeps s.V s'.V := by
  unfold ldAbs
  split
  · refine vreg_keeps.bind fun p h => ensures_ok ?_
    rw [emitLdAbs_V]
    exact h
  split
  · refine vreg_keeps.bind fun ⟨_, s₁⟩ h₁ => ?_
    refine aluImm_keeps.bind fun s₂ ⟨h₂, _⟩ => ?_
    refine vreg_keeps.bind fun ⟨_, s₃⟩ h₃ => ?_
    refine aluReg_keeps.bind fun s₄ ⟨h₄, _⟩ => ensures_ok ?_
    exact (((h₁.trans h₂).trans h₃).trans h₄).trans (keeps_modify _ _ _)
  · exact nofun

theorem ldInd_keeps : Ensures (ldInd o s dst src w off) fun s' => Keeps s.V s'.V := by
  refine vreg_keeps.bind fun ⟨_, s₁⟩ h₁ => ?_
  refine vreg_keeps.bind fun _ h₂ => ensures_ok ?_
  split <;> exact h₁.trans h₂

theorem ldMem_keeps : Ensures (ldMem o s dst src w off) fun s' => Keeps s.V s'.V := by
  refine vreg_keeps.bind fun ⟨_, s₁⟩ h₁ => ?_
  exact vreg_keeps.bind fun _ h₂ => ensures_ok (h₁.trans h₂)

theorem load_keeps : Ensures (load o s dst src off w) fun s' =>
    Keeps s.V s'.V ∧ (s.V src).isSome = true := by
  by_cases hw : w ∈ [1, 2, 4, 8]
  swap
  · rw [load, if_neg hw]
    exact nofun
  cases hv : s.V src with
  | none =>
    simp only [load, if_pos hw, hv]
    exact nofun
  | some v =>
    -- the type and the constant are assigned to behind each of the loads
    have hend : ∀ s₁ : Emitter, Keeps s.V s₁.V → Ensures (.ok (s₁.modify dst fun v =>
        { v with type := some (.bytes w), const := none })) fun s' =>
        Keeps s.V s'.V ∧ (some v).isSome = true :=
      fun _ h => ensures_ok ⟨h.trans (keeps_modify _ _ _), rfl⟩
    rw [load, if_pos hw]
    split
    · exact ldAbs_keeps.bind hend
    · exact ldInd_keeps.bind hend
    · exact ldMem_keeps.bind hend
    · exact nofun

end Functions

/-! ### Bytecodes -/

/-- The slot that a bytecode assigns to.  A copy of a slot to itself does nothing. -/
def Straight.defines : Straight → Option Nat
  | .knum a _ | .kshort a _ | .kcdata a _ | .kpri a _ | .kstr a _ | .gget a _ => some a
  | .mov a d => if a = d then none else some a
  | .addvn a _ _ | .subvn a _ _ | .addnv a _ _ | .subnv a _ _ => some a
  | .addvv a _ _ | .subvv a _ _ | .tget a _ _ _ | .call a _ _ => some a

/-- **One bytecode**: the slots that were live are, and the one that is assigned to is. -/
theorem emit_keeps {s : Emitter} {op : Straight} : Ensures (op.emit o s) fun s' =>
    Keeps s.V s'.V ∧ ∀ x ∈ op.defines, (s'.V x).isSome = true := by
  -- constants
  have hset : ∀ a const vtype, Ensures (.ok (vset s a none const vtype)) fun s' : Emitter =>
      Keeps s.V s'.V ∧ ∀ x ∈ some a, (s'.V x).isSome = true := by
    intro a const vtype
    refine ensures_ok ⟨keeps_vset _ _ _ _ _, ?_⟩
    rintro x ⟨⟩
    exact vset_isSome ..
  -- arithmetic
  have hone : ∀ a (s' : Emitter), Keeps s.V s'.V ∧ (s'.V a).isSome = true →
      Keeps s.V s'.V ∧ ∀ x ∈ some a, (s'.V x).isSome = true := by
    rintro a s' ⟨hkeeps, ha⟩
    refine ⟨hkeeps, ?_⟩
    rintro x ⟨⟩
    exact ha
  cases op with
  | knum | kshort | kcdata | kpri | kstr | gget => exact hset _ _ _
  | mov a d =>
    intro s' hcopy
    obtain ⟨hkeeps, hdst⟩ := vcopy_keeps s' hcopy
    refine ⟨hkeeps, fun x hx => ?_⟩
    rw [Straight.defines] at hx
    split at hx
    · simp at hx
    · rename_i hne
      cases hx
      apply hdst
      cases hd : s.V d with
      | none => simp [Straight.emit, vcopy, hne, hd] at hcopy
      | some v => rfl
  | addvn a | subvn a | addnv a => exact fun s' h => hone a s' (aluImm_keeps s' h)
  | subnv a b c =>
    intro s' h
    obtain ⟨hkeeps, hdst⟩ := aluReg_keeps s' h
    exact hone a s' ⟨(keeps_vset _ _ _ _ _).trans hkeeps, hdst⟩
  | addvv a | subvv a => exact fun s' h => hone a s' (aluReg_keeps s' h)
  | tget a b off w =>
    intro s' h
    obtain ⟨hkeeps, hsrc⟩ := load_keeps s' h
    by_cases hab : a = b
    · rw [if_pos hab] at hkeeps hsrc
      exact hone a s' ⟨hkeeps, hkeeps a (hab ▸ hsrc)⟩
    · rw [if_neg hab] at hkeeps
      exact hone a s' ⟨(keeps_vset _ _ _ _ _).trans hkeeps, hkeeps a (vset_isSome ..)⟩
  | call a f w =>
    refine vreg_keeps.bind fun p h => ensures_ok (hone a _ ?_)
    have hrest := h.trans (keeps_modify (p.2.emit (.call f)) a fun v => { v with const := none })
    exact ⟨(keeps_vset _ _ _ _ _).trans hrest, hrest a (vset_isSome ..)⟩

/-- The slots that bytecodes have assigned to. -/
def defined (ops : List Straight) : List Nat := ops.filterMap Straight.defines

/-- **Slots that were assigned to have an entry.** -/
theorem compile_keeps {ops : List Straight} {s : Emitter} : Ensures (compile o s ops) fun s' =>
    Keeps s.V s'.V ∧ ∀ x ∈ defined ops, (s'.V x).isSome = true := by
  induction ops generalizing s with
  | nil => exact ensures_ok ⟨.refl _, by simp [defined]⟩
  | cons op ops ih =>
    refine emit_keeps.bind fun s₁ ⟨hkeeps, hnew⟩ s' h => ?_
    obtain ⟨hkeeps', hrest⟩ := ih s' h
    refine ⟨hkeeps.trans hkeeps', fun x hx => ?_⟩
    rw [defined, List.mem_filterMap] at hx
    obtain ⟨op', hop', hx⟩ := hx
    rcases List.mem_cons.mp hop' with rfl | hop'
    · exact hkeeps' x (hnew x hx)
    · exact hrest x (List.mem_filterMap.mpr ⟨op', hop', hx⟩)

end Bcc.Lua
