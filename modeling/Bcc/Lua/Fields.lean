import Bcc.Lua.AluReg

namespace Bcc.Lua

open Bpf CText Function

/-!
# The Lua compiler — values from outside

Loads from packets and contexts, and calls of helpers, write a register that was reserved before.

* `Target.computes` — until then the values of all slots are kept, so that it does not matter if the
  register was taken from the slot that the address is in;
* `ldInd_computes`, `ldMem_computes`, `call_computes` — the cases.
-/

variable {slots : Nat} {o : Order slots}

/-! ### Code for one register -/

/-- Code that leaves a value in the register `r`, calls so many helpers, and changes no other
    register that slots are in. -/
structure Writes (r : Nat) (c : List Insn) (calls : Nat) (val : World → Machine → Word) :
    Prop where
  value : ∀ w m, (exec w m c).regs r = val w m
  regs : ∀ w m q, q ≠ r → (q = 0 ∨ 6 ≤ q) → (exec w m c).regs q = m.regs q
  stack : ∀ w m, (exec w m c).stack = m.stack
  calls_eq : ∀ w m, (exec w m c).calls = m.calls + calls

/-- The conversion behind a load from the packet. -/
def swap (width : Nat) : List Insn := if 1 < width then [.toBe 0 (width * 8)] else []

/-- A value of the packet, in the order of bytes of the host. -/
def ordered (w : World) (width : Nat) (x : Word) : Word :=
  if 1 < width then w.toBe (width * 8) x else x

theorem writes_packet {i : Insn} {val : World → Machine → Word}
    (hi : ∀ w m, exec1 w m i = (m.scratched w).set 0 (val w m)) (width : Nat) :
    Writes 0 (i :: swap width) 0 fun w m => ordered w width (val w m) := by
  have hregs : ∀ w m q, q ≠ 0 → (q = 0 ∨ 6 ≤ q) → (exec1 w m i).regs q = m.regs q := by
    intro w m q hq hr
    rw [hi, Machine.set_regs_of_ne _ hq, Machine.scratched_regs _ hr]
  have hswap : ∀ w m, exec1 w m (.toBe 0 (width * 8)) = m.set 0 (w.toBe (width * 8) (m.regs 0)) :=
    fun _ _ => rfl
  unfold swap ordered
  by_cases hw : 1 < width
  · simp only [if_pos hw]
    refine ⟨fun w m => ?_, fun w m q hq hr => ?_, fun w m => ?_, fun w m => ?_⟩
    · simp [hswap, hi]
    · rw [exec_cons, exec_cons, exec_nil, hswap, Machine.set_regs_of_ne _ hq]
      exact hregs w m q hq hr
    · simp [hswap, hi]
    · simp [hswap, hi]
  · simp only [if_neg hw]
    refine ⟨fun w m => ?_, fun w m q hq hr => hregs w m q hq hr, fun w m => ?_, fun w m => ?_⟩
    · simp [hi]
    · simp [hi]
    · simp [hi]

theorem writes_memory (width r q : Nat) (off : Int) : Writes r [.ldMem width r q off] 0
    fun w m => w.memory width (m.regs q + BitVec.ofInt 64 off) :=
  ⟨fun _ _ => Machine.set_regs_self .., fun _ _ _ hp _ => Machine.set_regs_of_ne _ hp _,
    fun _ _ => rfl, fun _ _ => rfl⟩

theorem writes_call (h : Nat) : Writes 0 [.call h] 1 fun w m => w.helper m.calls h := by
  refine ⟨fun w m => ?_, fun w m q hq hr => ?_, fun _ _ => rfl, fun _ _ => rfl⟩
  · exact Machine.set_regs_self (m.scratched w) 0 _
  · exact (Machine.set_regs_of_ne _ hq _).trans (Machine.scratched_regs _ hr w)

theorem emitLdAbs_eq (s : Emitter) (w : Nat) (off : Int) :
    emitLdAbs s w off = { s with code := s.code ++ .ldAbs w off :: swap w } := by
  unfold emitLdAbs swap
  by_cases hw : 1 < w
  · simp [hw, Emitter.emit]
  · simp [hw, Emitter.emit]

/-! ### A reserved register -/

section Reserves

variable {x r : Nat} {v : VInfo} {s s' : Emitter} (h : Reserves slots x r v s s')
include h

theorem Reserves.entry :
    ∃ v', s'.V x = some v' ∧ v'.shadow = none ∧ v'.reg = some r ∧ v'.const = v.const := by
  obtain ⟨s₁, v', rfl, -, hs, hr, hc, -⟩ := h.before
  exact ⟨v', update_self .., hs, hr, hc⟩

theorem Reserves.others : Others s.V s'.V x r fun _ => True := by
  obtain ⟨s₁, v', rfl, -, -, -, -, -, -, hothers⟩ := h.before
  intro y hy
  dsimp only
  rw [update_of_ne hy]
  exact hothers y hy

/-- No other slot has the register. -/
theorem Reserves.free {y : Nat} {u : VInfo} (hy : y ≠ x) (hu : s'.V y = some u)
    (hs : u.shadow = none) : u.reg ≠ some r := by
  obtain ⟨s₁, v', rfl, -, -, -, -, -, hfree, -⟩ := h.before
  dsimp only at hu
  rw [update_of_ne hy] at hu
  exact hfree y u hy hu hs

theorem Reserves.layout (hx : x < slots + 2) : Layout slots s'.V := by
  obtain ⟨s₁, v', rfl, hmoves, hs, hr, -, hspill, hfree, -⟩ := h.before
  refine hmoves.layout.put ⟨fun y w q _ hq hw hws hwr => ?_, hspill, fun q hq => ?_⟩
    (hmoves.layout.cut hx hs)
  · cases hr.symm.trans hq
    by_contra hy
    exact hfree y w hy hw hws hwr
  · cases hr.symm.trans hq
    exact h.reg

theorem Reserves.no_copy {t : Nat} (hno : ∀ y u, s.V y = some u → u.shadow ≠ some t) :
    ∀ y u, s'.V y = some u → u.shadow ≠ some t := by
  intro y u hu
  obtain ⟨v', hv', hs, -⟩ := h.entry
  rcases h.others.shadow_of hv' hs hu with ⟨-, hnone⟩ | ⟨-, u₀, hu₀, hshadow⟩
  · simp [hnone]
  · rw [hshadow]
    exact hno y u₀ hu₀

theorem Reserves.scratch (hv : s.V x = some v) {t : Nat} (hs : Scratch s.V t) : Scratch s'.V t := by
  obtain ⟨v', hv', hs', -, hc⟩ := h.entry
  exact hs.placed hv hv' hs' (fun h => hc.trans h) h.others

/-- **A slot gets its value** in the register that was reserved for it. -/
theorem Reserves.computes (hv : s.V x = some v)
    (hx : x < slots + 2) (hno : ∀ y u, s.V y = some u → u.shadow ≠ some x)
    (hnum : ∀ c ∈ v.const, c.isNumber = false) {c : List Insn} {calls : Nat}
    {val : World → Machine → Word} (hw : Writes r c calls val) {f : World → Values → Option Word}
    (hval : ∀ w m m₁ env, Describes slots s.V env m → (∀ q, m₁.regs q = m.regs q) →
      m₁.calls = m.calls → f w ⟨env, m.calls⟩ = some (val w m₁)) :
    Owned s'.V x ∧ Computes slots [] s { s' with code := s'.code ++ c } fun w σ =>
      ⟨update σ.env x ⟨f w σ, v.const.bind Const.access⟩, σ.calls + calls⟩ := by
  have hlayout := h.layout hx
  obtain ⟨v', hv', hs', hr', -⟩ := h.entry
  refine ⟨⟨⟨v', r, hv', hs', hr'⟩, h.no_copy hno⟩, hlayout, fun t _ => h.scratch hv, ?_⟩
  obtain ⟨s₁, v', rfl, hmoves, hs, hr, hc, -, hfree, hothers⟩ := h.before
  obtain ⟨c₁, hc₁, hrun⟩ := hmoves.code
  refine ⟨c₁ ++ c, ?_, fun w m env hd => ?_⟩
  · rw [← List.append_assoc, ← hc₁]
  obtain ⟨hd₁, hregs, hcalls⟩ := hrun w m env hd
  rw [exec_append]
  generalize exec w m c₁ = m₁ at *
  refine ⟨?_, by rw [hw.calls_eq, hcalls]⟩
  have hno₁ : ∀ y u, s₁.V y = some u → u.shadow ≠ some x := by
    intro y u hu
    by_cases hy : y = x
    · subst hy
      exact hmoves.layout.shadow_ne hu
    · rcases hothers y hy with heq | ⟨-, u₀, hu₀, -, -, heq⟩
      · exact hno y u (heq ▸ hu)
      · cases hu.symm.trans heq
        exact hno y u₀ hu₀
  have hsame : Same s₁.V x m₁ (exec w m₁ c) := by
    refine same_of_eq (fun z u q hz hu hus huq => ?_) fun _ _ _ _ _ _ => by rw [hw.stack]
    have hq : q = 0 ∨ 6 ≤ q := by
      have := hmoves.layout.reg_or z u q hu huq
      omega
    refine hw.regs w m₁ q ?_ hq
    rintro rfl
    exact hfree z u hz hu hus huq
  have hrecords : v'.Records (v'.value (exec w m₁ c)) := by
    refine ⟨rfl, fun c hc' hn => ?_⟩
    rw [hc] at hc'
    simp [hnum c hc'] at hn
  have hassign := hd₁.assign hmoves.layout.toRooted hx hno₁ hs hrecords hsame
  rwa [VInfo.value, v'.word_of_reg hr, hw.value, hc,
    ← hval w m m₁ env hd (fun q => hregs q (by simp)) hcalls] at hassign

end Reserves

/-! ### Code for bytecodes -/

section Compiles

variable {s s₁ s' : Emitter} {f g : World → Values → Values}

theorem Computes.trans_compiles {uses : List Nat} (h : Computes slots uses s s₁ f)
    (h' : Compiles slots s₁ s' g) : Compiles slots s s' fun w σ => g w (f w σ) := by
  obtain ⟨c, hc, hrun⟩ := h.code
  obtain ⟨c', hc', hrun'⟩ := h'.code
  refine ⟨h'.layout, h'.scratch, c ++ c', by rw [hc', hc, List.append_assoc],
    fun w m env hd => ?_⟩
  obtain ⟨hd₁, hcalls⟩ := hrun w m env hd
  rw [exec_append]
  have hd₂ := hrun' w _ _ hd₁
  rwa [hcalls] at hd₂

/-- Another way to say what the code does. -/
theorem Compiles.congr (h : Compiles slots s s' f)
    (hfg : ∀ w m env, Describes slots s.V env m →
      (∀ x < slots, (f w ⟨env, m.calls⟩).env x = (g w ⟨env, m.calls⟩).env x)
        ∧ (f w ⟨env, m.calls⟩).calls = (g w ⟨env, m.calls⟩).calls) :
    Compiles slots s s' g := by
  obtain ⟨c, hc, hrun⟩ := h.code
  refine ⟨h.layout, h.scratch, c, hc, fun w m env hd => ?_⟩
  obtain ⟨env', hagree, hd', hcalls⟩ := hrun w m env hd
  obtain ⟨hsame, hsamecalls⟩ := hfg w m env hd
  exact ⟨env', fun x hx => (hagree x hx).trans (hsame x hx), hd', hcalls.trans hsamecalls⟩

/-- A slot in a register is no longer known as a proxy. -/
theorem Compiles.forget (h : Compiles slots s s' f) {x : Nat} (hx : x < slots)
    (howned : Owned s'.V x) (type : VInfo → Option CType) :
    Compiles slots s (s'.modify x fun v => { v with type := type v, const := none })
      fun w σ => (f w σ).assign x ⟨((f w σ).env x).word, none⟩ := by
  obtain ⟨⟨v, r, hv, hs, hr⟩, hno⟩ := howned
  have hentry : s'.modify x (fun v => { v with type := type v, const := none })
      = ⟨update s'.V x (some { v with type := type v, const := none }), s'.code⟩ := by
    rw [Emitter.modify, hv, Option.map_some]
  have hadmits : Admits s'.V x { v with type := type v, const := none } :=
    ⟨fun y w q _ hq hw hws hwr => h.layout.unique y x w v q hw hws hwr hv hs hq,
      fun slot => h.layout.spill_eq x v slot hv, fun q => h.layout.reg_or x v q hv⟩
  have hdom := h.layout.dom x v hv
  obtain ⟨c, hc, hrun⟩ := h.code
  rw [hentry]
  refine ⟨h.layout.put hadmits (h.layout.cut hdom hs),
    h.scratch.update (Nat.ne_of_lt hx) (by simp [hs]), c, hc, fun w m env hd => ?_⟩
  obtain ⟨env', hagree, hd', hcalls⟩ := hrun w m env hd
  have hshadow : VInfo.shadow { v with type := type v, const := none } = none := hs
  have hrecords : VInfo.Records { v with type := type v, const := none }
      (VInfo.value (exec w m c) { v with type := type v, const := none }) :=
    ⟨rfl, fun c' hc' => by simp at hc'⟩
  have hvalue : VInfo.value (exec w m c) { v with type := type v, const := none }
      = ⟨some ((exec w m c).regs r), none⟩ := by
    simp [VInfo.value, VInfo.word, hr]
  refine ⟨_, fun y hy => ?_, hd'.assign h.layout.toRooted hdom hno hshadow hrecords
    fun _ _ _ _ _ => rfl, hcalls⟩
  by_cases hyx : y = x
  · subst hyx
    have hword := hd'.word_of_reg hv hs hr
    rw [hagree y hy] at hword
    rw [Values.assign_env, update_self, update_self, hword, hvalue]
  · rw [Values.assign_env, update_of_ne hyx, update_of_ne hyx]
    exact hagree y hy

end Compiles

/-- A slot was brought into a register: nothing has happened to the values. -/
theorem Loads.computes {s s' : Emitter} {x r : Nat} {v v' : VInfo} {asked : Option Nat}
    (h : Loads o asked x r v v' s s') (hv : s.V x = some v) :
    Computes slots [] s s' fun _ σ => σ := by
  obtain ⟨c, hc, hrun⟩ := h.moves.code
  refine ⟨h.moves.layout, fun t _ => h.scratch hv, c, hc, fun w m env hd => ?_⟩
  obtain ⟨hd', -, hcalls⟩ := hrun w m env hd
  exact ⟨hd', hcalls⟩

/-! ### Loads into one register -/

/-- `R0` is reserved. -/
theorem reserve_zero {s : Emitter} (hV : Layout slots s.V) {x : Nat} {v : VInfo}
    (hv : s.V x = some v) (vtype : Option CType) :
    Yields (vreg o s x (some 0) true vtype) fun p => Reserves slots x 0 v s p.2 := by
  have hzero : ∀ r ∈ some 0, r = 0 ∨ 6 ≤ r ∧ r ≤ 9 := by simp
  rcases vreg_reserve hV hv hzero (fun h => by simp at h) vtype with
    herr | ⟨r, s', hs', h, hr⟩
  · rw [herr]
    exact .of_error (by simp)
  · rw [hs']
    obtain rfl : r = 0 := hr 0 rfl
    exact .of_ok h

section Narrow

variable {s : Emitter} {dst src : Nat} {u v : VInfo}

/-- What is known about a slot that gets a value from outside: it has no copies, and it is not a
    number. -/
structure Target (slots : Nat) (V : Table) (dst : Nat) (u : VInfo) : Prop where
  lt : dst < slots
  entry : V dst = some u
  no_copy : ∀ y w, V y = some w → w.shadow ≠ some dst
  not_number : foldable u = none

theorem Target.loads {s' : Emitter} {r : Nat} {v' : VInfo} {asked : Option Nat}
    (ht : Target slots s.V dst u) (hv : s.V src = some v)
    (h : Loads o asked src r v v' s s') : ∃ u', Target slots s'.V dst u' := by
  obtain ⟨u', hu', hconst⟩ := h.const_of hv ht.entry
  refine ⟨u', ht.lt, hu', fun y w hw => ?_, ?_⟩
  · rcases h.shadow_of hw with ⟨-, hnone⟩ | ⟨-, w₀, hw₀, hshadow⟩
    · simp [hnone]
    · rw [hshadow]
      exact ht.no_copy y w₀ hw₀
  · rcases hconst with hc | hc
    · rw [foldable, hc]
      exact ht.not_number
    · rw [foldable, hc]
      rfl

/-- **A slot gets its value**, in whatever register. -/
theorem Target.computes {s' : Emitter} {r : Nat} (ht : Target slots s.V dst u)
    (h : Reserves slots dst r u s s') {c : List Insn} {calls : Nat}
    {val : World → Machine → Word} (hw : Writes r c calls val) {f : World → Values → Option Word}
    (hval : ∀ w m m₁ env, Describes slots s.V env m → (∀ q, m₁.regs q = m.regs q) →
      m₁.calls = m.calls → f w ⟨env, m.calls⟩ = some (val w m₁)) :
    Owned s'.V dst ∧ ∃ access, Computes slots [] s { s' with code := s'.code ++ c }
      fun w σ => ⟨update σ.env dst ⟨f w σ, access⟩, σ.calls + calls⟩ := by
  have hlt := ht.lt
  obtain ⟨howned, hcomputes⟩ := h.computes ht.entry (by omega) ht.no_copy
    (not_number_of_foldable ht.not_number) hw hval
  exact ⟨howned, _, hcomputes⟩

variable (hV : Layout slots s.V) (ht : Target slots s.V dst u)
include hV ht

/-- **A load from a constant offset of the packet**, of less than 8 bytes. -/
theorem ldAbs_narrow {w : Nat} (hw : w < 8) (off : Int) :
    Yields (ldAbs o s dst w off) fun s' => Owned s'.V dst
      ∧ ∃ access, Computes slots [] s s' fun world σ => σ.assign dst
        ⟨some (ordered world w (world.packet w (BitVec.ofInt 64 off))), access⟩ := by
  rw [ldAbs, if_pos hw]
  refine (reserve_zero hV ht.entry _).bind ?_
  rintro ⟨_, s'⟩ h
  dsimp only
  rw [emitLdAbs_eq]
  exact .of_ok (ht.computes h (writes_packet (fun _ _ => rfl) w) fun _ _ _ _ _ _ _ => rfl)

/-- **A load from an offset of the packet that is in a slot.** -/
theorem ldInd_computes (hv : s.V src = some v) (hfit : FitsAt slots s.V none src)
    (hroom : Room o s.V (s.pc - 1) v.need [src] [src]) (w : Nat) (off : Int) :
    Yields (ldInd o s dst src w off) fun s' => Owned s'.V dst
      ∧ ∃ access, Computes slots [] s s' fun world σ => σ.assign dst
        ⟨(σ.env src).word.map fun p => ordered world w (world.packet w (p + BitVec.ofInt 64 off)),
          access⟩ := by
  refine (vreg_loads (k := 0) hV hv hroom (List.mem_singleton_self src) (List.Subset.refl _) le_rfl
    (fun y hy hne => absurd (List.mem_singleton.mp hy) hne) hfit).bind ?_
  rintro ⟨q, s₁⟩ ⟨v', h, -, -⟩
  obtain ⟨u', ht'⟩ := ht.loads hv h
  refine (reserve_zero h.moves.layout ht'.entry _).bind ?_
  rintro ⟨_, s'⟩ h'
  have hemit : (if 1 < w then (s'.emit (.ldInd w q off)).emit (.toBe 0 (w * 8))
      else s'.emit (.ldInd w q off)) = { s' with code := s'.code ++ .ldInd w q off :: swap w } := by
    unfold swap
    by_cases hw : 1 < w
    · simp [hw, Emitter.emit]
    · simp [hw, Emitter.emit]
  obtain ⟨howned, access, hcomputes⟩ := ht'.computes h'
    (writes_packet (i := .ldInd w q off) (fun _ _ => rfl) w)
    (f := fun world σ => (σ.env src).word.map fun p =>
      ordered world w (world.packet w (p + BitVec.ofInt 64 off)))
    fun world m m₁ env hd hregs _ => by
      have hword := hd.word_of_reg h.entry h.shadow h.reg
      simp [hword, hregs]
  refine .of_ok ?_
  rw [hemit]
  exact ⟨howned, access, (h.computes hv).trans hcomputes⟩

/-- **A load from memory.** -/
theorem ldMem_computes (hv : s.V src = some v) (hfit : FitsAt slots s.V none src)
    (hroom : Room o s.V (s.pc - 1) (v.need + if dst = src then 0 else 1) [src] [dst, src])
    (w : Nat) (off : Int) :
    Yields (ldMem o s dst src w off) fun s' => Owned s'.V dst
      ∧ ∃ access, Computes slots [] s s' fun world σ => σ.assign dst
        ⟨(σ.env src).word.map fun p => world.memory w (p + BitVec.ofInt 64 off), access⟩ := by
  refine (vreg_loads hV hv hroom (List.mem_singleton_self src) (by simp) le_rfl
    (fun y hy hne => absurd (List.mem_singleton.mp hy) hne) hfit).bind ?_
  rintro ⟨q, s₁⟩ ⟨v', h, hroom₁, -⟩
  have hV₁ := h.moves.layout
  obtain ⟨u', ht'⟩ := ht.loads hv h
  have hpc : s.pc - 1 ≤ s₁.pc - 1 := by
    obtain ⟨c, hc, -⟩ := h.moves.code
    exact Emitter.pc_le hc
  -- the slot with the address was used just now, so that it keeps its register if it is not copied
  have hvictim : ¬ u'.Settled → ∀ k, Victim o (touch s₁ dst).V k →
      ∀ w, (touch s₁ dst).V k = some w → w.shadow = none := by
    intro hns k hk
    have hne : dst ≠ src := by
      rintro rfl
      cases ht'.entry.symm.trans h.entry
      exact hns ⟨by simp [h.reg], h.shadow⟩
    rw [if_neg hne] at hroom₁
    have hroom₂ : Room o s₁.V (s.pc - 1) (u'.need + 0) [dst, src] [dst, src] := by
      rw [VInfo.need, if_neg hns]
      exact hroom₁.mono hV₁ hV₁ (by simp) (List.Subset.refl _)
        (fun x w r hw hr => ⟨x, w, hw, hr⟩) fun _ _ => rfl
    refine (hroom₂.victim_touch hV₁ ht'.entry (by simp) (List.Subset.refl _) hpc ?_ hns hk).2
    intro y hy hyd w hw
    obtain rfl : y = src := by simpa [hyd] using hy
    cases hw.symm.trans h.entry
    exact ⟨_, h.live, le_rfl⟩
  have hnone : ∀ r ∈ (none : Option Nat), r = 0 ∨ 6 ≤ r ∧ r ≤ 9 := by simp
  rcases vreg_reserve hV₁ ht'.entry hnone (fun _ => hvictim) (some (.bytes w)) with
    herr | ⟨r, s', hs', h', -⟩
  · simp only [herr]
    exact .of_error (by simp)
  simp only [hs']
  obtain ⟨howned, access, hcomputes⟩ := ht'.computes h' (writes_memory w r q off)
    (f := fun world σ => (σ.env src).word.map fun p => world.memory w (p + BitVec.ofInt 64 off))
    fun world m m₁ env hd hregs _ => by
      have hword := hd.word_of_reg h.entry h.shadow h.reg
      simp [hword, hregs]
  exact .of_ok ⟨howned, access, (h.computes hv).trans hcomputes⟩

/-- **A call.** -/
theorem call_computes (h : Nat) (vtype : Option CType) :
    Yields (vreg o s dst (some 0) true vtype) fun p => Owned p.2.V dst
      ∧ ∃ access, Computes slots [] s (p.2.emit (.call h)) fun w σ =>
        ⟨update σ.env dst ⟨some (w.helper σ.calls h), access⟩, σ.calls + 1⟩ := by
  refine (reserve_zero hV ht.entry vtype).mono fun p hp => ?_
  refine ht.computes hp (writes_call h) fun w m m₁ env _ _ hcalls => ?_
  rw [hcalls]

end Narrow

end Bcc.Lua
