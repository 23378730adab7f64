import Bcc.Lua.Assign
import Bcc.Lua.Room

namespace Bcc.Lua

open Bpf CText Function List

/-!
# The Lua compiler — code that computes

* `Computes` — what it means that the code for a bytecode is correct;
* `copy_loads`, `CopyLoads.computes` — the steps that such code is made of.
-/

variable {slots : Nat} {o : Order slots}

/-! ### The meaning of code -/

/-- The values of the slots, and how many helpers were called. -/
structure Values where
  env : Env
  calls : Nat

variable (σ : Values) (x : Nat) (val : Value)

def Values.assign : Values :=
  { σ with env := Function.update σ.env x val }

@[simp] theorem Values.assign_env : (σ.assign x val).env = Function.update σ.env x val := rfl

@[simp] theorem Values.assign_calls : (σ.assign x val).calls = σ.calls := rfl

/-- A slot for temporary values: no slot is a copy of it. -/
structure Scratch (V : Table) (t : Nat) : Prop where
  entry : ∃ v, V t = some v ∧ v.shadow = none ∧ v.const = none
  no_copy : ∀ y u, V y = some u → u.shadow ≠ some t

/-- The code between two states of the compiler does to the slots what `f` says. -/
structure Computes (slots : Nat) (uses : List Nat) (s s' : Emitter)
    (f : World → Values → Values) : Prop where
  layout : Layout slots s'.V
  scratch : ∀ t ∉ uses, Scratch s.V t → Scratch s'.V t
  code : ∃ c, s'.code = s.code ++ c ∧ ∀ w m env, Describes slots s.V env m →
    Describes slots s'.V (f w ⟨env, m.calls⟩).env (exec w m c)
      ∧ (exec w m c).calls = (f w ⟨env, m.calls⟩).calls

variable {s s' : Emitter}

theorem Computes.trans {uses uses' : List Nat} {s₁ : Emitter} {f g : World → Values → Values}
    (h : Computes slots uses s s₁ f) (h' : Computes slots uses' s₁ s' g) :
    Computes slots (uses ++ uses') s s' fun w σ => g w (f w σ) := by
  obtain ⟨c, hc, hrun⟩ := h.code
  obtain ⟨c', hc', hrun'⟩ := h'.code
  refine ⟨h'.layout, fun t ht hs => ?_, c ++ c', by rw [hc', hc, append_assoc],
    fun w m env hd => ?_⟩
  · rw [mem_append, not_or] at ht
    exact h'.scratch t ht.2 (h.scratch t ht.1 hs)
  · obtain ⟨hd₁, hcalls⟩ := hrun w m env hd
    rw [exec_append]
    have hd₂ := hrun' w _ _ hd₁
    rwa [hcalls] at hd₂

section Scratch

variable {V V' : Table} {t x : Nat}

theorem Scratch.update {v : VInfo} (h : Scratch V t) (hx : x ≠ t) (hs : v.shadow ≠ some t) :
    Scratch (Function.update V x (some v)) t := by
  obtain ⟨⟨u, hu, hrest⟩, hno⟩ := h
  refine ⟨⟨u, by rw [update_of_ne hx.symm, hu], hrest⟩, fun y w hw => ?_⟩
  rcases update_eq_some.mp hw with ⟨rfl, rfl⟩ | ⟨-, hw⟩
  · exact hs
  · exact hno y w hw

/-- An assignment to other fields of an entry. -/
theorem Scratch.touch {v v' : VInfo} (h : Scratch V t) (hv : V x = some v)
    (hs : v'.shadow = v.shadow) (hc : v'.const = v.const) :
    Scratch (Function.update V x (some v')) t := by
  obtain ⟨⟨u, hu, hus, huc⟩, hno⟩ := h
  constructor
  · by_cases htx : t = x
    · subst htx
      cases hv.symm.trans hu
      exact ⟨v', update_self .., hs.trans hus, hc.trans huc⟩
    · exact ⟨u, by rw [update_of_ne htx, hu], hus, huc⟩
  · intro y w hw
    rcases update_eq_some.mp hw with ⟨rfl, rfl⟩ | ⟨-, hw⟩
    · rw [hs]
      exact hno y v hv
    · exact hno y w hw

/-- Another entry gets its own place. -/
theorem Scratch.placed {r : Nat} {moved : Nat → Prop} {v v' : VInfo} (h : Scratch V t)
    (hv : V x = some v) (hv' : V' x = some v') (hs : v'.shadow = none)
    (hc : v.const = none → v'.const = none) (hothers : Others V V' x r moved) :
    Scratch V' t := by
  obtain ⟨⟨u, hu, hus, huc⟩, hno⟩ := h
  constructor
  · by_cases ht : t = x
    · subst ht
      cases hv.symm.trans hu
      exact ⟨v', hv', hs, hc huc⟩
    · rcases hothers t ht with heq | ⟨-, w, hw, hws, -, heq⟩
      · exact ⟨u, heq.trans hu, hus, huc⟩
      · cases hu.symm.trans hw
        exact ⟨_, heq, hws, huc⟩
  · intro y w hw
    rcases hothers.shadow_of hv' hs hw with ⟨-, hnone⟩ | ⟨-, w₀, hw₀, hshadow⟩
    · simp [hnone]
    · rw [hshadow]
      exact hno y w₀ hw₀

end Scratch

/-! ### Slots in registers -/

section Loads

variable {s s' : Emitter} {x r : Nat} {v v' : VInfo} {asked : Option Nat}

theorem Loads.shadow_of (h : Loads o asked x r v v' s s') {y : Nat} {u' : VInfo}
    (hu' : s'.V y = some u') :
    y = x ∧ u'.shadow = none ∨ y ≠ x ∧ ∃ u, s.V y = some u ∧ u'.shadow = u.shadow :=
  h.others.shadow_of h.entry h.shadow hu'

theorem Loads.const_of (hv : s.V x = some v) (h : Loads o asked x r v v' s s') {y : Nat}
    {u : VInfo} (hu : s.V y = some u) :
    ∃ u', s'.V y = some u' ∧ (u'.const = u.const ∨ u'.const = none) := by
  by_cases hy : y = x
  · subst hy
    cases hu.symm.trans hv
    exact ⟨v', h.entry, h.const⟩
  · rcases h.others y hy with heq | ⟨-, w, hw, -, -, heq⟩
    · exact ⟨u, heq.trans hu, .inl rfl⟩
    · cases hu.symm.trans hw
      exact ⟨_, heq, .inl rfl⟩

theorem Loads.scratch (hv : s.V x = some v) (h : Loads o asked x r v v' s s') {t : Nat}
    (hs : Scratch s.V t) : Scratch s'.V t := by
  refine hs.placed hv h.entry h.shadow (fun hc => ?_) h.others
  rcases h.const with hconst | hconst
  · exact hconst.trans hc
  · exact hconst

/-- Constants that have to be loaded later are the same. -/
theorem FitsAt.placed {V V' : Table} {moved : Nat → Prop} (hV : Layout slots V)
    (hV' : Layout slots V') (hv' : V' x = some v') (hs' : v'.shadow = none)
    (hplace : v'.reg = none → v'.spill ≠ none) (hothers : Others V V' x r moved)
    {vtype : Option CType} {y : Nat} (hfit : FitsAt slots V vtype y) :
    FitsAt slots V' vtype y := by
  intro w' hw' hr hs c hc
  obtain ⟨z, hz⟩ := (follow_eq_ok_iff hV'.dom).mp hw'
  have hroot : Root V y z w' := by
    clear hfit hw' hc
    induction hz with
    | here hu hus =>
      rename_i y u
      rcases hothers.shadow_of hv' hs' hu with ⟨rfl, -⟩ | ⟨hy, -⟩
      · cases hu.symm.trans hv'
        exact absurd hs (hplace hr)
      · rcases hothers y hy with heq | ⟨-, u', -, -, -, heq⟩
        · exact .here (heq ▸ hu) hus
        · cases hu.symm.trans heq
          simp at hs
    | there hu hus _ ih =>
      rcases hothers.shadow_of hv' hs' hu with ⟨-, hnone⟩ | ⟨-, u₀, hu₀, hshadow⟩
      · simp [hnone] at hus
      · exact .there hu₀ (hshadow.symm.trans hus) (ih hr hs)
  exact hfit w' ((follow_eq_ok_iff hV.dom).mpr ⟨z, hroot⟩) hr hs c hc

theorem FitsAt.loads (hV : Layout slots s.V) (h : Loads o asked x r v v' s s')
    {vtype : Option CType} {y : Nat} (hfit : FitsAt slots s.V vtype y) :
    FitsAt slots s'.V vtype y :=
  hfit.placed hV h.moves.layout h.entry h.shadow (fun hr => by simp [h.reg] at hr) h.others

/-- The constant that a copy stands for is the one of its source. -/
theorem FitsAt.copy {V : Table} (hV : Layout slots V) {dst src : Nat} {u : VInfo}
    (hV' : Layout slots (Function.update V dst (some u))) (hne : src ≠ dst)
    (hno : ∀ y u, V y = some u → u.shadow ≠ some dst) (hs : u.shadow = some src)
    {vtype : Option CType} (hfit : FitsAt slots V vtype src) :
    FitsAt slots (Function.update V dst (some u)) vtype dst := by
  intro w hw
  obtain ⟨z, hz⟩ := (follow_eq_ok_iff hV'.dom).mp hw
  cases hz with
  | here hv hplain =>
    rw [update_self] at hv
    cases hv
    simp [hs] at hplain
  | there hv hshadow hrest =>
    rw [update_self] at hv
    cases hv
    cases hs.symm.trans hshadow
    exact hfit w ((follow_eq_ok_iff hV.dom).mpr ⟨z, (hrest.of_fresh hno hne).2⟩)

end Loads

section Write

variable {V : Table} {env : Env} {m : Machine} {x r : Nat} {v : VInfo}

/-- What is in the register of a slot. -/
theorem Describes.word_of_reg (hd : Describes slots V env m) (hv : V x = some v)
    (hs : v.shadow = none) (hr : v.reg = some r) :
    env x = ⟨some (m.regs r), v.const.bind Const.access⟩ := by
  obtain ⟨⟨w, hw, hval⟩, -⟩ := hd x v hv
  have hfollow : follow V (slots + 3) x = .ok v := by simp [follow, hv, hs]
  cases hfollow.symm.trans hw
  rw [← hval, VInfo.value, v.word_of_reg hr]

/-- **A slot is overwritten in its register.** -/
theorem Describes.write (hV : Layout slots V) (hv : V x = some v) (hs : v.shadow = none)
    (hr : v.reg = some r) (hno : ∀ y u, V y = some u → u.shadow ≠ some x)
    (hnum : ∀ c ∈ v.const, c.isNumber = false) (hd : Describes slots V env m) (val : Word) :
    Describes slots V (Function.update env x ⟨some val, v.const.bind Const.access⟩)
      (m.set r val) := by
  have hrecords : v.Records (v.value (m.set r val)) := by
    refine ⟨rfl, fun c hc hn => ?_⟩
    simp [hnum c hc] at hn
  have hsame : Same V x m (m.set r val) :=
    same_set val fun z w hz hw hws hwr => hz (hV.unique z x w v r hw hws hwr hv hs hr)
  have hd' := hd.assign hV.toRooted (hV.dom x v hv) hno hs hrecords hsame
  rwa [update_eq_self_iff.mpr hv.symm, VInfo.value, v.word_of_reg hr, Machine.set_regs_self] at hd'

end Write

/-- A slot is in a register, and no slot is a copy of it. -/
structure Owned (V : Table) (x : Nat) : Prop where
  entry : ∃ v r, V x = some v ∧ v.shadow = none ∧ v.reg = some r
  no_copy : ∀ y u, V y = some u → u.shadow ≠ some x

/-! ### A copy in a register -/

/-- The slots that are not as before, when `dst` is a copy of `a`. -/
def written (dst a : Nat) : List Nat := if dst = a then [] else [dst, a]

/-- A copy of `a` is in the register `r`, which belongs to the slot `dst` alone. -/
structure CopyLoads (slots : Nat) (dst a r : Nat) (v : VInfo) (inUse : List Nat)
    (s s' : Emitter) : Prop where
  layout : Layout slots s'.V
  scratch : ∀ t ∉ written dst a, Scratch s.V t → Scratch s'.V t
  entry : ∃ u, s'.V dst = some u ∧ u.shadow = none ∧ u.reg = some r
    ∧ (u.const = v.const ∨ u.const = none)
  no_copy : ∀ y u, s'.V y = some u → u.shadow ≠ some dst
  stays : dst = a → v.Settled → v.reg = some r
  source : dst ≠ a → 7 ≤ r ∧ r ≤ 9 ∨
    ∃ k u, k ≠ dst ∧ s.V k = some u ∧ u.shadow = none ∧ u.reg = some r
  others : ∀ y ∈ inUse, y ≠ dst → s'.V y = s.V y
  code : ∃ c, s'.code = s.code ++ c ∧ ∀ w m env, Describes slots s.V env m →
    Describes slots s'.V (Function.update env dst (env a)) (exec w m c)
      ∧ (∀ q ≠ r, (exec w m c).regs q = m.regs q) ∧ (exec w m c).calls = m.calls

/-- **`vcopy` and `vreg`**, one after the other. -/
theorem copy_loads (hV : Layout slots s.V) {dst a t : Nat} {v : VInfo}
    (hdst : dst < slots + 2) (ha : s.V a = some v)
    (hno : ∀ y u, s.V y = some u → u.shadow ≠ some dst) (hfit : FitsAt slots s.V none a)
    {inUse apart : List Nat} (hroom : Room o s.V t (if dst = a then v.need else 1) inUse apart)
    (hapart : dst :: inUse ⊆ apart) (ht : t ≤ s.pc - 1)
    (hlive : ∀ y ∈ inUse, y ≠ dst → ∀ u, s.V y = some u → ∃ q, u.liveTo = some q ∧ t ≤ q) :
    Yields (vcopy s dst a >>= fun s => vreg o s dst none false none) fun p =>
      CopyLoads slots dst a p.1 v inUse s p.2 := by
  have hlive' : ∀ (s₂ : Emitter), (∀ y ≠ dst, s₂.V y = s.V y) → ∀ y ∈ dst :: inUse, y ≠ dst →
      ∀ u, s₂.V y = some u → ∃ q, u.liveTo = some q ∧ t ≤ q := by
    intro s₂ hsame y hy hne u hu
    rw [hsame y hne] at hu
    exact hlive y (mem_of_ne_of_mem hne hy) hne u hu
  by_cases hda : dst = a
  · -- the slot itself
    subst hda
    rw [if_pos rfl] at hroom
    have hcopy : vcopy s dst dst = .ok s := if_pos rfl
    rw [hcopy]
    have hroom' : Room o s.V t (v.need + 0) (dst :: inUse) apart :=
      hroom.mono hV hV (subset_cons_self _ _) hapart (fun x u r hu hr => ⟨x, u, hu, hr⟩)
        fun _ _ => rfl
    refine (vreg_loads hV ha hroom' mem_cons_self hapart ht (hlive' s fun _ _ => rfl)
      hfit).mono ?_
    rintro ⟨r, s'⟩ ⟨v', h, -, hsame⟩
    obtain ⟨c, hc, hrun⟩ := h.moves.code
    refine ⟨h.moves.layout, fun q _ hs => h.scratch ha hs, ⟨v', h.entry, h.shadow, h.reg,
      h.const⟩, fun y u hu => ?_, fun _ => h.stays rfl, fun hne => absurd rfl hne,
      fun y hy => hsame y (mem_cons_of_mem _ hy), c, hc, fun w m env hd => ?_⟩
    · rcases h.shadow_of hu with ⟨-, hnone⟩ | ⟨-, u₀, hu₀, hshadow⟩
      · simp [hnone]
      · rw [hshadow]
        exact hno y u₀ hu₀
    · obtain ⟨hd', hregs, hcalls⟩ := hrun w m env hd
      rw [update_eq_self]
      exact ⟨hd', fun q hq => hregs q fun h => hq (Option.some.inj h), hcalls⟩
  · -- a shadow of `a`, which is then loaded
    rw [if_neg hda] at hroom
    obtain ⟨s₂, hs₂, hcode₂, hV₂, hlayout₂, hrun₂⟩ := vcopy_correct hV hdst ha hda hno
    rw [hs₂]
    have hsame₂ : ∀ y ≠ dst, s₂.V y = s.V y := by
      intro y hy
      rw [hV₂, update_of_ne hy]
    have hentry₂ : s₂.V dst = some ⟨v.reg, none, v.const, some a, v.type, none⟩ := by
      rw [hV₂, update_self]
    have hroom' : Room o s₂.V t
        (VInfo.need ⟨v.reg, none, v.const, some a, v.type, none⟩ + 0) (dst :: inUse) apart := by
      have hneed : VInfo.need ⟨v.reg, none, v.const, some a, v.type, none⟩ + 0 = 1 :=
        if_neg fun h => by simpa using h.2
      rw [hneed]
      refine hroom.mono hV hlayout₂ (subset_cons_self _ _) hapart (fun x u r hu hr => ?_)
        fun y hy => hsame₂ y fun h => hy (h ▸ mem_cons_self)
      by_cases hx : x = dst
      · subst hx
        cases hu.symm.trans hentry₂
        exact ⟨a, v, ha, hr⟩
      · exact ⟨x, u, hsame₂ x hx ▸ hu, hr⟩
    have hfit₂ : FitsAt slots s₂.V none dst := by
      have := hlayout₂
      rw [hV₂] at this ⊢
      exact hfit.copy hV this (Ne.symm hda) hno rfl
    have ht₂ : t ≤ s₂.pc - 1 := by rwa [Emitter.pc, hcode₂]
    refine (vreg_loads hlayout₂ hentry₂ hroom' mem_cons_self hapart ht₂ (hlive' s₂ hsame₂)
      hfit₂).mono ?_
    rintro ⟨r, s'⟩ ⟨v', h, -, hsame⟩
    obtain ⟨c, hc, hrun⟩ := h.moves.code
    refine ⟨h.moves.layout, fun q hq hs => ?_, ⟨v', h.entry, h.shadow, h.reg, h.const⟩,
      fun y u hu => ?_, fun h => absurd h hda, fun _ => ?_,
      fun y hy hne => (hsame y (mem_cons_of_mem _ hy) hne).trans (hsame₂ y hne), c,
      by rw [hc, hcode₂], fun w m env hd => ?_⟩
    · simp only [written, if_neg hda, mem_cons, not_mem_nil, or_false, not_or] at hq
      refine h.scratch hentry₂ ?_
      rw [hV₂]
      exact hs.update (Ne.symm hq.1) fun h => hq.2 (Option.some.inj h).symm
    · rcases h.shadow_of hu with ⟨-, hnone⟩ | ⟨hy, u₀, hu₀, hshadow⟩
      · simp [hnone]
      · rw [hshadow]
        exact hno y u₀ (hsame₂ y hy ▸ hu₀)
    · refine (h.source rfl).imp_right ?_
      rintro ⟨k, u, hu, hus, hur⟩
      have hk : k ≠ dst := by
        rintro rfl
        cases hu.symm.trans hentry₂
        simp at hus
      exact ⟨k, u, hk, hsame₂ k hk ▸ hu, hus, hur⟩
    · obtain ⟨hd', hregs, hcalls⟩ := hrun w m _ (hrun₂ m env hd)
      exact ⟨hd', fun q hq => hregs q fun h => hq (Option.some.inj h), hcalls⟩

/-- **An instruction on the copy** gives the slot its value. -/
theorem CopyLoads.computes {dst a r : Nat} {v : VInfo} {inUse : List Nat}
    (h : CopyLoads slots dst a r v inUse s s') (hnum : ∀ c ∈ v.const, c.isNumber = false)
    {i : Insn} {val : Machine → Word} (hexec : ∀ w m, exec1 w m i = m.set r (val m))
    {f : Env → Option Word}
    (hval : ∀ m m' env, Describes slots s.V env m →
      Describes slots s'.V (Function.update env dst (env a)) m' →
      (∀ q ≠ r, m'.regs q = m.regs q) → f env = some (val m')) :
    Computes slots (written dst a) s (s'.emit i)
      fun _ σ => σ.assign dst ⟨f σ.env, (σ.env a).access⟩ := by
  obtain ⟨u, hu, hus, hur, huc⟩ := h.entry
  have hunum : ∀ c ∈ u.const, c.isNumber = false := by
    rcases huc with huc | huc
    · exact huc ▸ hnum
    · simp [huc]
  obtain ⟨c, hc, hrun⟩ := h.code
  refine ⟨h.layout, h.scratch, c ++ [i], ?_, fun w m env hd => ?_⟩
  · rw [Emitter.emit, hc, append_assoc]
  · obtain ⟨hd', hregs, hcalls⟩ := hrun w m env hd
    rw [exec_append, exec_cons, hexec]
    refine ⟨?_, hcalls⟩
    have haccess : (env a).access = u.const.bind Const.access := by
      have := hd'.word_of_reg hu hus hur
      rw [update_self] at this
      rw [this]
    have hwrite := hd'.write h.layout hu hus hur h.no_copy hunum (val (exec w m c))
    rwa [update_idem, ← hval m _ env hd hd' hregs, ← haccess] at hwrite

/-- The type of a slot has nothing to do with its value. -/
theorem Computes.retype {uses : List Nat} {f : World → Values → Values}
    (h : Computes slots uses s s' f) (x : Nat) (type : Option CType) :
    Computes slots uses s (s'.modify x fun v => { v with type := type }) f := by
  cases hv : s'.V x with
  | none =>
    rwa [Emitter.modify, hv, update_eq_self_iff.mpr hv.symm]
  | some v =>
    rw [Emitter.modify, hv]
    have hmoves := moves_touch h.layout hv { v with type := type } rfl rfl rfl rfl
    obtain ⟨c, hc, hrun⟩ := h.code
    refine ⟨hmoves.layout, fun t ht hs => ?_, c, hc, fun w m env hd => ?_⟩
    · exact (h.scratch t ht hs).touch hv rfl rfl
    · obtain ⟨hd', hcalls⟩ := hrun w m env hd
      exact ⟨hd'.update h.layout.toRooted hv rfl (fun _ => rfl) id fun _ _ _ _ _ => rfl, hcalls⟩

end Bcc.Lua
