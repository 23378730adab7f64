import Bcc.Lua.Alloc

namespace Bcc.Lua

open Bpf CText Function

/-!
# The Lua compiler — what `vreg` does

* `vreg_moves`, `vreg_reserve` — `vreg` loads a slot into a register from wherever its value is, and
  leaves a table in which the slot is not a copy any more.
-/

variable {slots : Nat} {o : Order slots}

/-! ### Constants -/

/-- A constant that its type leaves room for, in the code that loads it. -/
def Const.Fits (type : Option CType) : Const → Prop
  | .num n => if type = some (.bytes 8) then 0 ≤ n ∧ n < 2 ^ 32 else -2 ^ 31 ≤ n ∧ n < 2 ^ 31
  | .cdata w => type = some (.bytes 8) ∨ -2 ^ 31 ≤ w.toInt ∧ w.toInt < 2 ^ 31
  | .proxy access => -2 ^ 31 ≤ access.off ∧ access.off < 2 ^ 31
  | .other _ => True

/-- An immediate that fits keeps its value. -/
theorem imm32_of_fits {n : Int} (h : -2 ^ 31 ≤ n ∧ n < 2 ^ 31) : imm32 n = BitVec.ofInt 64 n := by
  have hn : (BitVec.ofInt 32 n).toInt = n := by
    rw [BitVec.toInt_ofInt]
    exact Int.bmod_eq_of_le (by omega) (by omega)
  rw [imm32, BitVec.signExtend, hn]

theorem zero_append_ofInt {n : Int} (h : 0 ≤ n ∧ n < 2 ^ 32) :
    ((0 : BitVec 32) ++ BitVec.ofInt 32 n : Word) = BitVec.ofInt 64 n := by
  apply BitVec.eq_of_toNat_eq
  rw [BitVec.toNat_append]
  simp
  omega

theorem high_append_low (w : Word) : ((w >>> 32).setWidth 32 ++ w.setWidth 32 : Word) = w := by
  apply BitVec.eq_of_toNat_eq
  rw [BitVec.toNat_append, ← Nat.shiftLeft_add_eq_or_of_lt (BitVec.isLt _)]
  simp
  omega

theorem constCode_spec {c : Const} {type : Option CType} (hfit : c.Fits type) (r : Nat) :
    constCode r type c = .error .assertion ∨ ∃ code x, constCode r type c = .ok code
      ∧ c.word = some x ∧ ∀ w m, exec w m code = m.set r x := by
  cases c with
  | other text => exact .inl rfl
  | proxy access =>
    refine .inr ⟨_, _, rfl, rfl, fun w m => ?_⟩
    rw [← imm32_of_fits hfit]
    rfl
  | num n =>
    rw [Const.Fits] at hfit
    rw [constCode]
    by_cases ht : type = some (.bytes 8)
    · rw [if_pos ht] at hfit ⊢
      refine .inr ⟨_, _, rfl, rfl, fun w m => ?_⟩
      rw [← zero_append_ofInt hfit]
      rfl
    · rw [if_neg ht] at hfit ⊢
      refine .inr ⟨_, _, rfl, rfl, fun w m => ?_⟩
      rw [← imm32_of_fits hfit]
      rfl
  | cdata w =>
    rw [constCode]
    by_cases ht : type = some (.bytes 8)
    · rw [if_pos ht]
      refine .inr ⟨_, _, rfl, rfl, fun _ m => ?_⟩
      simp [exec1, high_append_low]
    · rw [if_neg ht]
      refine .inr ⟨_, _, rfl, rfl, fun _ m => ?_⟩
      simp [exec1, imm32_of_fits (hfit.resolve_left ht)]

theorem access_eq_none {c : Const} (h : ¬ c.isProxy = true) :
    (some c).bind Const.access = none := by
  cases c with
  | proxy access => exact absurd rfl h
  | num _ | cdata _ | other _ => rfl

variable {v : VInfo} {vtype : Option CType}

/-- **Loading a register**, from where the value of a slot is. -/
theorem loadFrom_spec {src : VInfo} (r : Nat)
    (hfit : src.reg = none → src.spill = none → ∀ c ∈ src.const, c.Fits (vtype.or src.type)) :
    loadFrom r src v vtype = .error .assertion ∨ ∃ code v' vtype',
      loadFrom r src v vtype = .ok (code, v', vtype')
        ∧ (∀ w m, ∃ x, src.word m = some x ∧ exec w m code = m.set r x)
        ∧ v'.liveTo = v.liveTo
        ∧ (v'.const = v.const ∨ v'.const = none ∧ src.const.bind Const.access = none)
        ∧ (v'.spill = v.spill ∨ v'.spill = none) := by
  unfold loadFrom
  cases hr : src.reg with
  | some q =>
    exact .inr ⟨_, _, _, rfl, fun w m => ⟨_, src.word_of_reg hr, rfl⟩, rfl, .inl rfl, .inl rfl⟩
  | none =>
    cases hs : src.spill with
    | some slot =>
      exact .inr ⟨_, _, _, rfl, fun w m => ⟨_, src.word_of_spill hr hs, rfl⟩, rfl, .inl rfl,
        .inr rfl⟩
    | none =>
      cases hc : src.const with
      | none => exact .inl rfl
      | some c =>
        rcases constCode_spec (hfit hr hs c hc) r with herr | ⟨code, x, hcode, hx, hrun⟩
        · exact .inl (by simp [herr])
        refine .inr ⟨code, _, _, by simp only [hcode]; rfl, fun w m => ⟨x, ?_, hrun w m⟩,
          ?_⟩
        · rw [src.word_of_const hr hs, hc]
          exact hx
        · split
          · exact ⟨rfl, .inl rfl, .inl rfl⟩
          · rename_i hproxy
            exact ⟨rfl, .inr ⟨rfl, access_eq_none hproxy⟩, .inl rfl⟩

/-! ### Loading a register -/

/-- The constant of a slot, if it has to be loaded, fits. -/
def FitsAt (slots : Nat) (V : Table) (vtype : Option CType) (x : Nat) : Prop :=
  ∀ w, follow V (slots + 3) x = .ok w → w.reg = none → w.spill = none →
    ∀ c ∈ w.const, c.Fits (vtype.or w.type)

/-- Two tables with the same copies, in which the same constants are left. -/
def Alike (V V' : Table) : Prop :=
  ∀ x v', V' x = some v' → ∃ v, V x = some v ∧ v'.shadow = v.shadow
    ∧ (v'.reg = none → v'.spill = none →
      v.reg = none ∧ v.spill = none ∧ v'.const = v.const ∧ v'.type = v.type)

variable {V V' : Table} {x : Nat}

theorem Alike.root (h : Alike V V') {z : Nat} {w' : VInfo} (hroot : Root V' x z w') :
    ∃ w, Root V x z w := by
  induction hroot with
  | here hv hs =>
    obtain ⟨v, hv', hs', -⟩ := h _ _ hv
    exact ⟨v, .here hv' (hs'.symm.trans hs)⟩
  | there hv hs _ ih =>
    obtain ⟨v, hv', hs', -⟩ := h _ _ hv
    obtain ⟨w, hw⟩ := ih
    exact ⟨w, .there hv' (hs'.symm.trans hs) hw⟩

theorem FitsAt.alike (hV : Layout slots V) (hV' : Layout slots V') (h : Alike V V')
    (hfit : FitsAt slots V vtype x) : FitsAt slots V' vtype x := by
  intro w' hw' hr hs c hc
  obtain ⟨z, hz'⟩ := (follow_eq_ok_iff hV'.dom).mp hw'
  obtain ⟨w, hz⟩ := h.root hz'
  obtain ⟨v, hv, -, hleft⟩ := h z w' hz'.entry.1
  obtain rfl := Option.some.inj (hv.symm.trans hz.entry.1)
  obtain ⟨hvr, hvs, hconst, htype⟩ := hleft hr hs
  rw [htype]
  exact hfit v ((follow_eq_ok_iff hV.dom).mpr ⟨z, hz⟩) hvr hvs c (hconst ▸ hc)

variable {r : Nat} {s : Emitter}

theorem Gives.alike {s' : Emitter} (h : Gives slots r s s') : Alike s.V s'.V := by
  intro x v' hv'
  rcases h.entry x with heq | ⟨v, hv, hs, hr, heq⟩
  · exact ⟨v', heq ▸ hv', rfl, fun hr hs => ⟨hr, hs, rfl, rfl⟩⟩
  · cases heq.symm.trans hv'
    exact ⟨v, hv, rfl, fun _ h => by simp at h⟩

/-- The table when `vreg` has noted that a variable is in use. -/
def touch (s : Emitter) (x : Nat) : Emitter :=
  s.modify x fun v => { v with liveTo := some (s.pc - 1) }

theorem touch_V (hv : s.V x = some v) :
    (touch s x).V = update s.V x (some { v with liveTo := some (s.pc - 1) }) := by
  rw [touch, Emitter.modify, hv, Option.map_some]

theorem moves_touched (hV : Layout slots s.V) (hv : s.V x = some v) :
    Moves slots none s (touch s x) := by
  have h := moves_touch hV hv { v with liveTo := some (s.pc - 1) } rfl rfl rfl rfl
  rwa [← touch_V hv] at h

theorem touch_alike (hv : s.V x = some v) : Alike s.V (touch s x).V := by
  intro y u hu
  rw [touch_V hv] at hu
  rcases update_eq_some.mp hu with ⟨rfl, rfl⟩ | ⟨-, hu⟩
  · exact ⟨v, hv, rfl, fun hr hs => ⟨hr, hs, rfl, rfl⟩⟩
  · exact ⟨u, hu, rfl, fun hr hs => ⟨hr, hs, rfl, rfl⟩⟩

theorem Source.of_touch (hv : s.V x = some v) (h : Source (touch s x).V r) : Source s.V r := by
  rcases h with h | ⟨k, u, hu, hs, hr⟩
  · exact .inl h
  · rw [touch_V hv] at hu
    rcases update_eq_some.mp hu with ⟨rfl, rfl⟩ | ⟨-, hu⟩
    · exact .inr ⟨k, v, hv, hs, hr⟩
    · exact .inr ⟨k, u, hu, hs, hr⟩

/-- An entry with a register that no slot has. -/
theorem admits_inReg (hr : r = 0 ∨ 6 ≤ r ∧ r ≤ 9)
    (hspill : ∀ slot, v.spill = some slot → slot = spillSlot x)
    (hfree : ∀ x v, V x = some v → v.shadow = none → v.reg ≠ some r) :
    Admits V x (v.inReg r vtype) := by
  refine ⟨fun y w q _ hq hw hws hwr => ?_, hspill, fun q hq => ?_⟩
  · cases hq
    exact absurd hwr (hfree y w hw hws)
  · cases hq
    exact hr

/-- **Behind `reg_alloc`**, with a register that no slot has. -/
theorem settle_moves (hV : Layout slots s.V) (hv : s.V x = some v)
    (hr : r = 0 ∨ 6 ≤ r ∧ r ≤ 9)
    (hfree : ∀ x v, s.V x = some v → v.shadow = none → v.reg ≠ some r)
    (hfit : FitsAt slots s.V vtype x) :
    settle slots s x r false vtype = .error .assertion ∨ ∃ s' v',
      settle slots s x r false vtype = .ok s' ∧ Moves slots (some r) s s'
        ∧ s'.V = update s.V x (some v') ∧ v'.shadow = none ∧ v'.reg = some r
        ∧ v'.liveTo = v.liveTo ∧ (v'.const = v.const ∨ v'.const = none) := by
  obtain ⟨z, src, hroot⟩ := hV.rooted x v hv
  have hfollow : follow s.V (slots + 3) x = .ok src := (follow_eq_ok_iff hV.dom).mpr ⟨z, hroot⟩
  rw [settle, hv]
  simp only [hfollow, ok_bind]
  rcases loadFrom_spec r (v := v) (fun h₁ h₂ c hc => hfit src hfollow h₁ h₂ c hc) with
    herr | ⟨code, v₁, vtype₁, hload, hrun, hlive, hconst, hspill⟩
  · exact .inl (by simp [herr])
  refine .inr ⟨⟨update s.V x (some (v₁.inReg r vtype₁)), s.code ++ code⟩,
    v₁.inReg r vtype₁, ?_, ?_⟩
  · simp only [hload]
    rfl
  · have ha : Admits s.V x (v₁.inReg r vtype₁) := by
      refine admits_inReg hr (fun slot hslot => ?_) hfree
      rcases hspill with h | h
      · exact hV.spill_eq x v slot hv (h ▸ hslot)
      · simp [h] at hslot
    refine ⟨⟨hV.put ha (hV.cut (hV.dom x v hv) rfl), code, rfl, fun w m env hd => ?_⟩, rfl, rfl,
      rfl, hlive, hconst.imp_right And.left⟩
    obtain ⟨val, hval, hexec⟩ := hrun w m
    rw [hexec]
    have hsrc : src.value m = env x := (hV.describes_iff.mp hd).1 x z src hroot
    have hrecords : (v₁.inReg r vtype₁).Records (env x) := by
      rcases hconst with h | ⟨h, haccess⟩
      · rw [VInfo.inReg, h]
        exact (hd x v hv).2
      · rw [VInfo.inReg, h, ← hsrc]
        exact ⟨haccess.symm, by simp⟩
    refine ⟨hd.cut hV.toRooted hv rfl (Value.ext ?_ hrecords.1) (fun _ => hrecords)
      (same_set val fun z w _ hw hs => hfree z w hw hs), ?_, rfl⟩
    · rw [VInfo.value, VInfo.word_of_reg rfl, Machine.set_regs_self, ← hval, ← hsrc]
      rfl
    · intro q hq
      exact Machine.set_regs_of_ne m (fun h => hq (congrArg some h)) val

/-! ### `vreg` -/

/-- A variable that is in a register of its own. -/
def VInfo.Settled (v : VInfo) : Prop := v.reg.isSome = true ∧ v.shadow = none

instance (v : VInfo) : Decidable v.Settled := inferInstanceAs (Decidable (_ ∧ _))

/-- A variable that is in a register already, and no register is asked for. -/
theorem vreg_early (hv : s.V x = some v) (hr : v.reg = some r) (hs : v.shadow = none)
    (reserve : Bool) (vtype : Option CType) :
    vreg o s x none reserve vtype = .ok (r, touch s x) := by
  simp only [vreg, hv, hr, hs]
  rfl

theorem vreg_late (hv : s.V x = some v) {reg : Option Nat} (hlate : reg = none → ¬ v.Settled)
    (reserve : Bool) (vtype : Option CType) :
    vreg o s x reg reserve vtype = (do
      let (r, s) ← regAlloc o (touch s x) reg
      return (r, ← settle slots s x r reserve vtype)) := by
  simp only [vreg, hv]
  split
  · rename_i hr hs
    exact absurd ⟨by simp [hr], hs⟩ (hlate rfl)
  · rfl

/-- The other slots after `vreg`: as they were, or moved to the stack to make room. -/
def Others (V V' : Table) (x r : Nat) (moved : Nat → Prop) : Prop :=
  ∀ y ≠ x, V' y = V y ∨ moved y ∧ ∃ u, V y = some u ∧ u.shadow = none ∧ u.reg = some r
    ∧ V' y = some { u with spill := some (spillSlot y), reg := none }

/-- Which slots are copies afterwards, if the slot itself is none. -/
theorem Others.shadow_of {moved : Nat → Prop} {v' : VInfo} (h : Others V V' x r moved)
    (hv' : V' x = some v') (hs : v'.shadow = none) {y : Nat} {u' : VInfo} (hu' : V' y = some u') :
    y = x ∧ u'.shadow = none ∨ y ≠ x ∧ ∃ u, V y = some u ∧ u'.shadow = u.shadow := by
  by_cases hy : y = x
  · subst hy
    cases hu'.symm.trans hv'
    exact .inl ⟨rfl, hs⟩
  · refine .inr ⟨hy, ?_⟩
    rcases h y hy with heq | ⟨-, u, hu, -, -, heq⟩
    · exact ⟨u', heq ▸ hu', rfl⟩
    · cases hu'.symm.trans heq
      exact ⟨u, hu, rfl⟩

/-- A slot was brought into a register, which it may have been in already. -/
structure Loads (o : Order slots) (asked : Option Nat) (x r : Nat) (v v' : VInfo)
    (s s' : Emitter) : Prop where
  moves : Moves slots (some r) s s'
  entry : s'.V x = some v'
  shadow : v'.shadow = none
  reg : v'.reg = some r
  live : v'.liveTo = some (s.pc - 1)
  const : v'.const = v.const ∨ v'.const = none
  eq_asked : ∀ q ∈ asked, r = q
  source : asked = none → Source s.V r
  stays : asked = none → v.Settled → v.reg = some r
  others : Others s.V s'.V x r fun y => asked = none → Victim o (touch s x).V y

/-- **`vreg`** brings a slot into a register and keeps the values of all slots. -/
theorem vreg_moves (hV : Layout slots s.V)
    (hv : s.V x = some v) {reg : Option Nat} (hreg : ∀ r ∈ reg, r = 0 ∨ 6 ≤ r ∧ r ≤ 9)
    (hvictim : reg = none → ¬ v.Settled → ∀ k, Victim o (touch s x).V k →
      ∀ u, (touch s x).V k = some u → u.shadow = none)
    (hfit : FitsAt slots s.V vtype x) :
    vreg o s x reg false vtype = .error .assertion ∨ ∃ r s' v',
      vreg o s x reg false vtype = .ok (r, s') ∧ Loads o reg x r v v' s s' := by
  have htouch := moves_touched hV hv
  have hx : (touch s x).V x = some { v with liveTo := some (s.pc - 1) } := by
    rw [touch_V hv, update_self]
  have hothers : ∀ y ≠ x, (touch s x).V y = s.V y := by
    intro y hy
    rw [touch_V hv, update_of_ne hy]
  by_cases hearly : reg = none ∧ v.Settled
  · obtain ⟨rfl, hsome, hs⟩ := hearly
    obtain ⟨r, hr⟩ := Option.isSome_iff_exists.mp hsome
    exact .inr ⟨r, _, _, vreg_early hv hr hs _ _,
      { moves := htouch.trans (.refl htouch.layout) (.inl rfl)
        entry := hx
        shadow := hs
        reg := hr
        live := rfl
        const := .inl rfl
        eq_asked := by simp
        source := fun _ => .inr ⟨x, v, hv, hs, hr⟩
        stays := fun _ _ => hr
        others := fun y hy => .inl (hothers y hy) }⟩
  · have hlate : reg = none → ¬ v.Settled := fun hnone h => hearly ⟨hnone, h⟩
    rw [vreg_late hv hlate]
    rcases regAlloc_spec htouch.layout hreg fun h => hvictim h (hlate h) with
      herr | ⟨r, s₁, hs₁, hgives, hr, hq, hsource, hmoved⟩
    · exact .inl (by simp [herr])
    simp only [hs₁, ok_bind]
    have hfit₁ : FitsAt slots s₁.V vtype x :=
      (hfit.alike hV htouch.layout (touch_alike hv)).alike htouch.layout hgives.moves.layout
        hgives.alike
    obtain ⟨v₁, hv₁, hlive, hconst⟩ : ∃ v₁, s₁.V x = some v₁ ∧ v₁.liveTo = some (s.pc - 1)
        ∧ v₁.const = v.const := by
      rcases hgives.entry x with heq | ⟨u, hu, -, -, heq⟩
      · exact ⟨_, heq.trans hx, rfl, rfl⟩
      · cases hx.symm.trans hu
        exact ⟨_, heq, rfl, rfl⟩
    rcases settle_moves hgives.moves.layout hv₁ hr hgives.free hfit₁ with
      herr | ⟨s', v', hs', hmoves, hV', hshadow, hreg', hlive', hconst'⟩
    · exact .inl (by simp [herr])
    have hrest : Others s.V s'.V x r fun y => reg = none → Victim o (touch s x).V y := by
      intro y hy
      rw [hV', update_of_ne hy, ← hothers y hy]
      rcases hgives.entry y with heq | hspilled
      · exact .inl heq
      · by_cases hm : reg = none → Victim o (touch s x).V y
        · exact .inr ⟨hm, hspilled⟩
        · exact .inl (hmoved y hm)
    exact .inr ⟨r, s', v', by simp only [hs']; rfl,
      { moves := (htouch.trans hgives.moves (.inl rfl)).trans hmoves (.inl rfl)
        entry := by rw [hV', update_self]
        shadow := hshadow
        reg := hreg'
        live := hlive'.trans hlive
        const := hconst ▸ hconst'
        eq_asked := hq
        source := fun h => (hsource h).of_touch hv
        stays := fun h hs => absurd hs (hlate h)
        others := hrest }⟩

/-- A register is set aside for a slot that is about to be overwritten: the values of all slots
    were kept until the entry of the slot was replaced. -/
structure Reserves (slots : Nat) (x r : Nat) (v : VInfo) (s s' : Emitter) : Prop where
  reg : r = 0 ∨ 6 ≤ r ∧ r ≤ 9
  before : ∃ s₁ v', s' = ⟨update s₁.V x (some v'), s₁.code⟩
    ∧ Moves slots none s s₁ ∧ v'.shadow = none ∧ v'.reg = some r ∧ v'.const = v.const
    ∧ (∀ slot, v'.spill = some slot → slot = spillSlot x)
    ∧ (∀ y u, y ≠ x → s₁.V y = some u → u.shadow = none → u.reg ≠ some r)
    ∧ Others s.V s₁.V x r fun _ => True

/-- **A register is reserved.** -/
theorem vreg_reserve (hV : Layout slots s.V)
    (hv : s.V x = some v) {reg : Option Nat} (hreg : ∀ r ∈ reg, r = 0 ∨ 6 ≤ r ∧ r ≤ 9)
    (hvictim : reg = none → ¬ v.Settled → ∀ k, Victim o (touch s x).V k →
      ∀ u, (touch s x).V k = some u → u.shadow = none)
    (vtype : Option CType) :
    vreg o s x reg true vtype = .error .assertion ∨ ∃ r s',
      vreg o s x reg true vtype = .ok (r, s') ∧ Reserves slots x r v s s'
        ∧ ∀ q ∈ reg, r = q := by
  have htouch := moves_touched hV hv
  have hx : (touch s x).V x = some { v with liveTo := some (s.pc - 1) } := by
    rw [touch_V hv, update_self]
  have hothers : ∀ y ≠ x, (touch s x).V y = s.V y := by
    intro y hy
    rw [touch_V hv, update_of_ne hy]
  by_cases hearly : reg = none ∧ v.Settled
  · obtain ⟨rfl, hsome, hs⟩ := hearly
    obtain ⟨r, hr⟩ := Option.isSome_iff_exists.mp hsome
    refine .inr ⟨r, _, vreg_early hv hr hs _ _, ⟨hV.reg_or x v r hv hr, touch s x,
      { v with liveTo := some (s.pc - 1) }, ?_, htouch, hs, hr, rfl,
      fun slot => hV.spill_eq x v slot hv, fun y u hy hu hus hur => ?_,
      fun y hy => .inl (hothers y hy)⟩, by simp⟩
    · rw [update_eq_self_iff.mpr hx.symm]
    · rw [hothers y hy] at hu
      exact hy (hV.unique y x u v r hu hus hur hv hs hr)
  · have hlate : reg = none → ¬ v.Settled := fun hnone h => hearly ⟨hnone, h⟩
    rw [vreg_late hv hlate]
    rcases regAlloc_spec htouch.layout hreg fun h => hvictim h (hlate h) with
      herr | ⟨r, s₁, hs₁, hgives, hr, hq, -, -⟩
    · exact .inl (by simp [herr])
    obtain ⟨v₁, hv₁, hconst⟩ : ∃ v₁, s₁.V x = some v₁ ∧ v₁.const = v.const := by
      rcases hgives.entry x with heq | ⟨u, hu, -, -, heq⟩
      · exact ⟨_, heq.trans hx, rfl⟩
      · cases hx.symm.trans hu
        exact ⟨_, heq, rfl⟩
    obtain ⟨z, src, hroot⟩ := hgives.moves.layout.rooted x _ hv₁
    have hfollow : follow s₁.V (slots + 3) x = .ok src :=
      (follow_eq_ok_iff hgives.moves.layout.dom).mpr ⟨z, hroot⟩
    refine .inr ⟨r, ⟨update s₁.V x (some (v₁.inReg r vtype)), s₁.code⟩, ?_,
      ⟨hr, s₁, v₁.inReg r vtype, rfl, htouch.trans hgives.moves (.inl rfl), rfl, rfl, hconst,
        fun slot => hgives.moves.layout.spill_eq x v₁ slot hv₁,
        fun y u _ hu hus => hgives.free y u hu hus, fun y hy => ?_⟩, hq⟩
    · simp only [hs₁, ok_bind, settle, hv₁, hfollow, if_true, List.append_nil]
      rfl
    · rw [← hothers y hy]
      rcases hgives.entry y with heq | hspilled
      · exact .inl heq
      · exact .inr ⟨trivial, hspilled⟩

end Bcc.Lua
