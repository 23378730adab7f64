import Bcc.Lua.Fields

namespace Bcc.Lua

open Bpf CText Function

/-!
# The Lua compiler — 8 bytes of a packet

* `ldAbs_wide` — a field of 8 bytes is loaded in two halves, both by way of `R0`: the slot for
  temporary values takes the first, goes to the stack when the second is loaded, and is brought back
  into another register.
-/

variable {slots : Nat} {o : Order slots}

/-! ### Two halves -/

/-- The slots with a register. -/
def holders (slots : Nat) (V : Table) (r : Nat) : List Nat :=
  (List.range (slots + 2)).filter fun y => (V y).any fun v => v.reg == some r

theorem mem_holders {V : Table} (hV : Rooted slots V) {r y : Nat} :
    y ∈ holders slots V r ↔ ∃ v, V y = some v ∧ v.reg = some r := by
  rw [holders, List.mem_filter, List.mem_range, Option.any_eq_true]
  simp only [beq_iff_eq]
  constructor
  · rintro ⟨-, v, hv, hr⟩
    exact ⟨v, hv, hr⟩
  · rintro ⟨v, hv, hr⟩
    exact ⟨hV.dom y v hv, v, hv, hr⟩

/-- `ALU_IMM` on a slot in a register. -/
theorem aluImm_settled {s : Emitter} {x r : Nat} {u : VInfo} (hu : s.V x = some u)
    (hfold : foldable u = none) (hr : u.reg = some r) (hs : u.shadow = none) (b : Int) (op : Alu) :
    aluImm o s x x b op = .ok ⟨(touch s x).V, s.code ++ [.aluImm op r b]⟩ := by
  have hcopy : vcopy s x x = .ok s := if_pos rfl
  have hentry : (touch s x).V x = some { u with liveTo := some (s.pc - 1) } := by
    rw [touch_V hu, update_self]
  simp only [aluImm, hu, hfold, hcopy, ok_bind, vreg_early hu hr hs, Emitter.modify, hentry,
    Emitter.emit]
  congr 2
  exact update_eq_self_iff.mpr hentry.symm

/-- A slot in a register has no constant to load. -/
theorem fitsAt_of_reg {V : Table} {x r : Nat} {v : VInfo} (hv : V x = some v)
    (hs : v.shadow = none) (hr : v.reg = some r) (vtype : Option CType) :
    FitsAt slots V vtype x := by
  intro w hw hnone
  have hfollow : follow V (slots + 3) x = .ok v := by simp [follow, hv, hs]
  cases hfollow.symm.trans hw
  simp [hr] at hnone

section Halves

variable {s s₁ s₃ s₄ : Emitter} {dst : Nat} {t u : VInfo}

/-- The other slots, when `R0` was taken twice. -/
def TakenTwice (V V' : Table) (dst tmp : Nat) : Prop :=
  ∀ y, y ≠ dst → y ≠ tmp → V' y = V y ∨ ∃ v w, V y = some v ∧ v.reg = some 0
    ∧ V' y = some w ∧ w.reg = none

theorem takenTwice (h : Reserves slots slots 0 t s s₁)
    (heq : ∀ y ≠ slots, s₃.V y = s₁.V y) (h' : Reserves slots dst 0 u s₃ s₄) :
    TakenTwice s.V s₄.V dst slots := by
  intro y hy hytmp
  have hfirst := h.others y hytmp
  rw [← heq y hytmp] at hfirst
  rcases h'.others y hy with heq' | ⟨-, v, hv, -, hr, heq'⟩
  · rw [heq']
    rcases hfirst with hsame | ⟨-, v, hv, -, hr, hmoved⟩
    · exact .inl hsame
    · exact .inr ⟨v, _, hv, hr, hmoved, rfl⟩
  · refine .inr ⟨v, _, ?_, hr, heq', rfl⟩
    rcases hfirst with hsame | ⟨-, v₀, -, -, -, hmoved⟩
    · rw [← hsame, hv]
    · cases hv.symm.trans hmoved
      simp at hr

variable {v w : VInfo}

/-- A register for the first half is left, if there was one before. -/
theorem TakenTwice.room {V V' : Table} {tmp pc pc' : Nat} (h : TakenTwice V V' dst tmp)
    (hV : Layout slots V) (hV' : Layout slots V') (hv : V' dst = some v)
    (hvs : v.shadow = none) (hvr : v.reg = some 0) (hw : V' tmp = some w) (hwr : w.reg = none)
    (hpc : pc ≤ pc') (hroom : Room o V pc 1 [dst, tmp] (dst :: tmp :: holders slots V 0)) :
    Room o V' pc' 1 [tmp] [dst, tmp] := by
  refine hroom.weaken hV hV' hpc le_rfl (fun x v' r hv' hr h7 => ?_)
    (fun hplain y v' hv' hy hr => ?_) fun y v' hv' hr _ hy => ?_
  · by_cases hx : x = dst
    · subst hx
      cases hv.symm.trans hv'
      cases hvr.symm.trans hr
      omega
    by_cases hxtmp : x = tmp
    · subst hxtmp
      cases hw.symm.trans hv'
      simp [hwr] at hr
    rcases h x hx hxtmp with heq | ⟨-, w', -, -, hw', hwr'⟩
    · exact ⟨x, v', heq ▸ hv', hr⟩
    · cases hw'.symm.trans hv'
      simp [hwr'] at hr
  · by_cases hyd : y = dst
    · subst hyd
      cases hv.symm.trans hv'
      exact hvs
    have hytmp : y ≠ tmp := by simpa using hy
    rcases h y hyd hytmp with heq | ⟨-, w', -, -, hw', hwr'⟩
    · exact hplain y v' (heq ▸ hv') (by simp [hyd, hytmp]) hr
    · cases hw'.symm.trans hv'
      simp [hwr'] at hr
  · simp only [List.mem_cons, not_or] at hy
    refine ⟨by simp [hy.1, hy.2.1], (h y hy.1 hy.2.1).resolve_right ?_⟩
    rintro ⟨v₀, -, hv₀, hr₀, -⟩
    exact hy.2.2 ((mem_holders hV.toRooted).mpr ⟨v₀, hv₀, hr₀⟩)

theorem Target.reserves {x r : Nat} {s' : Emitter} (ht : Target slots s.V dst u)
    (h : Reserves slots x r v s s') (hx : dst ≠ x) : ∃ u', Target slots s'.V dst u' := by
  obtain ⟨u', hu', hconst⟩ : ∃ u', s'.V dst = some u' ∧ u'.const = u.const := by
    rcases h.others dst hx with heq | ⟨-, w, hw, -, -, heq⟩
    · exact ⟨u, heq.trans ht.entry, rfl⟩
    · cases ht.entry.symm.trans hw
      exact ⟨_, heq, rfl⟩
  refine ⟨u', ht.lt, hu', h.no_copy ht.no_copy, ?_⟩
  rw [foldable, hconst]
  exact ht.not_number

theorem Target.touch {x : Nat} (ht : Target slots s.V dst u) (hv : s.V x = some v)
    (hx : dst ≠ x) : Target slots (touch s x).V dst u := by
  rw [touch_V hv]
  refine ⟨ht.lt, by rw [update_of_ne hx, ht.entry], fun y w hw => ?_, ht.not_number⟩
  rcases update_eq_some.mp hw with ⟨rfl, rfl⟩ | ⟨-, hw⟩
  · exact ht.no_copy y v hv
  · exact ht.no_copy y w hw

/-- The value of 8 bytes, from its halves. -/
def combined (lo hi : Word) : Word := lo ||| hi <<< 32

theorem arith_combined (lo hi : Word) (access access' : Option Access) :
    arith .or ⟨some lo, access⟩ (arith .lsh ⟨some hi, access'⟩ (number 32))
      = ⟨some (combined lo hi), access⟩ := rfl

variable (hV : Layout slots s.V) (hscratch : Scratch s.V slots)
include hV hscratch

/-- The first half, shifted. -/
theorem shift_computes (hw : s.V slots = some w) (hr : w.reg = some 0) :
    aluImm o s slots slots 32 .lsh
        = .ok ⟨(touch s slots).V, s.code ++ [.aluImm .lsh 0 32]⟩
      ∧ Computes slots [] s ⟨(touch s slots).V, s.code ++ [.aluImm .lsh 0 32]⟩
        fun _ σ => σ.assign slots (arith .lsh (σ.env slots) (number 32)) := by
  obtain ⟨w', hw', hs, hc⟩ := hscratch.entry
  cases hw.symm.trans hw'
  have hfold : foldable w = none := by rw [foldable, hc]; rfl
  have hshift := aluImm_settled (o := o) hw hfold hr hs 32 .lsh
  refine ⟨hshift, ?_⟩
  have hcopies := copies_eq_nil hV.toRooted hscratch.no_copy
  have hsafe : ImmSafe o s slots slots 32 w := by
    refine ⟨fun h => by simp [hfold] at h, fun _ => ⟨hcopies, fitsAt_of_reg hw hs hr _, .inl ?_,
      by decide, by decide⟩⟩
    rw [if_pos rfl, VInfo.need, if_pos ⟨by simp [hr], hs⟩]
    exact Nat.zero_le _
  have hyields := aluImm_computes hV (by omega) hw hsafe .lsh
  rw [hshift] at hyields
  rcases hyields with ⟨e, herr, -⟩ | ⟨s', hs', h⟩
  · simp at herr
  · cases hs'
    rwa [written, if_pos rfl] at h

/-- The code that combines the halves. -/
theorem combine_compiles (ht : Target slots s.V dst u) (hr : u.reg = some 0)
    (hs : u.shadow = none) (hw : s.V slots = some w)
    (hroom : Room o s.V (s.pc - 1) 1 [slots] [dst, slots]) :
    Yields (aluReg o s dst dst slots .or) fun s' => Owned s'.V dst
      ∧ Compiles slots s s' fun _ σ =>
        σ.assign dst (arith .or (σ.env dst) (σ.env slots)) := by
  have hlt := ht.lt
  obtain ⟨w', hw', hws, hwc⟩ := hscratch.entry
  cases hw.symm.trans hw'
  have hfolds : ¬ Folds u w := fun h => by
    have := h.1
    simp [ht.not_number] at this
  have hfit : FitsAt slots s.V none slots := by
    intro v hv _ _ c hc
    have hfollow : follow s.V (slots + 3) slots = .ok w := by simp [follow, hw, hws]
    cases hfollow.symm.trans hv
    simp [hwc] at hc
  have hneed : w.need + (if dst = dst then u.need else 1) ≤ 1 := by
    rw [if_pos rfl, VInfo.need, VInfo.need, if_pos (show u.Settled from ⟨by simp [hr], hs⟩)]
    split <;> omega
  have hvars : VarsSafe o s dst dst slots u w := by
    refine ⟨ht.not_number, fun y hy => ?_, fun h => absurd h (Nat.ne_of_lt hlt),
      fitsAt_of_reg ht.entry hs hr _, hfit, ?_⟩
    · obtain ⟨v, hv, hvs⟩ := (mem_copies hV.toRooted).mp hy
      exact absurd hvs (ht.no_copy y v hv)
    · exact hroom.imp hneed.trans (And.imp_right hneed.trans)
  have hsafe : RegSafe o s dst dst slots u w :=
    ⟨fun h => absurd h hfolds, fun _ => hvars⟩
  refine (aluReg_compiles hV hscratch hlt (Nat.ne_of_lt hlt) ht.entry hw hsafe .or).mono ?_
  rintro s' ⟨howned, h⟩
  exact ⟨howned hfolds, h⟩

/-- **A load of 8 bytes from the packet.** -/
theorem ldAbs_wide (ht : Target slots s.V dst u)
    (hroom : Room o s.V (s.pc - 1) 1 [dst, slots]
      (dst :: slots :: holders slots s.V 0)) (off : Int) :
    Yields (ldAbs o s dst 8 off) fun s' => Owned s'.V dst
      ∧ ∃ access, Compiles slots s s' fun w σ => σ.assign dst
        ⟨some (combined (ordered w 4 (w.packet 4 (BitVec.ofInt 64 off)))
          (ordered w 4 (w.packet 4 (BitVec.ofInt 64 (off + 4))))), access⟩ := by
  have hne : dst ≠ slots := Nat.ne_of_lt ht.lt
  obtain ⟨t, htmp, -, htc⟩ := hscratch.entry
  have htnum : ∀ c ∈ t.const, c.isNumber = false := by simp [htc]
  -- the first half
  refine (reserve_zero hV htmp _).bind ?_
  rintro ⟨_, s₁⟩ h₁
  dsimp only
  rw [emitLdAbs_eq]
  obtain ⟨-, hfirst⟩ := h₁.computes htmp (by omega) hscratch.no_copy htnum
    (writes_packet (i := .ldAbs 4 (off + 4)) (fun _ _ => rfl) 4)
    (f := fun w _ => some (ordered w 4 (w.packet 4 (BitVec.ofInt 64 (off + 4)))))
    fun _ _ _ _ _ _ _ => rfl
  obtain ⟨t₁, ht₁, -, hr₁, -⟩ := h₁.entry
  obtain ⟨u₁, hu₁⟩ := ht.reserves h₁ hne
  generalize hs₂ : Emitter.mk s₁.V (s₁.code ++ .ldAbs 4 (off + 4) :: swap 4) = s₂ at *
  have hV₂ : s₂.V = s₁.V := by rw [← hs₂]
  rw [← hV₂] at ht₁ hu₁
  have hscratch₂ := hfirst.scratch _ (by simp) hscratch
  obtain ⟨hshift_eq, hshift⟩ := shift_computes hfirst.layout hscratch₂ ht₁ hr₁
  rw [hshift_eq]
  generalize hs₃ : Emitter.mk (touch s₂ slots).V (s₂.code ++ [.aluImm .lsh 0 32]) = s₃ at *
  have hV₃ : s₃.V = (touch s₂ slots).V := by rw [← hs₃]
  -- the second half takes the register, and the first goes to the stack
  have hu₃ : Target slots s₃.V dst u₁ := hV₃ ▸ hu₁.touch ht₁ hne
  refine (reserve_zero hshift.layout hu₃.entry _).bind ?_
  rintro ⟨_, s₄⟩ h₄
  rw [emitLdAbs_eq]
  obtain ⟨-, access, hsecond⟩ := hu₃.computes h₄
    (writes_packet (i := .ldAbs 4 off) (fun _ _ => rfl) 4)
    (f := fun w _ => some (ordered w 4 (w.packet 4 (BitVec.ofInt 64 off))))
    fun _ _ _ _ _ _ _ => rfl
  have hhalves := (hfirst.trans hshift).trans hsecond
  have hscratch₅ := hhalves.scratch _ (by simp) hscratch
  obtain ⟨u₄, hu₄, hus₄, hur₄, huc₄⟩ := h₄.entry
  have ht₄ : Target slots s₄.V dst u₄ := by
    refine ⟨ht.lt, hu₄, h₄.no_copy hu₃.no_copy, ?_⟩
    rw [foldable, huc₄]
    exact hu₃.not_number
  obtain ⟨w, hw, hws, -⟩ := hscratch₅.entry
  have hwr : w.reg = none := by
    rcases h₄.others slots hne.symm with heq | ⟨-, w', -, -, -, heq⟩
    · -- the first half would still have the register
      exfalso
      rw [hV₃, touch_V ht₁, update_self] at heq
      exact h₄.free hne.symm heq (Option.some.inj (heq.symm.trans hw) ▸ hws) hr₁
    · rw [Option.some.inj (hw.symm.trans heq)]
  have htaken : TakenTwice s.V s₄.V dst slots := by
    refine takenTwice h₁ (fun y hy => ?_) h₄
    rw [hV₃, touch_V ht₁, update_of_ne hy, hV₂]
  obtain ⟨c, hc, -⟩ := hhalves.code
  have hroom₄ := htaken.room hV hhalves.layout hu₄ hus₄ hur₄ hw hwr (Emitter.pc_le hc) hroom
  -- the first half comes back, into another register
  refine (combine_compiles hhalves.layout hscratch₅ ht₄ hur₄ hus₄ hw hroom₄).bind ?_
  rintro s₆ ⟨howned, hcombine⟩
  refine .of_ok ⟨howned.release hne, access, ?_⟩
  refine (hhalves.trans_compiles hcombine).release.congr fun w m env _ => ⟨fun x hx => ?_, rfl⟩
  have hxtmp : x ≠ slots := Nat.ne_of_lt hx
  by_cases hxd : x = dst
  · subst hxd
    simp [update_of_ne hne.symm, arith_combined]
  · simp [update_of_ne hxd, update_of_ne hxtmp]

end Halves

end Bcc.Lua
