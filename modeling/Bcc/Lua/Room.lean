import Bcc.Lua.Vreg

namespace Bcc.Lua

open Bpf CText List Option

/-!
# The Lua compiler — when there is room for another register

`reg_alloc` takes the register of the variable that was used least recently once `R7` to `R9` are
taken, also if it is a copy, which shares the register with its source.

* `Room` — there is a register that can be taken;
* `vreg_loads` — then `vreg` loads the slot.
-/

variable {slots : Nat} {o : Order slots}

/-- The variables with a register that were not in use lately, apart from those in `apart`. -/
def olds (slots : Nat) (V : Table) (t : Nat) (apart : List Nat) : List Nat :=
  (List.range (slots + 2)).filter fun y =>
    !apart.contains y && (V y).any fun v => v.reg.isSome && v.liveTo.any (· < t)

/-- `k` more registers can be had: they are left, or no variable with a register is a copy, apart
    from those in use, and `k` variables were not in use lately. -/
def Room (o : Order slots) (V : Table) (t k : Nat) (inUse apart : List Nat) : Prop :=
  k ≤ (spare o V).length
    ∨ (∀ y < slots + 2, y ∉ inUse →
        (V y).all (fun v => v.reg.isNone || v.shadow.isNone) = true)
      ∧ k ≤ (olds slots V t apart).length

instance (V : Table) (t k : Nat) (inUse apart : List Nat) : Decidable (Room o V t k inUse apart) :=
  inferInstanceAs (Decidable (_ ∨ _))

/-- How many registers `vreg` takes for a slot. -/
def VInfo.need (v : VInfo) : Nat := if v.Settled then 0 else 1

/-! ### Registers that are left -/

section Counting

variable {V V' : Table} {t k : Nat} {inUse apart : List Nat}

theorem mem_spare (hV : Layout slots V) {r : Nat} :
    r ∈ spare o V ↔ r ∈ [7, 8, 9] ∧ ∀ x v, V x = some v → v.reg ≠ some r := by
  rw [spare, mem_filter, Bool.not_eq_true', ← Bool.not_eq_true, named_iff hV]
  simp only [not_exists, not_and]

theorem mem_olds (hV : Layout slots V) {y : Nat} :
    y ∈ olds slots V t apart ↔ y ∉ apart ∧ ∃ v u, V y = some v ∧ v.reg.isSome = true
      ∧ v.liveTo = some u ∧ u < t := by
  rw [olds, mem_filter, mem_range, Bool.and_eq_true, Bool.not_eq_true',
    ← Bool.not_eq_true, contains_iff_mem]
  simp only [Bool.and_eq_true, Option.any_eq_true, decide_eq_true_eq]
  constructor
  · rintro ⟨-, hy, v, hv, hr, u, hu, hlt⟩
    exact ⟨hy, v, u, hv, hr, hu, hlt⟩
  · rintro ⟨hy, v, u, hv, hr, hu, hlt⟩
    exact ⟨hV.dom y v hv, hy, v, hv, hr, u, hu, hlt⟩

theorem spare_nodup : (spare o V).Nodup := by
  apply List.Nodup.filter
  decide

theorem olds_nodup : (olds slots V t apart).Nodup := nodup_range.filter _

/-- All elements but one are in another list. -/
theorem length_le_succ {l l' : List Nat} (hl : l.Nodup) (a : Nat)
    (h : ∀ x ∈ l, x ≠ a → x ∈ l') : l.length ≤ l'.length + 1 := by
  have hsub : l.erase a ⊆ l' := fun x hx => by
    rw [hl.mem_erase_iff] at hx
    exact h x hx.2 hx.1
  have hle := ((hl.erase a).subperm hsub).length_le
  have := le_length_erase (l := l) (a := a)
  omega

variable (hV : Layout slots V)
include hV

theorem room_iff : Room o V t k inUse apart ↔
    k ≤ (spare o V).length ∨ (∀ y v, V y = some v → y ∉ inUse → v.reg.isSome = true →
      v.shadow = none) ∧ k ≤ (olds slots V t apart).length := by
  refine or_congr_right (and_congr_left fun _ => ⟨fun h y v hv hy hr => ?_, fun h y _ hy => ?_⟩)
  · have := h y (hV.dom y v hv) hy
    rw [hv, all_some, Bool.or_eq_true, isNone_iff_eq_none, isNone_iff_eq_none] at this
    exact this.resolve_left (ne_none_iff_isSome.mpr hr)
  · cases hv : V y with
    | none => rfl
    | some v =>
      rw [all_some, Bool.or_eq_true, isNone_iff_eq_none, isNone_iff_eq_none]
      by_cases hr : v.reg.isSome = true
      · exact .inr (h y v hv hy hr)
      · exact .inl (not_isSome_iff_eq_none.mp hr)

/-- **The variable that has to give its register away.** -/
theorem Room.victim (h : Room o V t 1 inUse apart)
    (hlive : ∀ y ∈ inUse, ∀ v, V y = some v → ∃ u, v.liveTo = some u ∧ t ≤ u) {y : Nat}
    (hy : Victim o V y) : y ∉ inUse ∧ ∀ u, V y = some u → u.shadow = none := by
  obtain ⟨hspare, hlast⟩ := hy
  rcases (room_iff hV).mp h with h | ⟨hplain, h⟩
  · simp [hspare] at h
  obtain ⟨v, hv, hr⟩ := leastRecent_reg hlast
  have hfresh : y ∉ inUse := by
    intro hmem
    obtain ⟨u, hu, hle⟩ := hlive y hmem v hv
    obtain ⟨z, hz⟩ := exists_mem_of_length_pos h
    obtain ⟨-, w, q, hw, hwr, hq, hlt⟩ := (mem_olds hV).mp hz
    have := leastRecent_le hV hlast hv hu hw hwr hq
    omega
  refine ⟨hfresh, fun u hu => ?_⟩
  cases hv.symm.trans hu
  exact hplain y v hv hfresh hr

/-- Changes that take no more registers, and leave the variables that count. -/
theorem Room.weaken (hV' : Layout slots V')
    (h : Room o V t k inUse apart) {t' k' : Nat} {inUse' apart' : List Nat} (ht : t ≤ t')
    (hk : k' ≤ k)
    (hnames : ∀ x v' r, V' x = some v' → v'.reg = some r → 7 ≤ r →
      ∃ y v, V y = some v ∧ v.reg = some r)
    (hplain : (∀ y v, V y = some v → y ∉ inUse → v.reg.isSome = true → v.shadow = none) →
      ∀ y v', V' y = some v' → y ∉ inUse' → v'.reg.isSome = true → v'.shadow = none)
    (hrest : ∀ y v, V y = some v → v.reg.isSome = true → (y ∉ inUse → v.shadow = none) →
      y ∉ apart → y ∉ apart' ∧ V' y = V y) : Room o V' t' k' inUse' apart' := by
  rw [room_iff hV] at h
  rw [room_iff hV']
  refine h.imp (fun h => hk.trans (h.trans ?_)) fun ⟨hplain₀, h⟩ =>
    ⟨hplain hplain₀, hk.trans (h.trans ?_)⟩
  · refine (spare_nodup.subperm fun r hr => ?_).length_le
    rw [mem_spare hV] at hr
    refine (mem_spare hV').mpr ⟨hr.1, fun x v' hv' hvr => ?_⟩
    have h7 : 7 ≤ r := by
      have := hr.1
      simp only [mem_cons, not_mem_nil, or_false] at this
      omega
    obtain ⟨y, v, hv, hvr'⟩ := hnames x v' r hv' hvr h7
    exact hr.2 y v hv hvr'
  · refine (olds_nodup.subperm fun y hy => ?_).length_le
    obtain ⟨hy', v, u, hv, hr, hu, hlt⟩ := (mem_olds hV).mp hy
    obtain ⟨hy'', heq⟩ := hrest y v hv hr (fun h => hplain₀ y v hv h hr) hy'
    exact (mem_olds hV').mpr ⟨hy'', v, u, heq.trans hv, hr, hu, by omega⟩

/-- Changes to slots in use, without more registers. -/
theorem Room.mono (hV' : Layout slots V') (h : Room o V t k inUse apart) {inUse' : List Nat}
    (hsub : inUse ⊆ inUse') (hapart : inUse' ⊆ apart)
    (hnames : ∀ x v' r, V' x = some v' → v'.reg = some r → ∃ y v, V y = some v ∧ v.reg = some r)
    (hrest : ∀ y, y ∉ inUse' → V' y = V y) : Room o V' t k inUse' apart := by
  refine h.weaken hV hV' le_rfl le_rfl (fun x v' r hv' hr _ => hnames x v' r hv' hr)
    (fun hplain y v' hv' hy => ?_) fun y v hv _ _ hy =>
      ⟨hy, hrest y fun hmem => hy (hapart hmem)⟩
  rw [hrest y hy] at hv'
  exact hplain y v' hv' fun hmem => hy (hsub hmem)

end Counting

/-! ### Taking registers -/

section Loading

variable {s s' : Emitter} {x r t k : Nat} {v v' : VInfo} {inUse apart : List Nat}

/-- The names of registers after `vreg`. -/
theorem Loads.names (h : Loads o none x r v v' s s') {y q : Nat} {u : VInfo}
    (hu : s'.V y = some u) (hq : u.reg = some q) :
    q = r ∨ ∃ w, s.V y = some w ∧ w.reg = some q := by
  by_cases hy : y = x
  · subst hy
    cases hu.symm.trans h.entry
    exact .inl (Option.some.inj (hq.symm.trans h.reg))
  · rcases h.others y hy with heq | ⟨-, w, -, -, -, heq⟩
    · exact .inr ⟨u, heq ▸ hu, hq⟩
    · cases hu.symm.trans heq
      simp at hq

variable (hV : Layout slots s.V) (hv : s.V x = some v)
include hV hv

section

variable (h : Loads o none x r v v' s s')
include h

/-- A slot that stays in its register takes none. -/
theorem Loads.others_of_settled (hs : v.Settled) {y : Nat} (hy : y ≠ x) : s'.V y = s.V y := by
  rcases h.others y hy with heq | ⟨-, w, hw, hws, hwr, -⟩
  · exact heq
  · exact absurd (hV.unique y x w v r hw hws hwr hv hs.2 (h.stays rfl hs)) hy

/-- **What is left** when a slot was brought into a register. -/
theorem Room.loads (hroom : Room o s.V t (v.need + k) inUse apart) (hx : x ∈ inUse)
    (hapart : inUse ⊆ apart) : Room o s'.V t k inUse apart := by
  have hV' := h.moves.layout
  by_cases hs : v.Settled
  · rw [VInfo.need, if_pos hs, Nat.zero_add] at hroom
    refine hroom.mono hV hV' (List.Subset.refl _) hapart (fun y u q hu hq => ?_) fun y hy => ?_
    · rcases h.names hu hq with rfl | ⟨w, hw⟩
      · exact ⟨x, v, hv, h.stays rfl hs⟩
      · exact ⟨y, w, hw⟩
    · exact h.others_of_settled hV hv hs fun hyx => hy (hyx ▸ hx)
  · rw [VInfo.need, if_neg hs, room_iff hV] at hroom
    rw [room_iff hV']
    refine hroom.imp (fun hroom => ?_) fun ⟨hplain, hroom⟩ => ⟨fun y u hu hy hr => ?_, ?_⟩
    · have := @length_le_succ (spare o s.V) (spare o s'.V) spare_nodup r fun q hq hne => by
          rw [mem_spare hV] at hq
          refine (mem_spare hV').mpr ⟨hq.1, fun y u hu hur => ?_⟩
          rcases h.names hu hur with rfl | ⟨w, hw, hwr⟩
          · exact hne rfl
          · exact hq.2 y w hw hwr
      omega
    · rcases h.others y fun hyx => hy (hyx ▸ hx) with heq | ⟨-, w, -, -, -, heq⟩
      · exact hplain y u (heq ▸ hu) hy hr
      · cases hu.symm.trans heq
        simp at hr
    · -- at most one variable, the one that had the register, is on the stack now
      have hmoved : ∃ z, ∀ y, y ≠ x → y ≠ z → s'.V y = s.V y := by
        by_cases hex : ∃ z w, s.V z = some w ∧ w.shadow = none ∧ w.reg = some r
        · obtain ⟨z, w, hw, hws, hwr⟩ := hex
          refine ⟨z, fun y hy hyz => (h.others y hy).resolve_right ?_⟩
          rintro ⟨-, u, hu, hus, hur, -⟩
          exact hyz (hV.unique y z u w r hu hus hur hw hws hwr)
        · refine ⟨x, fun y hy _ => (h.others y hy).resolve_right ?_⟩
          rintro ⟨-, u, hu, hus, hur, -⟩
          exact hex ⟨y, u, hu, hus, hur⟩
      obtain ⟨z, hz⟩ := hmoved
      have := @length_le_succ (olds slots s.V t apart) (olds slots s'.V t apart)
        olds_nodup z fun y hy hne => by
          obtain ⟨hy', w, u, hw, hrest⟩ := (mem_olds hV).mp hy
          refine (mem_olds hV').mpr ⟨hy', w, u, ?_, hrest⟩
          rw [hz y (fun hyx => hy' (hapart (hyx ▸ hx))) hne, hw]
      omega

/-- If the register was taken from a slot that does not count, as many are left as before. -/
theorem Room.loads_moved (hroom : Room o s.V t k inUse apart) (hk : 0 < k) (hx : x ∈ inUse)
    (hapart : inUse ⊆ apart) {z : Nat} (hz : z ∈ apart) (hzx : z ≠ x) (hmoved : s'.V z ≠ s.V z) :
    Room o s'.V t k inUse apart := by
  have hV' := h.moves.layout
  rcases h.others z hzx with heq | ⟨hvictim, w, hw, hws, hwr, -⟩
  · exact absurd heq hmoved
  have hspare : spare o s.V = [] := by
    rw [eq_nil_iff_forall_not_mem]
    intro q hq
    rw [mem_spare hV] at hq
    have htouch := (moves_touched hV hv).layout
    have hmem : q ∈ spare o (touch s x).V := by
      refine (mem_spare htouch).mpr ⟨hq.1, fun y u hu hur => ?_⟩
      obtain ⟨u', hu', heq⟩ : ∃ u', s.V y = some u' ∧ u'.reg = u.reg := by
        rw [touch_V hv] at hu
        rcases update_eq_some.mp hu with ⟨rfl, rfl⟩ | ⟨-, hu⟩
        · exact ⟨v, hv, rfl⟩
        · exact ⟨u, hu, rfl⟩
      exact hq.2 y u' hu' (heq.trans hur)
    simp [(hvictim rfl).1] at hmem
  rw [room_iff hV, hspare, length_nil] at hroom
  rw [room_iff hV']
  obtain ⟨hplain, hroom⟩ := hroom.resolve_left (by omega)
  refine .inr ⟨fun y u hu hy hr => ?_, hroom.trans ?_⟩
  · rcases h.others y fun hyx => hy (hyx ▸ hx) with heq | ⟨-, w, -, -, -, heq⟩
    · exact hplain y u (heq ▸ hu) hy hr
    · cases hu.symm.trans heq
      simp at hr
  · refine (olds_nodup.subperm fun y hy => ?_).length_le
    obtain ⟨hy', u, q, hu, hrest⟩ := (mem_olds hV).mp hy
    refine (mem_olds hV').mpr ⟨hy', u, q, ?_, hrest⟩
    rw [(h.others y fun hyx => hy' (hapart (hyx ▸ hx))).resolve_right, hu]
    rintro ⟨-, u', hu', hus, hur, -⟩
    exact hy' (hV.unique y z u' w r hu' hus hur hw hws hwr ▸ hz)

end

/-- Slots in use are where they were. -/
theorem Room.victim_touch (hroom : Room o s.V t (v.need + k) inUse apart) (hx : x ∈ inUse)
    (hapart : inUse ⊆ apart) (ht : t ≤ s.pc - 1)
    (hlive : ∀ y ∈ inUse, y ≠ x → ∀ u, s.V y = some u → ∃ q, u.liveTo = some q ∧ t ≤ q)
    (hns : ¬ v.Settled) {y : Nat} (hy : Victim o (touch s x).V y) :
    y ∉ inUse ∧ ∀ u, (touch s x).V y = some u → u.shadow = none := by
  have htouch := (moves_touched hV hv).layout
  have hentry : ∀ z u, (touch s x).V z = some u → z ≠ x ∧ s.V z = some u ∨
      z = x ∧ u.reg = v.reg ∧ u.liveTo = some (s.pc - 1) := by
    intro z u hu
    rw [touch_V hv] at hu
    rcases update_eq_some.mp hu with ⟨rfl, rfl⟩ | ⟨hz, hu⟩
    · exact .inr ⟨rfl, rfl, rfl⟩
    · exact .inl ⟨hz, hu⟩
  have hone : Room o s.V t 1 inUse apart := by
    refine hroom.imp (fun h => ?_) (And.imp_right fun h => ?_)
    · rw [VInfo.need, if_neg hns] at h
      omega
    · rw [VInfo.need, if_neg hns] at h
      omega
  have hroom' : Room o (touch s x).V t 1 inUse apart := by
    refine hone.mono hV htouch (List.Subset.refl _) hapart (fun z u q hu hq => ?_) fun z hz => ?_
    · rcases hentry z u hu with ⟨-, hu'⟩ | ⟨-, hr, -⟩
      · exact ⟨z, u, hu', hq⟩
      · exact ⟨x, v, hv, hr.symm.trans hq⟩
    · rw [touch_V hv, Function.update_of_ne]
      rintro rfl
      exact hz hx
  refine hroom'.victim htouch (fun z hz u hu => ?_) hy
  rcases hentry z u hu with ⟨hzx, hu'⟩ | ⟨-, -, hl⟩
  · exact hlive z hz hzx u hu'
  · exact ⟨_, hl, ht⟩

end Loading

/-! ### `vreg` with room -/

/-- The compiler rejects the program, or the property holds of what it goes on with. -/
def Yields {α : Type} (r : Res α) (Q : α → Prop) : Prop :=
  (∃ e, r = .error e ∧ e ≠ .outOfFuel) ∨ ∃ x, r = .ok x ∧ Q x

section Yields

variable {α β : Type} {r : Res α} {Q : α → Prop}

theorem Yields.of_ok {x : α} (h : Q x) : Yields (.ok x : Res α) Q := .inr ⟨x, rfl, h⟩

theorem Yields.of_error {e : Fault} (h : e ≠ .outOfFuel) : Yields (.error e : Res α) Q :=
  .inl ⟨e, rfl, h⟩

theorem Yields.bind {f : α → Res β} {P : β → Prop} (h : Yields r Q)
    (hf : ∀ x, Q x → Yields (f x) P) : Yields (r >>= f) P := by
  rcases h with ⟨e, rfl, he⟩ | ⟨x, rfl, hx⟩
  · exact .of_error he
  · exact hf x hx

theorem Yields.mono {P : α → Prop} (h : Yields r Q) (hQ : ∀ x, Q x → P x) : Yields r P :=
  h.imp_right fun ⟨x, hr, hx⟩ => ⟨x, hr, hQ x hx⟩

end Yields

/-- **`vreg` with room**: nothing that is in use is moved. -/
theorem vreg_loads {s : Emitter} (hV : Layout slots s.V) {x t k : Nat} {v : VInfo}
    (hv : s.V x = some v) {inUse apart : List Nat}
    (hroom : Room o s.V t (v.need + k) inUse apart) (hx : x ∈ inUse) (hapart : inUse ⊆ apart)
    (ht : t ≤ s.pc - 1)
    (hlive : ∀ y ∈ inUse, y ≠ x → ∀ u, s.V y = some u → ∃ q, u.liveTo = some q ∧ t ≤ q)
    (hfit : FitsAt slots s.V none x) :
    Yields (vreg o s x none false none) fun p => ∃ v', Loads o none x p.1 v v' s p.2
      ∧ Room o p.2.V t k inUse apart ∧ ∀ y ∈ inUse, y ≠ x → p.2.V y = s.V y := by
  have hvictim : ¬ v.Settled → ∀ y, Victim o (touch s x).V y →
      y ∉ inUse ∧ ∀ u, (touch s x).V y = some u → u.shadow = none :=
    fun hns y hy => hroom.victim_touch hV hv hx hapart ht hlive hns hy
  have hreg : ∀ r ∈ (none : Option Nat), r = 0 ∨ 6 ≤ r ∧ r ≤ 9 := by simp
  rcases vreg_moves hV hv hreg (fun _ hns y hy => (hvictim hns y hy).2) hfit with
    herr | ⟨r, s', v', hs', hloads⟩
  · rw [herr]
    exact .of_error (by simp)
  · rw [hs']
    refine .of_ok ⟨v', hloads, hroom.loads hV hv hloads hx hapart, fun y hy hyx => ?_⟩
    by_cases hs : v.Settled
    · exact hloads.others_of_settled hV hv hs hyx
    · rcases hloads.others y hyx with heq | ⟨hy', -⟩
      · exact heq
      · exact absurd hy (hvictim hs y (hy' rfl)).1

end Bcc.Lua
