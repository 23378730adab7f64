import Bcc.Lua.Vreg

namespace Bcc.Lua

open Bpf CText Function List

/-!
# The Lua compiler — assignments

* `vset_correct` — a slot that others are copies of may be overwritten if it is in a register of its
  own and has one copy, which takes the register over;
* `vcopy_correct` — `vcopy` never looks at the copies of the slot it overwrites.
-/

variable {slots : Nat} {o : Order slots}

/-- The slots that are copies of a slot. -/
def copies (slots : Nat) (V : Table) (x : Nat) : List Nat :=
  (List.range (slots + 2)).filter fun y => (V y).any fun v => v.shadow == some x

section Copies

variable {V : Table} {x y : Nat} (hV : Rooted slots V)
include hV

theorem mem_copies : y ∈ copies slots V x ↔ ∃ v, V y = some v ∧ v.shadow = some x := by
  unfold copies
  rw [mem_filter, mem_range]
  constructor
  · rintro ⟨-, h⟩
    cases hv : V y with
    | none => simp [hv] at h
    | some v => exact ⟨v, rfl, by simpa [hv] using h⟩
  · rintro ⟨v, hv, hs⟩
    exact ⟨hV.dom y v hv, by simp [hv, hs]⟩

theorem not_copy (h : copies slots V x = []) : ∀ y v, V y = some v → v.shadow ≠ some x := by
  intro y v hv hs
  have hmem := (mem_copies hV).mpr ⟨v, hv, hs⟩
  simp [h] at hmem

theorem copies_eq_nil (h : ∀ y v, V y = some v → v.shadow ≠ some x) : copies slots V x = [] := by
  rw [eq_nil_iff_forall_not_mem]
  intro y hy
  obtain ⟨v, hv, hs⟩ := (mem_copies hV).mp hy
  exact h y v hv hs

/-- A slot is not its own copy. -/
theorem Rooted.shadow_ne {v : VInfo} (hv : V x = some v) : v.shadow ≠ some x := by
  intro hs
  obtain ⟨z, w, hz⟩ := hV.rooted x v hv
  obtain ⟨k, hk, -⟩ := hz.follow_eq
  have hlink : link V x = some x := by simp [link, hv, hs]
  cases hk with
  | stop h => simp [hlink] at h
  | go h hk' =>
    cases hlink.symm.trans h
    exact absurd (hk'.unique (.go hlink hk')) (by omega)

end Copies

/-! ### `vset` -/

/-- A slot that `vset` may overwrite: it has no copies, or one that can take its register. -/
def Overwritable (slots : Nat) (V : Table) (x : Nat) : Prop :=
  copies slots V x = []
    ∨ (copies slots V x).length = 1
      ∧ (V x).any (fun v => v.shadow.isNone && v.reg.isSome) = true

instance (V : Table) (x : Nat) : Decidable (Overwritable slots V x) :=
  inferInstanceAs (Decidable (_ ∨ _))

theorem handOver_eq_self {V : Table} {x : Nat} (hno : ∀ y v, V y = some v → v.shadow ≠ some x) :
    handOver V x = V := by
  unfold handOver
  split
  · rfl
  · funext y
    cases hv : V y with
    | none => rfl
    | some v => simp [hno y v hv]

theorem handOver_eq_update {V : Table} {x y r : Nat} {v u : VInfo} (hv : V x = some v)
    (hr : v.reg = some r) (hu : V y = some u) (hs : u.shadow = some x)
    (hone : ∀ z w, V z = some w → w.shadow = some x → z = y) :
    handOver V x = update V y (some { u with reg := some r, shadow := none }) := by
  unfold handOver
  simp only [hv, Option.bind_some, hr]
  funext z
  by_cases hz : z = y
  · subst hz
    simp [hu, hs]
  · rw [update_of_ne hz]
    cases hw : V z with
    | none => rfl
    | some w =>
      have : w.shadow ≠ some x := fun h => hz (hone z w hw h)
      simp [this]

/-- A constant, or nothing, can be put anywhere. -/
theorem admits_const (V : Table) (x : Nat) (const : Option Const) (type : Option CType) :
    Admits V x ⟨none, none, const, none, type, none⟩ :=
  ⟨fun _ _ _ _ h => by simp at h, fun _ h => by simp at h, fun _ h => by simp at h⟩

/-- The copy that takes over the register of a slot. -/
theorem exists_copy {V : Table} (hV : Rooted slots V) {x : Nat}
    (h : (copies slots V x).length = 1) :
    ∃ y u, V y = some u ∧ u.shadow = some x ∧ ∀ z w, V z = some w → w.shadow = some x → z = y := by
  obtain ⟨y, hy⟩ := length_eq_one_iff.mp h
  obtain ⟨u, hu, hs⟩ := (mem_copies hV).mp (hy ▸ mem_singleton_self y)
  refine ⟨y, u, hu, hs, fun z w hw hws => ?_⟩
  have hz := (mem_copies hV).mpr ⟨w, hw, hws⟩
  rwa [hy, mem_singleton] at hz

/-- **`vset`** with a constant, or without. -/
theorem vset_correct {s : Emitter} (hV : Layout slots s.V) {x : Nat}
    (hx : x < slots + 2) (hover : Overwritable slots s.V x) (const : Option Const)
    (vtype : Option CType) :
    Layout slots (vset s x none const vtype).V
      ∧ (∀ y u, (vset s x none const vtype).V y = some u → u.shadow ≠ some x)
      ∧ ∀ m env, Describes slots s.V env m →
        Describes slots (vset s x none const vtype).V
          (update env x (constValue const)) m := by
  unfold vset
  generalize vsetType const vtype = type
  -- what is left to show once no slot is a copy of `x`
  have hassign : ∀ V₁, Rooted slots V₁ → (∀ y u, V₁ y = some u → u.shadow ≠ some x) →
      (∀ y u, update V₁ x (some ⟨none, none, const, none, type, none⟩) y = some u →
        u.shadow ≠ some x)
      ∧ ∀ m env, Describes slots V₁ env m →
        Describes slots (update V₁ x (some ⟨none, none, const, none, type, none⟩))
          (update env x (constValue const)) m := by
    refine fun V₁ hV₁ hno => ⟨fun y u hu => ?_, fun m env hd => ?_⟩
    · rcases update_eq_some.mp hu with ⟨rfl, rfl⟩ | ⟨-, hu⟩
      · simp
      · exact hno y u hu
    · refine hd.assign hV₁ hx hno rfl ⟨rfl, fun c hc _ => ?_⟩ fun _ _ _ _ _ => rfl
      obtain rfl : const = some c := hc
      rfl
  rcases hover with hnone | ⟨hone, hreg⟩
  · have hno := not_copy hV.toRooted hnone
    rw [handOver_eq_self hno]
    exact ⟨hV.put (admits_const ..) (hV.cut hx rfl), hassign s.V hV.toRooted hno⟩
  · obtain ⟨y, u, hu, hus, hunique⟩ := exists_copy hV.toRooted hone
    obtain ⟨v, hv, hvs, r, hr⟩ : ∃ v, s.V x = some v ∧ v.shadow = none ∧ ∃ r, v.reg = some r := by
      cases hv : s.V x with
      | none => simp [hv] at hreg
      | some v =>
        simp only [hv, Option.any_some, Bool.and_eq_true, Option.isNone_iff_eq_none] at hreg
        exact ⟨v, rfl, hreg.1, Option.isSome_iff_exists.mp hreg.2⟩
    have hxy : x ≠ y := by
      rintro rfl
      exact hV.shadow_ne hu hus
    rw [handOver_eq_update hv hr hu hus hunique]
    refine ⟨?_, ?_⟩
    · -- without the old entry of `x`, its register is free for the copy
      rw [update_comm hxy.symm]
      have hlayout := hV.put (admits_const s.V x const type) (hV.cut hx rfl)
      refine hlayout.put ⟨fun z w q _ hq hw hws hwr => ?_, fun slot h => ?_, fun q hq => ?_⟩
        (hlayout.cut (hV.dom y u hu) rfl)
      · cases hq
        rcases update_eq_some.mp hw with ⟨rfl, rfl⟩ | ⟨hz, hw⟩
        · simp at hwr
        · exact absurd (hV.unique z x w v r hw hws hwr hv hvs hr) hz
      · exact hV.spill_eq y u slot hu h
      · cases hq
        exact hV.reg_or x v r hv hr
    · have hrooted : Rooted slots
          (update s.V y (some { u with reg := some r, shadow := none })) :=
        hV.cut (hV.dom y u hu) rfl
      have hno : ∀ z w, update s.V y (some { u with reg := some r, shadow := none }) z
          = some w → w.shadow ≠ some x := by
        intro z w hw
        rcases update_eq_some.mp hw with ⟨rfl, rfl⟩ | ⟨hz, hw⟩
        · simp
        · exact fun h => hz (hunique z w hw h)
      obtain ⟨hno', hdesc⟩ := hassign _ hrooted hno
      refine ⟨hno', fun m env hd => hdesc m env ?_⟩
      refine hd.cut hV.toRooted hu rfl (Value.ext ?_ (hd y u hu).2.1) id fun _ _ _ _ _ => rfl
      have hroot : Root s.V y x v := .there hu hus (.here hv hvs)
      rw [VInfo.value, VInfo.word_of_reg rfl, ← v.word_of_reg hr,
        ← (hV.describes_iff.mp hd).1 y x v hroot]
      rfl

/-! ### `vcopy` -/

/-- **`vcopy`** to a slot without copies. -/
theorem vcopy_correct {s : Emitter} (hV : Layout slots s.V) {dst src : Nat} {v : VInfo}
    (hdst : dst < slots + 2) (hsrc : s.V src = some v) (hne : dst ≠ src)
    (hno : ∀ y u, s.V y = some u → u.shadow ≠ some dst) :
    ∃ s', vcopy s dst src = .ok s' ∧ s'.code = s.code
      ∧ s'.V = update s.V dst (some ⟨v.reg, none, v.const, some src, v.type, none⟩)
      ∧ Layout slots s'.V ∧ ∀ m env, Describes slots s.V env m →
        Describes slots s'.V (update env dst (env src)) m := by
  have hadmits : Admits s.V dst ⟨v.reg, none, v.const, some src, v.type, none⟩ :=
    ⟨fun _ _ _ h => by simp at h, fun _ h => by simp at h, fun r h => hV.reg_or src v r hsrc h⟩
  refine ⟨⟨update s.V dst (some ⟨v.reg, none, v.const, some src, v.type, none⟩), s.code⟩,
    ?_, rfl, rfl, hV.put hadmits (hV.copy hdst hsrc hne.symm hno rfl), fun m env hd => ?_⟩
  · simp [vcopy, if_neg hne, hsrc]
  · exact hd.copy hV.toRooted hdst hsrc hne.symm hno rfl rfl

end Bcc.Lua
