import Bcc.Lua.Emitter

namespace Bcc.Lua

open Bpf CText Function

/-!
# The Lua compiler — tables that describe the machine

* `Describes` — the table `V` gives the value of every slot in a state of the machine, read the way
  `vreg` reads it;
* `Layout` — what has to hold of a table by itself: copies lead to a slot that is not one, and no
  two slots have the same register.
-/

variable {slots : Nat}

/-- The values of slots. -/
abbrev Env := Nat → Value

/-- **The table describes the slots**: following copies ends, at an entry that stands for the
    value of the slot; and a constant that arithmetic uses is that value. -/
def Describes (slots : Nat) (V : Table) (env : Env) (m : Machine) : Prop :=
  ∀ x v, V x = some v →
    (∃ w, follow V (slots + 3) x = .ok w ∧ w.value m = env x) ∧ v.Records (env x)

/-- Copies lead to a slot that is not one. -/
structure Rooted (slots : Nat) (V : Table) : Prop where
  dom : ∀ x v, V x = some v → x < slots + 2
  rooted : ∀ x v, V x = some v → ∃ z w, Root V x z w

/-- A well-formed table. -/
structure Layout (slots : Nat) (V : Table) : Prop extends Rooted slots V where
  unique : ∀ x y v w r, V x = some v → v.shadow = none → v.reg = some r →
    V y = some w → w.shadow = none → w.reg = some r → x = y
  spill_eq : ∀ x v slot, V x = some v → v.spill = some slot → slot = spillSlot x
  reg_or : ∀ x v r, V x = some v → v.reg = some r → r = 0 ∨ 6 ≤ r ∧ r ≤ 9

/-- The entries after an assignment to one of them. -/
theorem update_eq_some {V : Table} {k x : Nat} {v u : VInfo} :
    Function.update V k (some v) x = some u ↔ x = k ∧ v = u ∨ x ≠ k ∧ V x = some u := by
  by_cases hx : x = k
  · subst hx
    simp
  · simp [hx]

/-! ### Where copies lead to -/

namespace Root

variable {V : Table} {x y z k : Nat} {v v' w : VInfo}

/-- An assignment that keeps `shadow`. -/
theorem update (hk : V k = some v) (hs : v'.shadow = v.shadow) (h : Root V x z w) :
    Root (Function.update V k (some v')) x z (if z = k then v' else w) := by
  induction h with
  | @here x u hu hus =>
    by_cases hx : x = k
    · subst hx
      cases hk.symm.trans hu
      rw [if_pos rfl]
      exact .here (update_self ..) (hs.trans hus)
    · rw [if_neg hx]
      exact .here ((update_of_ne hx ..).trans hu) hus
  | @there x y z u w hu hus _ ih =>
    by_cases hx : x = k
    · subst hx
      cases hk.symm.trans hu
      exact .there (update_self ..) (hs.trans hus) ih
    · exact .there ((update_of_ne hx ..).trans hu) hus ih

theorem of_update (hk : V k = some v) (hs : v'.shadow = v.shadow) {w' : VInfo}
    (h : Root (Function.update V k (some v')) x z w') :
    Root V x z (if z = k then v else w') := by
  have hback := h.update (update_self ..) hs.symm
  rwa [update_idem, ← hk, update_eq_self] at hback

/-- An entry that is no longer a copy: the copies of the slot now lead to the slot itself. -/
theorem of_cut (hv' : v'.shadow = none) (h : Root (Function.update V k (some v')) y z w) :
    (z = k ∧ w = v' ∧ ∀ z₁ w₁, Root V k z₁ w₁ → Root V y z₁ w₁) ∨ (z ≠ k ∧ Root V y z w) := by
  induction h with
  | here hu hus =>
    rcases update_eq_some.mp hu with ⟨rfl, rfl⟩ | ⟨hy, hu⟩
    · exact .inl ⟨rfl, rfl, fun _ _ h => h⟩
    · exact .inr ⟨hy, .here hu hus⟩
  | there hu hus _ ih =>
    rcases update_eq_some.mp hu with ⟨-, rfl⟩ | ⟨hy, hu⟩
    · simp [hv'] at hus
    · rcases ih with ⟨hz, hw, hlead⟩ | ⟨hz, hroot⟩
      · exact .inl ⟨hz, hw, fun z₁ w₁ h => .there hu hus (hlead z₁ w₁ h)⟩
      · exact .inr ⟨hz, .there hu hus hroot⟩

theorem cut (hv' : v'.shadow = none) (h : Root V y z w) :
    ∃ z' w', Root (Function.update V k (some v')) y z' w' := by
  induction h with
  | @here y u hu hus =>
    by_cases hy : y = k
    · subst hy
      exact ⟨_, _, .here (update_self ..) hv'⟩
    · exact ⟨_, _, .here ((update_of_ne hy ..).trans hu) hus⟩
  | @there y y' z u w hu hus _ ih =>
    by_cases hy : y = k
    · subst hy
      exact ⟨_, _, .here (update_self ..) hv'⟩
    · obtain ⟨z', w', h'⟩ := ih
      exact ⟨z', w', .there ((update_of_ne hy ..).trans hu) hus h'⟩

/-- An assignment to a slot without copies. -/
theorem fresh {e : Option VInfo} (hno : ∀ y u, V y = some u → u.shadow ≠ some k)
    (h : Root V y z w) (hy : y ≠ k) : z ≠ k ∧ Root (Function.update V k e) y z w := by
  induction h with
  | here hu hus => exact ⟨hy, .here ((update_of_ne hy ..).trans hu) hus⟩
  | there hu hus _ ih =>
    have hne : _ ≠ k := fun heq => hno _ _ hu (heq ▸ hus)
    obtain ⟨hz, h'⟩ := ih hne
    exact ⟨hz, .there ((update_of_ne hy ..).trans hu) hus h'⟩

theorem of_fresh {e : Option VInfo} (hno : ∀ y u, V y = some u → u.shadow ≠ some k)
    (h : Root (Function.update V k e) y z w) (hy : y ≠ k) : z ≠ k ∧ Root V y z w := by
  induction h with
  | here hu hus =>
    rw [update_of_ne hy] at hu
    exact ⟨hy, .here hu hus⟩
  | there hu hus _ ih =>
    rw [update_of_ne hy] at hu
    have hne : _ ≠ k := fun heq => hno _ _ hu (heq ▸ hus)
    obtain ⟨hz, h'⟩ := ih hne
    exact ⟨hz, .there hu hus h'⟩

end Root

/-! ### The invariant in terms of roots -/

/-- `Describes` is about the roots. -/
theorem Rooted.describes_iff {V : Table} {env : Env} {m : Machine} (hV : Rooted slots V) :
    Describes slots V env m ↔ (∀ x z w, Root V x z w → w.value m = env x)
      ∧ ∀ x v, V x = some v → v.Records (env x) := by
  constructor
  · refine fun h => ⟨fun x z w hroot => ?_, fun x v hv => (h x v hv).2⟩
    obtain ⟨v, hv⟩ := hroot.isSome
    obtain ⟨⟨w', hw', hval⟩, -⟩ := h x v hv
    obtain ⟨z', hz'⟩ := (follow_eq_ok_iff hV.dom).mp hw'
    rw [(hroot.unique hz').2]
    exact hval
  · rintro ⟨hroots, hconst⟩ x v hv
    obtain ⟨z, w, hz⟩ := hV.rooted x v hv
    exact ⟨⟨w, (follow_eq_ok_iff hV.dom).mpr ⟨z, hz⟩, hroots x z w hz⟩, hconst x v hv⟩

/-! ### Entries that fit into a table -/

/-- An entry that can be put into a table for the slot `k`. -/
structure Admits (V : Table) (k : Nat) (v : VInfo) : Prop where
  unique : ∀ y w r, v.shadow = none → v.reg = some r →
    V y = some w → w.shadow = none → w.reg = some r → y = k
  spill_eq : ∀ slot, v.spill = some slot → slot = spillSlot k
  reg_or : ∀ r, v.reg = some r → r = 0 ∨ 6 ≤ r ∧ r ≤ 9

section Put

variable {V : Table} {k : Nat} {v v' : VInfo} {env : Env} {m m' : Machine}

/-- Putting it there keeps the table well-formed, if copies still lead to an end. -/
theorem Layout.put (hV : Layout slots V) (ha : Admits V k v')
    (hroot : Rooted slots (Function.update V k (some v'))) :
    Layout slots (Function.update V k (some v')) where
  toRooted := hroot
  unique x y u w r hu hus hur hw hws hwr := by
    rcases update_eq_some.mp hu with ⟨rfl, rfl⟩ | ⟨-, hu'⟩
    · rcases update_eq_some.mp hw with ⟨rfl, -⟩ | ⟨-, hw'⟩
      · rfl
      · exact (ha.unique y w r hus hur hw' hws hwr).symm
    · rcases update_eq_some.mp hw with ⟨rfl, rfl⟩ | ⟨-, hw'⟩
      · exact ha.unique x u r hws hwr hu' hus hur
      · exact hV.unique x y u w r hu' hus hur hw' hws hwr
  spill_eq x u slot hu hslot := by
    rcases update_eq_some.mp hu with ⟨rfl, rfl⟩ | ⟨-, hu⟩
    · exact ha.spill_eq slot hslot
    · exact hV.spill_eq x u slot hu hslot
  reg_or x u r hu hr := by
    rcases update_eq_some.mp hu with ⟨rfl, rfl⟩ | ⟨-, hu⟩
    · exact ha.reg_or r hr
    · exact hV.reg_or x u r hu hr

section

variable (hV : Rooted slots V)
include hV

theorem Rooted.dom_update (hk : k < slots + 2) :
    ∀ x u, Function.update V k (some v') x = some u → x < slots + 2 := by
  intro x u hu
  rcases update_eq_some.mp hu with ⟨rfl, -⟩ | ⟨-, hu⟩
  · exact hk
  · exact hV.dom x u hu

/-- An assignment that keeps `shadow`. -/
theorem Rooted.update (hv : V k = some v) (hs : v'.shadow = v.shadow) :
    Rooted slots (Function.update V k (some v')) := by
  refine ⟨hV.dom_update (hV.dom k v hv), fun x u hu => ?_⟩
  obtain ⟨u', hu'⟩ : ∃ u', V x = some u' := by
    rcases update_eq_some.mp hu with ⟨rfl, -⟩ | ⟨-, hu⟩
    · exact ⟨v, hv⟩
    · exact ⟨u, hu⟩
  obtain ⟨z, w, hz⟩ := hV.rooted x u' hu'
  exact ⟨z, _, hz.update hv hs⟩

/-- An entry that is not a copy, or no longer one. -/
theorem Rooted.cut (hk : k < slots + 2) (hs : v'.shadow = none) :
    Rooted slots (Function.update V k (some v')) := by
  refine ⟨hV.dom_update hk, fun x u hu => ?_⟩
  rcases update_eq_some.mp hu with ⟨rfl, rfl⟩ | ⟨-, hu⟩
  · exact ⟨x, v', .here (update_self ..) hs⟩
  · obtain ⟨z, w, hz⟩ := hV.rooted x u hu
    exact hz.cut hs

/-- A copy of a slot, in a slot without copies. -/
theorem Rooted.copy (hk : k < slots + 2) {src : Nat} {u : VInfo} (hsrc : V src = some u)
    (hne : src ≠ k) (hno : ∀ y u, V y = some u → u.shadow ≠ some k) (hs : v'.shadow = some src) :
    Rooted slots (Function.update V k (some v')) := by
  refine ⟨hV.dom_update hk, fun x w hw => ?_⟩
  rcases update_eq_some.mp hw with ⟨rfl, -⟩ | ⟨hx, hw⟩
  · obtain ⟨z, w, hz⟩ := hV.rooted src u hsrc
    exact ⟨z, w, .there (update_self ..) hs (hz.fresh hno hne).2⟩
  · obtain ⟨z, w, hz⟩ := hV.rooted x w hw
    exact ⟨z, w, (hz.fresh hno hx).2⟩

end

/-! ### Values -/

/-- The other slots have the same values in two states of the machine. -/
def Same (V : Table) (k : Nat) (m m' : Machine) : Prop :=
  ∀ z w, z ≠ k → V z = some w → w.shadow = none → w.word m' = w.word m

/-- Only registers and stack slots in use matter. -/
theorem same_of_eq (hreg : ∀ z w r, z ≠ k → V z = some w → w.shadow = none → w.reg = some r →
      m'.regs r = m.regs r)
    (hstack : ∀ z w slot, z ≠ k → V z = some w → w.spill = some slot →
      m'.stack slot = m.stack slot) : Same V k m m' := by
  intro z w hz hw hs
  cases hr : w.reg with
  | some r => rw [w.word_of_reg hr, w.word_of_reg hr, hreg z w r hz hw hs hr]
  | none =>
    cases hslot : w.spill with
    | some slot =>
      rw [w.word_of_spill hr hslot, w.word_of_spill hr hslot, hstack z w slot hz hw hslot]
    | none => rw [w.word_of_const hr hslot, w.word_of_const hr hslot]

/-- Writing a register that no other slot has. -/
theorem same_set {r : Nat} (x : Word)
    (hfree : ∀ z w, z ≠ k → V z = some w → w.shadow = none → w.reg ≠ some r) :
    Same V k m (m.set r x) := by
  refine same_of_eq (fun z w q hz hw hs hq => ?_) fun _ _ _ _ _ _ => rfl
  refine Machine.set_regs_of_ne m ?_ x
  rintro rfl
  exact hfree z w hz hw hs hq

/-- Writing the stack slot of a variable. -/
theorem same_store (hV : Layout slots V) (x : Word) : Same V k m (m.store (spillSlot k) x) := by
  refine same_of_eq (fun _ _ _ _ _ _ _ => rfl) fun z w slot hz hw hslot => ?_
  refine Machine.store_stack_of_ne m ?_ x
  rw [hV.spill_eq z w slot hw hslot, spillSlot, spillSlot]
  omega

theorem Same.value (h : Same V k m m') {z : Nat} {w : VInfo} (hz : z ≠ k) (hw : V z = some w)
    (hs : w.shadow = none) : w.value m' = w.value m := by
  rw [VInfo.value, h z w hz hw hs, VInfo.value]

/-- An assignment that keeps `shadow` and the value. -/
theorem Describes.update (hV : Rooted slots V) (hv : V k = some v)
    (hs : v'.shadow = v.shadow) (hd : Describes slots V env m)
    (hval : v.shadow = none → v'.value m' = v.value m)
    (hconst : v.Records (env k) → v'.Records (env k)) (hsame : Same V k m m') :
    Describes slots (Function.update V k (some v')) env m' := by
  rw [hV.describes_iff] at hd
  rw [(hV.update hv hs).describes_iff]
  obtain ⟨hroots, hconsts⟩ := hd
  constructor
  · intro x z w' hroot
    have hold := hroot.of_update hv hs
    rcases update_eq_some.mp hroot.entry.1 with ⟨rfl, rfl⟩ | ⟨hz, -⟩
    · rw [if_pos rfl] at hold
      rw [hval hold.entry.2]
      exact hroots x z v hold
    · rw [if_neg hz] at hold
      rw [hsame.value hz hold.entry.1 hold.entry.2]
      exact hroots x z w' hold
  · intro x u hu
    rcases update_eq_some.mp hu with ⟨rfl, rfl⟩ | ⟨-, hu⟩
    · exact hconst (hconsts x v hv)
    · exact hconsts x u hu

/-- A slot that is loaded into a register, or is where it was. -/
theorem Describes.cut (hV : Rooted slots V) (hv : V k = some v) (hs : v'.shadow = none)
    (hd : Describes slots V env m) (hval : v'.value m' = env k)
    (hconst : v.Records (env k) → v'.Records (env k)) (hsame : Same V k m m') :
    Describes slots (Function.update V k (some v')) env m' := by
  rw [hV.describes_iff] at hd
  rw [(hV.cut (hV.dom k v hv) hs).describes_iff]
  obtain ⟨hroots, hconsts⟩ := hd
  constructor
  · intro x z w' hroot
    rcases hroot.of_cut hs with ⟨rfl, rfl, hlead⟩ | ⟨hz, hold⟩
    · -- the copies of the slot have its value
      obtain ⟨z₁, w₁, hz₁⟩ := hV.rooted z v hv
      rw [hval, ← hroots z z₁ w₁ hz₁]
      exact hroots x z₁ w₁ (hlead z₁ w₁ hz₁)
    · rw [hsame.value hz hold.entry.1 hold.entry.2]
      exact hroots x z w' hold
  · intro x u hu
    rcases update_eq_some.mp hu with ⟨rfl, rfl⟩ | ⟨-, hu⟩
    · exact hconst (hconsts x v hv)
    · exact hconsts x u hu

/-- A new value, in a slot without copies. -/
theorem Describes.assign (hV : Rooted slots V) (hk : k < slots + 2)
    (hno : ∀ y u, V y = some u → u.shadow ≠ some k) (hs : v'.shadow = none)
    (hd : Describes slots V env m)
    (hconst : v'.Records (v'.value m')) (hsame : Same V k m m') :
    Describes slots (Function.update V k (some v')) (Function.update env k (v'.value m'))
      m' := by
  rw [hV.describes_iff] at hd
  rw [(hV.cut hk hs).describes_iff]
  obtain ⟨hroots, hconsts⟩ := hd
  constructor
  · intro x z w' hroot
    by_cases hx : x = k
    · subst hx
      obtain ⟨rfl, rfl⟩ := hroot.unique (.here (update_self ..) hs)
      rw [update_self]
    · obtain ⟨hz, hold⟩ := hroot.of_fresh hno hx
      rw [update_of_ne hx, hsame.value hz hold.entry.1 hold.entry.2]
      exact hroots x z w' hold
  · intro x u hu
    rcases update_eq_some.mp hu with ⟨rfl, rfl⟩ | ⟨hx, hu⟩
    · rwa [update_self]
    · rw [update_of_ne hx]
      exact hconsts x u hu

/-- A copy, in a slot without copies. -/
theorem Describes.copy (hV : Rooted slots V) (hk : k < slots + 2) {src : Nat}
    {u : VInfo} (hsrc : V src = some u) (hne : src ≠ k)
    (hno : ∀ y u, V y = some u → u.shadow ≠ some k) (hs : v'.shadow = some src)
    (hd : Describes slots V env m) (hconst : v'.const = u.const) :
    Describes slots (Function.update V k (some v')) (Function.update env k (env src))
      m := by
  rw [hV.describes_iff] at hd
  rw [(hV.copy hk hsrc hne hno hs).describes_iff]
  obtain ⟨hroots, hconsts⟩ := hd
  constructor
  · intro x z w' hroot
    by_cases hx : x = k
    · subst hx
      -- where the copy leads to is where its source does
      obtain ⟨z₁, w₁, hz₁⟩ := hV.rooted src u hsrc
      obtain ⟨rfl, rfl⟩ := hroot.unique
        (.there (update_self ..) hs (hz₁.fresh hno hne).2)
      rw [update_self]
      exact hroots src z w' hz₁
    · rw [update_of_ne hx]
      exact hroots x z w' (hroot.of_fresh hno hx).2
  · intro x w hw
    rcases update_eq_some.mp hw with ⟨rfl, rfl⟩ | ⟨hx, hw⟩
    · rw [update_self, VInfo.Records, hconst]
      exact hconsts src u hsrc
    · rw [update_of_ne hx]
      exact hconsts x w hw

end Put

end Bcc.Lua
