import Bcc.Lua.Layout

namespace Bcc.Lua

open Bpf CText Function List

/-!
# The Lua compiler — what `reg_alloc` does

* `regAlloc_spec` — `reg_alloc` moves values from registers to the stack and changes none of them.
-/

variable {slots : Nat} {o : Order slots}

/-! ### Moving values -/

/-- The code between two states of the compiler keeps the values of all slots, and writes no
    register but `r`. -/
structure Moves (slots : Nat) (r : Option Nat) (s s' : Emitter) : Prop where
  layout : Layout slots s'.V
  code : ∃ c, s'.code = s.code ++ c ∧ ∀ w m env, Describes slots s.V env m →
    Describes slots s'.V env (exec w m c)
      ∧ (∀ q, some q ≠ r → (exec w m c).regs q = m.regs q) ∧ (exec w m c).calls = m.calls

namespace Moves

variable {r : Option Nat} {s s₁ s' : Emitter}

theorem refl (h : Layout slots s.V) : Moves slots r s s :=
  ⟨h, [], by simp, fun _ _ _ hd => ⟨hd, fun _ _ => rfl, rfl⟩⟩

theorem trans {q : Option Nat} (h : Moves slots q s s₁) (h' : Moves slots r s₁ s')
    (hq : q = none ∨ q = r) : Moves slots r s s' := by
  obtain ⟨c, hc, hrun⟩ := h.code
  obtain ⟨c', hc', hrun'⟩ := h'.code
  refine ⟨h'.layout, c ++ c', by rw [hc', hc, append_assoc], fun w m env hd => ?_⟩
  obtain ⟨hd₁, hregs, hcalls⟩ := hrun w m env hd
  obtain ⟨hd₂, hregs', hcalls'⟩ := hrun' w _ env hd₁
  rw [exec_append]
  refine ⟨hd₂, fun p hp => ?_, hcalls'.trans hcalls⟩
  refine (hregs' p hp).trans (hregs p ?_)
  rcases hq with rfl | rfl
  · simp
  · exact hp

end Moves

/-- A slot goes to the stack. -/
theorem moves_spill {s : Emitter} (hV : Layout slots s.V) {k r : Nat} {v : VInfo}
    (hv : s.V k = some v) (hr : v.reg = some r) :
    Moves slots none s
      ⟨update s.V k (some { v with spill := some (spillSlot k), reg := none }),
        s.code ++ [.stx (spillSlot k) r]⟩ := by
  have ha : Admits s.V k { v with spill := some (spillSlot k), reg := none } :=
    ⟨fun _ _ _ _ h => by simp at h, fun _ h => (Option.some.inj h).symm, fun _ h => by simp at h⟩
  refine ⟨hV.put ha (hV.update hv rfl), _, rfl, fun w m env hd => ⟨?_, fun _ _ => rfl, rfl⟩⟩
  refine hd.update hV.toRooted hv rfl (fun _ => ?_) id (same_store hV _)
  rw [VInfo.value, VInfo.value, v.word_of_reg hr, VInfo.word_of_spill rfl rfl]
  simp [exec1]

/-- An assignment to fields that have nothing to do with values. -/
theorem moves_touch {s : Emitter} (hV : Layout slots s.V) {k : Nat} {v : VInfo}
    (hv : s.V k = some v) (v' : VInfo) (hs : v'.shadow = v.shadow) (hr : v'.reg = v.reg)
    (hslot : v'.spill = v.spill) (hc : v'.const = v.const) :
    Moves slots none s { s with V := update s.V k (some v') } := by
  have ha : Admits s.V k v' :=
    ⟨fun y w r h₁ h₂ hw hws hwr => (hV.unique k y v w r hv (hs ▸ h₁) (hr ▸ h₂) hw hws hwr).symm,
      fun slot h => hV.spill_eq k v slot hv (hslot ▸ h), fun r h => hV.reg_or k v r hv (hr ▸ h)⟩
  refine ⟨hV.put ha (hV.update hv hs), [], by simp, fun w m env hd => ⟨?_, fun _ _ => rfl, rfl⟩⟩
  refine hd.update hV.toRooted hv hs (fun _ => ?_) (fun h => ?_) fun _ _ _ _ _ => rfl
  · unfold VInfo.value VInfo.word
    rw [hr, hslot, hc]
    rfl
  · rwa [VInfo.Records, hc]

/-! ### The scan for a register -/

section Scan

variable {V : Table}

theorem Order.mem_visit (hV : Layout slots V) {x : Nat} {v : VInfo} (hv : V x = some v) :
    x ∈ o.visit V :=
  (o.perm V).mem_iff.mpr (mem_range.mpr (hV.dom x v hv))

theorem named_iff (hV : Layout slots V) {r : Nat} :
    named o V r = true ↔ ∃ x v, V x = some v ∧ v.reg = some r := by
  unfold named
  rw [any_eq_true]
  constructor
  · rintro ⟨x, -, hx⟩
    cases hv : V x with
    | none => simp [hv] at hx
    | some v => exact ⟨x, v, hv, by simpa [hv] using hx⟩
  · rintro ⟨x, v, hv, hr⟩
    exact ⟨x, Order.mem_visit hV hv, by simp [hv, hr]⟩

theorem occupant_eq_some {r k : Nat} (h : occupant o V r = some k) :
    ∃ v, V k = some v ∧ v.shadow = none ∧ v.reg = some r := by
  have := find?_some h
  cases hv : V k with
  | none => simp [hv] at this
  | some v =>
    simp only [hv, Option.any_some, Bool.and_eq_true, beq_iff_eq, Option.isNone_iff_eq_none] at this
    exact ⟨v, rfl, this.2, this.1⟩

theorem occupant_eq_none (hV : Layout slots V) {r : Nat} (h : occupant o V r = none) :
    ∀ x v, V x = some v → v.shadow = none → v.reg ≠ some r := by
  intro x v hv hs hr
  have := find?_eq_none.mp h x (Order.mem_visit hV hv)
  simp [hv, hs, hr] at this

/-- What the scan for the least recently used register has found, among the variables it has
    visited. -/
structure Found (V : Table) (visited : List Nat) (acc : Option Nat × Nat) : Prop where
  has_reg : ∀ k ∈ acc.1, ∃ v, V k = some v ∧ v.reg.isSome = true
  seen_le : ∀ y ∈ visited, ∀ w u, V y = some w → w.reg.isSome = true → w.liveTo = some u →
    acc.2 ≤ u
  last_le : ∀ k ∈ acc.1, ∀ v t, V k = some v → v.liveTo = some t → t = acc.2

theorem Found.older {visited : List Nat} {acc : Option Nat × Nat} (h : Found V visited acc)
    (k : Nat) : Found V (k :: visited) (Lua.older V acc k) := by
  -- the cases of the loop body: only a variable with a register counts
  have hskip : (∀ w u, V k = some w → w.reg.isSome = true → w.liveTo = some u → acc.2 ≤ u) →
      Found V (k :: visited) acc := by
    refine fun hk => ⟨h.has_reg, fun y hy => ?_, h.last_le⟩
    rcases mem_cons.mp hy with rfl | hy
    · exact hk
    · exact h.seen_le y hy
  have htake : ∀ v b, V k = some v → v.reg.isSome = true → b ≤ acc.2 →
      (∀ u, v.liveTo = some u → u = b) → Found V (k :: visited) (some k, b) := by
    intro v b hv hr hb hlive
    refine ⟨?_, fun y hy w u hw hwr hwu => ?_, ?_⟩
    · rintro _ ⟨⟩
      exact ⟨v, hv, hr⟩
    · rcases mem_cons.mp hy with rfl | hy
      · cases hv.symm.trans hw
        exact (hlive u hwu).ge
      · exact hb.trans (h.seen_le y hy w u hw hwr hwu)
    · rintro _ ⟨⟩ w u hw hwu
      cases hv.symm.trans hw
      exact hlive u hwu
  unfold Lua.older
  cases hv : V k with
  | none => exact hskip (by simp [hv])
  | some v =>
    by_cases hr : v.reg.isSome = true
    · simp only [hr]
      cases ht : v.liveTo with
      | none => exact htake v acc.2 hv hr le_rfl (by simp [ht])
      | some t =>
        by_cases hlt : t < acc.2
        · simp only [if_pos hlt]
          exact htake v t hv hr hlt.le fun u hu => (Option.some.inj (ht.symm.trans hu)).symm
        · simp only [if_neg hlt]
          refine hskip fun w u hw _ hwu => ?_
          cases hv.symm.trans hw
          cases ht.symm.trans hwu
          exact not_lt.mp hlt
    · simp only [hr]
      refine hskip fun w u hw hwr _ => ?_
      cases hv.symm.trans hw
      exact absurd hwr hr

theorem found_foldl (l visited : List Nat) (acc : Option Nat × Nat) (h : Found V visited acc) :
    Found V (l.reverse ++ visited) (l.foldl (older V) acc) := by
  induction l generalizing visited acc with
  | nil => exact h
  | cons k l ih =>
    rw [reverse_cons, append_assoc]
    exact ih (k :: visited) _ (h.older k)

theorem found_leastRecent : Found V (o.visit V).reverse
    ((o.visit V).foldl (older V) (none, 0xffff)) := by
  have h := found_foldl (V := V) (o.visit V) [] (none, 0xffff)
    ⟨by simp, by simp, by simp⟩
  rwa [append_nil] at h

/-- The variable that has to give its register away has one. -/
theorem leastRecent_reg {k : Nat} (h : leastRecent o V = some k) :
    ∃ v, V k = some v ∧ v.reg.isSome = true :=
  found_leastRecent.has_reg k h

/-- **No other variable with a register was used less recently.** -/
theorem leastRecent_le (hV : Layout slots V) {k y t u : Nat} {v w : VInfo}
    (h : leastRecent o V = some k) (hv : V k = some v) (ht : v.liveTo = some t)
    (hw : V y = some w) (hwr : w.reg.isSome = true) (hu : w.liveTo = some u) : t ≤ u := by
  rw [found_leastRecent.last_le k h v t hv ht]
  exact found_leastRecent.seen_le y (mem_reverse.mpr (Order.mem_visit hV hw)) w u hw hwr hu

end Scan

/-! ### `reg_alloc` -/

/-- A register is made available: no slot has it afterwards, and only its owner was moved. -/
structure Gives (slots : Nat) (r : Nat) (s s' : Emitter) : Prop where
  moves : Moves slots none s s'
  free : ∀ x v, s'.V x = some v → v.shadow = none → v.reg ≠ some r
  entry : ∀ x, s'.V x = s.V x ∨ ∃ v, s.V x = some v ∧ v.shadow = none ∧ v.reg = some r
    ∧ s'.V x = some { v with spill := some (spillSlot x), reg := none }

section RegAlloc

/-- `R7` to `R9`, as far as no variable has them. -/
def spare (o : Order slots) (V : Table) : List Nat :=
  [7, 8, 9].filter fun r => !named o V r

/-- No register is left, and this is the variable that has to give its register away. -/
def Victim (o : Order slots) (V : Table) (k : Nat) : Prop :=
  spare o V = [] ∧ leastRecent o V = some k

/-- Where a register comes from: it is one of `R7` to `R9`, or a slot has it. -/
def Source (V : Table) (r : Nat) : Prop :=
  7 ≤ r ∧ r ≤ 9 ∨ ∃ k v, V k = some v ∧ v.shadow = none ∧ v.reg = some r

variable {s s' : Emitter} {r : Nat} (hV : Layout slots s.V)
include hV

theorem gives_free (hfree : ∀ x v, s.V x = some v → v.shadow = none → v.reg ≠ some r) :
    Gives slots r s s :=
  ⟨.refl hV, hfree, fun _ => .inl rfl⟩

theorem gives_spill {k : Nat} {v : VInfo} (hv : s.V k = some v) (hs : v.shadow = none)
    (hr : v.reg = some r) :
    ∃ s', regSpill s k = .ok s' ∧ Gives slots r s s' ∧ ∀ x ≠ k, s'.V x = s.V x := by
  have hspill : regSpill s k = .ok
      ⟨update s.V k (some { v with spill := some (spillSlot k), reg := none }),
        s.code ++ [.stx (spillSlot k) r]⟩ := by
    simp [regSpill, hv, hr]
  refine ⟨_, hspill, ⟨moves_spill hV hv hr, fun x w hw hws hwr => ?_, fun x => ?_⟩,
    fun x hx => update_of_ne hx ..⟩
  · rcases update_eq_some.mp hw with ⟨-, rfl⟩ | ⟨hx, hw⟩
    · simp at hwr
    · exact hx (hV.unique x k w v r hw hws hwr hv hs hr)
  · by_cases hx : x = k
    · subst hx
      exact .inr ⟨v, hv, hs, hr, update_self ..⟩
    · exact .inl (update_of_ne hx ..)

/-- **A register that is asked for.** -/
theorem regAlloc_some : ∃ s', regAlloc o s (some r) = .ok (r, s') ∧ Gives slots r s s' := by
  rw [regAlloc]
  cases hocc : occupant o s.V r with
  | none => exact ⟨s, rfl, gives_free hV (occupant_eq_none hV hocc)⟩
  | some k =>
    obtain ⟨v, hv, hs, hr⟩ := occupant_eq_some hocc
    obtain ⟨s', hspill, hgives, -⟩ := gives_spill hV hv hs hr
    exact ⟨s', by simp only [hspill]; rfl, hgives⟩

/-- **Any register.** -/
theorem regAlloc_none
    (hvictim : ∀ k, Victim o s.V k → ∀ v, s.V k = some v → v.shadow = none) :
    regAlloc o s none = .error .assertion ∨ ∃ r s', regAlloc o s none = .ok (r, s')
      ∧ Gives slots r s s' ∧ (r = 0 ∨ 6 ≤ r ∧ r ≤ 9) ∧ Source s.V r
      ∧ ∀ x, ¬ Victim o s.V x → s'.V x = s.V x := by
  have hfree : ∀ q, 7 ≤ q ∧ q ≤ 9 → ¬ named o s.V q = true → Gives slots q s s
      ∧ (q = 0 ∨ 6 ≤ q ∧ q ≤ 9) ∧ Source s.V q ∧ ∀ x, ¬ Victim o s.V x → s.V x = s.V x := by
    intro q hq hnot
    refine ⟨gives_free hV fun x v hv _ hr => hnot ?_, by omega, .inl hq, fun _ _ => rfl⟩
    exact (named_iff hV).mpr ⟨x, v, hv, hr⟩
  rw [regAlloc]
  by_cases h7 : named o s.V 7 = true
  · by_cases h8 : named o s.V 8 = true
    · by_cases h9 : named o s.V 9 = true
      · have hspare : spare o s.V = [] := by simp [spare, h7, h8, h9]
        simp only [h7, h8, h9, Bool.not_true]
        cases hlast : leastRecent o s.V with
        | none => exact .inl rfl
        | some k =>
          obtain ⟨v, hv, hreg⟩ := leastRecent_reg hlast
          obtain ⟨r, hr⟩ := Option.isSome_iff_exists.mp hreg
          have hs := hvictim k ⟨hspare, hlast⟩ v hv
          obtain ⟨s', hspill, hgives, hothers⟩ := gives_spill hV hv hs hr
          refine .inr ⟨r, s', ?_, hgives, hV.reg_or k v r hv hr, .inr ⟨k, v, hv, hs, hr⟩,
            fun x hx => hothers x ?_⟩
          · simp only [hv, Option.bind_some, hr, hspill]
            rfl
          · rintro rfl
            exact hx ⟨hspare, hlast⟩
      · simp only [h7, h8, h9]
        exact .inr ⟨9, s, rfl, hfree 9 (by decide) h9⟩
    · simp only [h7, h8]
      exact .inr ⟨8, s, rfl, hfree 8 (by decide) h8⟩
  · simp only [h7]
    exact .inr ⟨7, s, rfl, hfree 7 (by decide) h7⟩

/-- **`reg_alloc`**, with or without a register that is asked for. -/
theorem regAlloc_spec {reg : Option Nat}
    (hreg : ∀ r ∈ reg, r = 0 ∨ 6 ≤ r ∧ r ≤ 9)
    (hvictim : reg = none → ∀ k, Victim o s.V k → ∀ v, s.V k = some v → v.shadow = none) :
    regAlloc o s reg = .error .assertion ∨ ∃ r s', regAlloc o s reg = .ok (r, s')
      ∧ Gives slots r s s' ∧ (r = 0 ∨ 6 ≤ r ∧ r ≤ 9) ∧ (∀ q ∈ reg, r = q)
      ∧ (reg = none → Source s.V r)
      ∧ ∀ y, ¬ (reg = none → Victim o s.V y) → s'.V y = s.V y := by
  cases reg with
  | some r =>
    obtain ⟨s', hs', hgives⟩ := regAlloc_some hV
    refine .inr ⟨r, s', hs', hgives, hreg r rfl, fun q hq => Option.some.inj hq,
      fun h => by simp at h, fun y hy => ?_⟩
    exact absurd (fun h => by simp at h) hy
  | none =>
    rcases regAlloc_none hV (hvictim rfl) with h | ⟨r, s', hs', hgives, hr, hsource, hrest⟩
    · exact .inl h
    · exact .inr ⟨r, s', hs', hgives, hr, by simp, fun _ => hsource,
        fun y hy => hrest y fun h => hy fun _ => h⟩

end RegAlloc

end Bcc.Lua
