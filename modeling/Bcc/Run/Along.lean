import Mathlib.Logic.Basic

namespace Run

/-!
# Runs of a system that takes step after step

A system with states `σ` takes steps `α`; a step returns a result and the next state, unless
it goes wrong.

* `Along` — the steps can be taken from a state, and a property holds of each of them, with the
  state before it, its result and the state after it.
-/

variable {σ α ρ ε : Type}

/-- The steps can be taken, and `P` holds of each. -/
def Along (step : σ → α → Except ε (ρ × σ)) (P : σ → α → ρ → σ → Prop) : σ → List α → Prop
  | _, [] => True
  | s, a :: as => ∃ r s', step s a = .ok (r, s') ∧ P s a r s' ∧ Along step P s' as

variable {step : σ → α → Except ε (ρ × σ)} {P C : σ → α → ρ → σ → Prop}

/-- A step that can be taken is the one to look at. -/
theorem along_cons_iff {s s' : σ} {a : α} {r : ρ} {as : List α} (h : step s a = .ok (r, s')) :
    Along step P s (a :: as) ↔ P s a r s' ∧ Along step P s' as := by
  constructor
  · rintro ⟨r₁, s₁, h₁, hP, hrest⟩
    cases h₁.symm.trans h
    exact ⟨hP, hrest⟩
  · rintro ⟨hP, hrest⟩
    exact ⟨r, s', h, hP, hrest⟩

/-- **Invariant rule.**  `P` holds along a run exactly if `C` does, when an invariant makes them
    agree on each step and is kept by the steps of which `C` holds.  The steps need to satisfy a
    side condition `Q` of their own. -/
theorem along_iff {Inv : σ → Prop} {Q : α → Prop}
    (hstep : ∀ s a, Inv s → Q a →
      ∃ r s', step s a = .ok (r, s') ∧ (P s a r s' ↔ C s a r s') ∧ (C s a r s' → Inv s'))
    {s : σ} (hs : Inv s) {as : List α} (hQ : ∀ a ∈ as, Q a) :
    Along step P s as ↔ Along step C s as := by
  induction as generalizing s with
  | nil => exact Iff.rfl
  | cons a as ih =>
    obtain ⟨r, s', hok, hPC, hkeep⟩ := hstep s a hs (hQ a List.mem_cons_self)
    rw [along_cons_iff hok, along_cons_iff hok, hPC]
    refine and_congr_right fun hC => ?_
    exact ih (hkeep hC) fun b hb => hQ b (List.mem_cons_of_mem a hb)

end Run
