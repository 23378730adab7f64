import Mathlib.Data.List.Perm.Basic

namespace Run

open List

/-!
# Runs — resources that are acquired and released

* `replay` — goes through the trace of what a run has acquired and released: it fails if something
  is released that is not held at that point, and gives what is held at the end;
* `released_iff` — nothing is left.
-/

variable {ρ : Type} [DecidableEq ρ]

/-- What a run does with a resource. -/
inductive Use (ρ : Type) where
  | acquire (r : ρ)
  | release (r : ρ)
  deriving DecidableEq, Repr

/-- What is held at the end of a trace, if `held` is at its start. -/
def replay : List ρ → List (Use ρ) → Option (List ρ)
  | held, [] => some held
  | held, .acquire r :: t => replay (r :: held) t
  | held, .release r :: t => if r ∈ held then replay (held.erase r) t else none

/-- Everything that was acquired was released, exactly once. -/
def Released (t : List (Use ρ)) : Prop := replay [] t = some []

instance (t : List (Use ρ)) : Decidable (Released t) := inferInstanceAs (Decidable (_ = _))

theorem replay_append (held : List ρ) (t t' : List (Use ρ)) :
    replay held (t ++ t') = (replay held t).bind fun held' => replay held' t' := by
  induction t generalizing held with
  | nil => rfl
  | cons u t ih =>
    cases u with
    | acquire r => exact ih _
    | release r =>
      rw [cons_append, replay, replay]
      split
      · exact ih _
      · rfl

/-- What else is held does not matter to a trace that releases only what it acquired. -/
theorem replay_frame {held held' : List ρ} {t : List (Use ρ)} (h : replay held t = some held')
    (frame : List ρ) : replay (held ++ frame) t = some (held' ++ frame) := by
  induction t generalizing held with
  | nil =>
    cases h
    rfl
  | cons u t ih =>
    cases u with
    | acquire r => exact ih h
    | release r =>
      rw [replay] at h ⊢
      split at h
      · rename_i hr
        rw [if_pos (mem_append_left _ hr), erase_append_left _ hr]
        exact ih h
      · cases h

/-! ### What is held at the end -/

/-- At the end of the trace, just these are held. -/
def Holds (t : List (Use ρ)) (held : List ρ) : Prop :=
  ∃ held', replay [] t = some held' ∧ held'.Perm held

namespace Holds

variable {t : List (Use ρ)} {r : ρ} {held : List ρ}

theorem nil : Holds ([] : List (Use ρ)) [] := ⟨[], rfl, .refl _⟩

theorem perm {held' : List ρ} (h : Holds t held) (hp : held.Perm held') : Holds t held' := by
  obtain ⟨l, hl, hperm⟩ := h
  exact ⟨l, hl, hperm.trans hp⟩

/-- A trace that goes on with another one, which starts with nothing. -/
theorem append {t' : List (Use ρ)} {held' : List ρ} (h : Holds t held)
    (h' : replay [] t' = some held') : Holds (t ++ t') (held' ++ held) := by
  obtain ⟨l, hl, hperm⟩ := h
  refine ⟨held' ++ l, ?_, hperm.append_left _⟩
  rw [replay_append, hl]
  exact replay_frame h' l

theorem acquire (h : Holds t held) : Holds (t ++ [.acquire r]) (r :: held) := by
  have hr : replay [] [Use.acquire r] = some [r] := rfl
  exact h.append hr

theorem release (h : Holds t (r :: held)) : Holds (t ++ [.release r]) held := by
  obtain ⟨l, hl, hperm⟩ := h
  have hr : r ∈ l := hperm.mem_iff.mpr mem_cons_self
  refine ⟨l.erase r, ?_, ?_⟩
  · rw [replay_append, hl, Option.bind_some, replay, if_pos hr]
    rfl
  · have := hperm.erase r
    rwa [erase_cons_head] at this

/-- **A trace is released** exactly if nothing is held at its end. -/
theorem released_iff (h : Holds t held) : Released t ↔ held = [] := by
  obtain ⟨l, hl, hperm⟩ := h
  rw [Released, hl, Option.some.injEq]
  constructor
  · rintro rfl
    exact nil_perm.mp hperm
  · rintro rfl
    exact perm_nil.mp hperm

end Holds

end Run
