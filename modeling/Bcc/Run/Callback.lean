import Mathlib.Data.List.Basic

namespace Callback

open List

/-!
# Callbacks — iterations that can be stopped

A callback gets a payload and an element, and returns a number.

* `stopsAtOnce_every_iff` — whether a negative one stops the iteration.
-/

variable {σ α : Type}

/-- What is left of an iteration: the payload, what the callback has returned, and whether the
    iteration was stopped. -/
structure Calls (σ : Type) where
  payload : σ
  returned : List Int
  stopped : Bool

/-- The iteration stops when the callback returns a negative number. -/
def each (cb : σ → α → σ × Int) : σ → List α → Calls σ
  | s, [] => ⟨s, [], false⟩
  | s, x :: xs =>
    let r := cb s x
    if r.2 < 0 then ⟨r.1, [r.2], true⟩
    else
      let rest := each cb r.1 xs
      ⟨rest.payload, r.2 :: rest.returned, rest.stopped⟩

/-- The iteration goes on whatever is returned. -/
def every (cb : σ → α → σ × Int) : σ → List α → Calls σ
  | s, [] => ⟨s, [], false⟩
  | s, x :: xs =>
    let r := cb s x
    let rest := every cb r.1 xs
    ⟨rest.payload, r.2 :: rest.returned, false⟩

/-- The payload after some calls. -/
def after (cb : σ → α → σ × Int) (s : σ) (l : List α) : σ := l.foldl (fun s x => (cb s x).1) s

/-- The callback does not ask to stop at any of the elements. -/
def Continues (cb : σ → α → σ × Int) (s : σ) (l : List α) : Prop :=
  ∀ pre x post, l = pre ++ x :: post → 0 ≤ (cb (after cb s pre) x).2

/-- Nothing was returned behind a negative number. -/
def StopsAtOnce (vs : List Int) : Prop :=
  ∀ pre v post, vs = pre ++ v :: post → v < 0 → post = []

/-! ### Negative numbers -/

theorem stopsAtOnce_cons_iff {v : Int} {vs : List Int} :
    StopsAtOnce (v :: vs) ↔ (v < 0 → vs = []) ∧ StopsAtOnce vs := by
  constructor
  · intro h
    refine ⟨fun hv => h [] v vs rfl hv, fun pre w post hvs hw => ?_⟩
    exact h (v :: pre) w post (by rw [hvs, cons_append]) hw
  · rintro ⟨hfirst, hrest⟩ pre w post hvs hw
    cases pre with
    | nil =>
      cases hvs
      exact hfirst hw
    | cons u pre => exact hrest pre w post (List.cons.inj hvs).2 hw

theorem stopsAtOnce_nil : StopsAtOnce [] :=
  fun pre v post h _ => absurd h (by simp)

section Iteration

variable {cb : σ → α → σ × Int}

theorem continues_nil (s : σ) : Continues cb s [] := fun pre x post h => absurd h (by simp)

variable {s : σ}

theorem continues_cons_iff {x : α} {xs : List α} :
    Continues cb s (x :: xs) ↔ 0 ≤ (cb s x).2 ∧ Continues cb (cb s x).1 xs := by
  constructor
  · intro h
    refine ⟨h [] x xs rfl, fun pre y post hxs => ?_⟩
    exact h (x :: pre) y post (by rw [hxs, cons_append])
  · rintro ⟨hfirst, hrest⟩ pre y post hxs
    cases pre with
    | nil =>
      cases hxs
      exact hfirst
    | cons z pre =>
      obtain ⟨rfl, htail⟩ := List.cons.inj hxs
      exact hrest pre y post htail

theorem each_cons_of_neg {x : α} (h : (cb s x).2 < 0) (xs : List α) :
    each cb s (x :: xs) = ⟨(cb s x).1, [(cb s x).2], true⟩ := if_pos h

theorem each_cons_of_nonneg {x : α} (h : 0 ≤ (cb s x).2) (xs : List α) :
    each cb s (x :: xs) = ⟨(each cb (cb s x).1 xs).payload,
      (cb s x).2 :: (each cb (cb s x).1 xs).returned, (each cb (cb s x).1 xs).stopped⟩ :=
  if_neg (Int.not_lt.mpr h)

theorem returned_eq_nil_iff {l : List α} : (each cb s l).returned = [] ↔ l = [] := by
  cases l with
  | nil => exact iff_of_true rfl rfl
  | cons x xs =>
    refine iff_of_false ?_ (cons_ne_nil x xs)
    by_cases hx : (cb s x).2 < 0
    · rw [each_cons_of_neg hx]
      exact cons_ne_nil _ _
    · rw [each_cons_of_nonneg (Int.not_lt.mp hx)]
      exact cons_ne_nil _ _

/-- An iteration behind another one that does not start if the other was stopped. -/
theorem each_append (s : σ) (l r : List α) :
    each cb s (l ++ r) =
      if (each cb s l).stopped then each cb s l
      else ⟨(each cb (each cb s l).payload r).payload,
        (each cb s l).returned ++ (each cb (each cb s l).payload r).returned,
        (each cb (each cb s l).payload r).stopped⟩ := by
  induction l generalizing s with
  | nil => rfl
  | cons x xs ih =>
    by_cases hx : (cb s x).2 < 0
    · rw [cons_append, each_cons_of_neg hx, each_cons_of_neg hx]
      rfl
    · rw [cons_append, each_cons_of_nonneg (Int.not_lt.mp hx),
        each_cons_of_nonneg (Int.not_lt.mp hx), ih]
      split_ifs <;> rfl

/-- Something that is returned behind an iteration. -/
theorem stopsAtOnce_each_append {l : List α} {vs : List Int} :
    StopsAtOnce ((each cb s l).returned ++ vs)
      ↔ (Continues cb s l ∨ vs = []) ∧ StopsAtOnce vs := by
  induction l generalizing s with
  | nil =>
    rw [or_iff_left_of_imp fun _ => continues_nil s, and_iff_right (continues_nil s)]
    rfl
  | cons x xs ih =>
    rw [continues_cons_iff]
    by_cases hx : (cb s x).2 < 0
    · rw [each_cons_of_neg hx, singleton_append, stopsAtOnce_cons_iff]
      have hnot : ¬ (0 ≤ (cb s x).2 ∧ Continues cb (cb s x).1 xs) :=
        fun h => absurd h.1 (Int.not_le.mpr hx)
      rw [or_iff_right hnot]
      exact ⟨fun h => ⟨h.1 hx, h.2⟩, fun h => ⟨fun _ => h.1, h.2⟩⟩
    · rw [each_cons_of_nonneg (Int.not_lt.mp hx), cons_append, stopsAtOnce_cons_iff, ih,
        and_iff_right (fun h => absurd h hx), and_iff_right (Int.not_lt.mp hx)]

/-- **An iteration that stops.** -/
theorem stopsAtOnce_each (s : σ) (l : List α) : StopsAtOnce (each cb s l).returned := by
  have h := @stopsAtOnce_each_append _ _ cb s l []
  rw [append_nil] at h
  exact h.mpr ⟨Or.inr rfl, stopsAtOnce_nil⟩

theorem returned_every_eq_nil_iff {l : List α} : (every cb s l).returned = [] ↔ l = [] := by
  cases l with
  | nil => exact iff_of_true rfl rfl
  | cons x xs => exact iff_of_false (cons_ne_nil _ _) (cons_ne_nil x xs)

/-- **An iteration that never stops.** -/
theorem stopsAtOnce_every_iff {l : List α} :
    StopsAtOnce (every cb s l).returned ↔ Continues cb s l.dropLast := by
  induction l generalizing s with
  | nil => exact iff_of_true stopsAtOnce_nil (continues_nil s)
  | cons x xs ih =>
    show StopsAtOnce ((cb s x).2 :: (every cb (cb s x).1 xs).returned) ↔ _
    rw [stopsAtOnce_cons_iff, returned_every_eq_nil_iff, ih]
    cases xs with
    | nil => exact iff_of_true ⟨fun _ => rfl, continues_nil _⟩ (continues_nil s)
    | cons y ys =>
      rw [dropLast_cons_cons, continues_cons_iff]
      refine and_congr_left fun _ => ⟨fun h => Int.not_lt.mp fun hx => ?_, fun h hx => ?_⟩
      · exact cons_ne_nil y ys (h hx)
      · exact absurd h (Int.not_le.mpr hx)

end Iteration

end Callback
