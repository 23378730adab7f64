import Mathlib.Data.List.Forall2

namespace CText

open List

/-!
# C text — computations that may fail

A C or C++ function can end in three ways that matter here: it returns its result, it tells
its caller that it failed, or it does something the language leaves undefined.  A `Fault` is
of the last kind, and `Res` the computations that may run into one; a function that reports
failure returns an option inside `Res`.

* `collect f l` — `f` on the elements of `l` in turn, until one fails;
* `collect_eq_some_iff`, `exists_of_collect_error` — what the loop returns, and whose fault it
  passes on.
-/

/-- What a C or C++ program can do that the language leaves undefined. -/
inductive Fault where
  /-- An index past the end of the object it reads. -/
  | outOfBounds
  /-- `v[i]` or `v.front()` past the end of a `std::vector`. -/
  | vectorIndex
  /-- `*opt` or `opt->…` on an empty optional. -/
  | absentValue
  /-- An `assert` that does not hold. -/
  | assertion
  /-- The evaluation did not finish within its fuel. -/
  | outOfFuel
  deriving DecidableEq, Repr

/-- A computation that may run into undefined behaviour. -/
abbrev Res (α : Type) := Except Fault α

variable {α β : Type}

/-- Sequencing after a computation that returned. -/
@[simp] theorem ok_bind (a : α) (f : α → Res β) : (Except.ok a >>= f) = f a := rfl

/-- Sequencing after a fault. -/
@[simp] theorem error_bind (e : Fault) (f : α → Res β) :
    ((Except.error e : Res α) >>= f) = .error e := rfl

@[simp] theorem pure_eq_ok (a : α) : (pure a : Res α) = .ok a := rfl

/-- A sequence returns when both parts do. -/
theorem bind_eq_ok_iff {x : Res α} {f : α → Res β} {b : β} :
    (x >>= f) = .ok b ↔ ∃ a, x = .ok a ∧ f a = .ok b := by
  cases x <;> simp

/-- A sequence faults in one of its parts. -/
theorem bind_eq_error_iff {x : Res α} {f : α → Res β} {e : Fault} :
    (x >>= f) = .error e ↔ x = .error e ∨ ∃ a, x = .ok a ∧ f a = .error e := by
  cases x <;> simp

/-- The computation returns a result of which `P` holds. -/
abbrev Returns (x : Res α) (P : α → Prop) : Prop := ∃ a, x = .ok a ∧ P a

/-- A failure that is reported. -/
theorem returns_none {P : α → Prop} : Returns (.ok none) fun r => ∀ a, r = some a → P a :=
  ⟨none, rfl, fun _ h => nomatch h⟩

/-- If the computation returns, `P` holds of the result. -/
abbrev Ensures (x : Res α) (P : α → Prop) : Prop := ∀ a, x = .ok a → P a

section Ensures

variable {x : Res α} {f : α → Res β} {P : α → Prop} {Q : β → Prop}

theorem ensures_ok {a : α} (h : P a) : Ensures (.ok a) P := fun _ heq => Except.ok.inj heq ▸ h

theorem Ensures.bind (hx : Ensures x P) (hf : ∀ a, P a → Ensures (f a) Q) :
    Ensures (x >>= f) Q := by
  cases x with
  | error e => exact nofun
  | ok a => exact hf a (hx a rfl)

theorem ensures_bind (hf : ∀ a, Ensures (f a) Q) : Ensures (x >>= f) Q :=
  Ensures.bind (fun _ _ => trivial) fun a (_ : True) => hf a

end Ensures

/-- A function of the result of a computation that may report failure. -/
def mapSome {α β : Type} (f : α → β) (x : Res (Option α)) : Res (Option β) := do
  return (← x).map f

theorem mapSome_eq_some_iff {f : α → β} {x : Res (Option α)} {b : β} :
    mapSome f x = .ok (some b) ↔ ∃ a, x = .ok (some a) ∧ f a = b := by
  unfold mapSome
  cases x with
  | error e => simp
  | ok o => cases o <;> simp

theorem mapSome_eq_error_iff {f : α → β} {x : Res (Option α)} {e : Fault} :
    mapSome f x = .error e ↔ x = .error e := by
  unfold mapSome
  cases x <;> simp

/-- The value of an optional that the code dereferences without looking. -/
def deref {α : Type} : Option α → Res α
  | some x => .ok x
  | none => .error .absentValue

theorem deref_eq_error_iff {o : Option α} {e : Fault} :
    deref o = .error e ↔ e = .absentValue ∧ o = none := by
  cases o <;> simp [deref, eq_comm]

/-- `v[i]` of a `std::vector`. -/
def element {α : Type} (v : List α) (i : Nat) : Res α :=
  match v[i]? with
  | some x => .ok x
  | none => .error .vectorIndex

theorem element_eq_ok_iff {v : List α} {i : Nat} {x : α} :
    element v i = .ok x ↔ v[i]? = some x := by
  unfold element
  cases v[i]? <;> simp

theorem element_eq_error_iff {v : List α} {i : Nat} {e : Fault} :
    element v i = .error e ↔ e = .vectorIndex ∧ v.length ≤ i := by
  rw [← List.getElem?_eq_none_iff, element]
  cases v[i]? <;> simp [eq_comm]

/-! ### Loops that stop at the first failure -/

section Collect

variable {α β : Type} (f : α → Res (Option β))

/-- The results of `f` on the elements of a list; `none` as soon as `f` fails on one. -/
def collect : List α → Res (Option (List β))
  | [] => .ok (some [])
  | a :: l => do
    match ← f a with
    | none => return none
    | some b =>
      match ← collect l with
      | none => return none
      | some bs => return some (b :: bs)

variable {f}

variable {l : List α}

/-- The loop gets past an element exactly when `f` succeeds on it. -/
theorem collect_cons_eq_some_iff {a : α} {bs : List β} :
    collect f (a :: l) = .ok (some bs)
      ↔ ∃ b bs', f a = .ok (some b) ∧ collect f l = .ok (some bs') ∧ bs = b :: bs' := by
  rw [collect]
  cases hfa : f a with
  | error e => simp
  | ok o =>
    cases o with
    | none => simp
    | some b =>
      cases hl : collect f l with
      | error e => simp
      | ok o => cases o <;> simp [eq_comm]

/-- The loop returns a list exactly when `f` succeeds everywhere. -/
theorem collect_eq_some_iff {bs : List β} :
    collect f l = .ok (some bs) ↔ List.Forall₂ (fun a b => f a = .ok (some b)) l bs := by
  induction l generalizing bs with
  | nil => simp [collect]
  | cons a l ih =>
    rw [collect_cons_eq_some_iff, forall₂_cons_left_iff]
    simp [ih]

/-- Each element of the first list has its counterpart in the second. -/
theorem exists_of_forall₂ {R : α → β → Prop} {bs : List β} (h : List.Forall₂ R l bs) {a : α}
    (ha : a ∈ l) : ∃ b ∈ bs, R a b := by
  induction h with
  | nil => exact absurd ha not_mem_nil
  | cons hab _ ih =>
    rcases mem_cons.mp ha with rfl | ha
    · exact ⟨_, mem_cons_self, hab⟩
    · obtain ⟨b, hb, hR⟩ := ih ha
      exact ⟨b, mem_cons_of_mem _ hb, hR⟩

/-- Two relations between the elements of the same lists. -/
theorem forall₂_and {R R' : α → β → Prop} {bs : List β} (h : List.Forall₂ R l bs)
    (h' : List.Forall₂ R' l bs) : List.Forall₂ (fun a b => R a b ∧ R' a b) l bs := by
  induction h with
  | nil => exact List.Forall₂.nil
  | cons hab _ ih =>
    obtain ⟨hab', hrest'⟩ := forall₂_cons.mp h'
    exact List.Forall₂.cons ⟨hab, hab'⟩ (ih hrest')

/-- A fault of the loop is the fault of one of its calls. -/
theorem exists_of_collect_error {e : Fault} (h : collect f l = .error e) :
    ∃ a ∈ l, f a = .error e := by
  induction l with
  | nil => simp [collect] at h
  | cons a l ih =>
    cases hfa : f a with
    | error e' =>
      rw [collect, hfa, error_bind] at h
      cases h
      exact ⟨a, mem_cons_self, hfa⟩
    | ok o =>
      rw [collect, hfa, ok_bind] at h
      cases o with
      | none => simp at h
      | some b =>
        cases hl : collect f l with
        | error e' =>
          rw [hl] at h
          cases h
          obtain ⟨x, hx, hfx⟩ := ih hl
          exact ⟨x, mem_cons_of_mem a hx, hfx⟩
        | ok o =>
          rw [hl] at h
          cases o <;> simp at h

end Collect

end CText
