import Mathlib.Data.List.Sort

namespace Sorting

/-!
# Sorting that looks at nothing but the keys

A sorting function that compares elements by a key does the same to two lists whose keys are
the same.  `KeySort` is such a function, whatever it makes of equal keys: the order is
determined by the keys alone, which is what `natural` says.

* `KeySort.map_sort` — sorting commutes with a change of the elements that keeps the keys;
* `KeySort.mergeSort` — merge sort is one.
-/

variable (κ : Type) [LinearOrder κ]

/-- A sort by keys in `κ`. -/
structure KeySort where
  sort : {α : Type} → (α → κ) → List α → List α
  perm : ∀ {α : Type} (key : α → κ) (l : List α), (sort key l).Perm l
  sorted : ∀ {α : Type} (key : α → κ) (l : List α),
    (sort key l).Pairwise (fun a b => key a ≤ key b)
  /-- Elements are told apart by their keys only. -/
  natural : ∀ {α β : Type} (key : β → κ) (f : α → β) (l : List α),
    (sort (fun a => key (f a)) l).map f = sort key (l.map f)

variable {κ}

/-- Sorting commutes with a change of the elements that keeps the keys. -/
theorem KeySort.map_sort (S : KeySort κ) {α β : Type} {keyA : α → κ} {keyB : β → κ} {f : α → β}
    (h : ∀ a, keyB (f a) = keyA a) (l : List α) :
    (S.sort keyA l).map f = S.sort keyB (l.map f) := by
  have hkey : keyA = fun a => keyB (f a) := funext fun a => (h a).symm
  rw [hkey]
  exact S.natural keyB f l

/-- One element is sorted. -/
theorem KeySort.sort_singleton (S : KeySort κ) {α : Type} (key : α → κ) (a : α) :
    S.sort key [a] = [a] :=
  List.perm_singleton.mp (S.perm key [a])

/-- Merge sort. -/
def KeySort.mergeSort : KeySort κ where
  sort key l := l.mergeSort (fun a b => decide (key a ≤ key b))
  perm _ l := List.mergeSort_perm l _
  sorted key l := by
    have h : (l.mergeSort (fun a b => decide (key a ≤ key b))).Pairwise
        (fun a b => decide (key a ≤ key b) = true) := by
      apply List.pairwise_mergeSort
      · intro a b c hab hbc
        simp only [decide_eq_true_eq] at hab hbc ⊢
        exact hab.trans hbc
      · intro a b
        simpa using le_total (key a) (key b)
    exact h.imp of_decide_eq_true
  natural _ _ _ := List.map_mergeSort (fun _ _ _ _ => rfl)

end Sorting
