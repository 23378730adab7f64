import Mathlib.Data.Finset.Card
import Mathlib.Data.Finset.Image
import Mathlib.Data.Finset.Range

namespace Links

/-!
# Links — following them to the end

A partial function `next` links elements of some type.  Following the links from an element may
go on forever; if it ends, it does so in fewer steps than there are elements.

* `Steps` — the number of links from an element to one without;
* `Steps.lt_card` — the bound.
-/

variable {α : Type} {next : α → Option α}

/-- How many links are followed from an element. -/
inductive Steps (next : α → Option α) : α → Nat → Prop
  | stop {x : α} : next x = none → Steps next x 0
  | go {x y : α} {k : Nat} : next x = some y → Steps next y k → Steps next x (k + 1)

theorem Steps.unique {x : α} {k l : Nat} (hk : Steps next x k) (hl : Steps next x l) : k = l := by
  induction hk generalizing l with
  | stop h =>
    cases hl with
    | stop _ => rfl
    | go h' _ => simp [h] at h'
  | go h _ ih =>
    cases hl with
    | stop h' => simp [h] at h'
    | go h' hs =>
      cases h.symm.trans h'
      rw [ih hs]

/-- Each smaller number of links is left at some element of the way. -/
theorem Steps.exists_of_le {S : Finset α} (hS : ∀ x ∈ S, ∀ y ∈ next x, y ∈ S) {x : α} {k : Nat}
    (h : Steps next x k) (hx : x ∈ S) : ∀ i ≤ k, ∃ y ∈ S, Steps next y i := by
  induction h with
  | stop h =>
    intro i hi
    obtain rfl : i = 0 := by omega
    exact ⟨_, hx, .stop h⟩
  | @go x y k hxy hy ih =>
    intro i hi
    rcases Nat.lt_or_ge k i with hlt | hle
    · obtain rfl : i = k + 1 := by omega
      exact ⟨x, hx, .go hxy hy⟩
    · exact ih (hS x hx y hxy) i hle

/-- **A way that ends is shorter than the number of elements.** -/
theorem Steps.lt_card {S : Finset α} (hS : ∀ x ∈ S, ∀ y ∈ next x, y ∈ S) {x : α} {k : Nat}
    (h : Steps next x k) (hx : x ∈ S) : k < S.card := by
  classical
  have hex : ∀ i, ∃ y, i ≤ k → y ∈ S ∧ Steps next y i := by
    intro i
    by_cases hi : i ≤ k
    · obtain ⟨y, hy, hs⟩ := h.exists_of_le hS hx i hi
      exact ⟨y, fun _ => ⟨hy, hs⟩⟩
    · exact ⟨x, fun h => absurd h hi⟩
  choose f hf using hex
  have hmaps : Set.MapsTo f (Finset.range (k + 1)) S := by
    intro i hi
    exact (hf i (by simpa [Nat.lt_succ_iff] using hi)).1
  have hinj : Set.InjOn f (Finset.range (k + 1)) := by
    intro i hi j hj hij
    have hsi := (hf i (by simpa [Nat.lt_succ_iff] using hi)).2
    have hsj := (hf j (by simpa [Nat.lt_succ_iff] using hj)).2
    rw [← hij] at hsj
    exact hsi.unique hsj
  have hcard := Finset.card_le_card_of_injOn f hmaps hinj
  rw [Finset.card_range] at hcard
  exact hcard

end Links
