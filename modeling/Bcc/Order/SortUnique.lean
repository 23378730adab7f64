import Mathlib.Data.List.Destutter
import Mathlib.Data.List.Sort
import Mathlib.Data.Prod.Lex

namespace SortUnique

open List

/-!
# Sorting by a key and dropping repeated keys

* `IsSortOf` — `std::sort` by a key.  It is not stable: which of several elements with one key
  comes first is left open, so it is a relation and not a function;
* `unique` — `std::unique`, which drops repeated keys.
-/

variable {α κ : Type} [LinearOrder κ] (key : α → κ)

/-- `ys` holds the elements of `xs` in an order that the key does not contradict. -/
structure IsSortOf (xs ys : List α) : Prop where
  perm : ys.Perm xs
  sorted : ys.Pairwise (fun a b => key a ≤ key b)

/-- Of each run of elements with equal keys the first one is kept. -/
def unique (ys : List α) : List α := ys.destutter (fun a b => key a ≠ key b)

variable {key} {xs ys : List α}

/-! ### What is kept -/

/-- Nothing is invented. -/
theorem mem_of_mem_unique {a : α} (h : a ∈ unique key ys) : a ∈ ys :=
  (destutter_sublist _ ys).subset h

/-- Sorted and without repeated keys, the keys are strictly increasing. -/
theorem unique_pairwise_lt (h : IsSortOf key xs ys) :
    (unique key ys).Pairwise (fun a b => key a < key b) := by
  have hle : (unique key ys).Pairwise (fun a b => key a ≤ key b) :=
    h.sorted.sublist (destutter_sublist _ ys)
  have hne : (unique key ys).IsChain (fun a b => key a ≠ key b) := isChain_destutter _ ys
  have hlt : (unique key ys).IsChain (fun a b => key a < key b) := by
    rw [isChain_iff_getElem] at hne ⊢
    intro i hi
    exact lt_of_le_of_ne (pairwise_iff_getElem.mp hle i (i + 1) _ _ (Nat.lt_succ_self i))
      (hne i hi)
  -- `<` on the keys is transitive, so neighbours decide
  exact hlt.pairwise

/-- A list with strictly increasing keys is sorted, and nothing of it is dropped. -/
theorem isSortOf_self (h : ys.Pairwise (fun a b => key a < key b)) :
    IsSortOf key ys ys ∧ unique key ys = ys :=
  ⟨⟨.refl ys, h.imp fun hlt => hlt.le⟩,
    destutter_of_isChain _ ys (h.imp fun hlt => hlt.ne).isChain⟩

/-- Two kept elements with one key are the same. -/
theorem eq_of_mem_unique (h : IsSortOf key xs ys) {a b : α} (ha : a ∈ unique key ys)
    (hb : b ∈ unique key ys) (hab : key a = key b) : a = b := by
  have hlt := unique_pairwise_lt h
  obtain ⟨i, hi, rfl⟩ := getElem_of_mem ha
  obtain ⟨j, hj, rfl⟩ := getElem_of_mem hb
  rw [pairwise_iff_getElem] at hlt
  rcases Nat.lt_trichotomy i j with hij | rfl | hij
  · exact absurd hab (hlt i j hi hj hij).ne
  · rfl
  · exact absurd hab.symm (hlt j i hj hi hij).ne

/-- If equal keys stand in the order of `rank`, the element kept for a key has the lowest rank
    of all elements with that key. -/
theorem exists_mem_unique_min {ι : Type} [Preorder ι] (rank : α → ι)
    (hs : ys.Pairwise (fun a b => key a ≤ key b))
    (hr : ys.Pairwise (fun a b => key a = key b → rank a ≤ rank b)) {a : α} (ha : a ∈ ys) :
    ∃ b ∈ unique key ys, key b = key a ∧ ∀ x ∈ ys, key x = key b → rank b ≤ rank x := by
  cases ys with
  | nil => exact absurd ha not_mem_nil
  | cons c l =>
    show ∃ b ∈ l.destutter' _ c, _
    -- along the list, with the element kept last in front
    induction l generalizing c a with
    | nil =>
      obtain rfl := mem_singleton.mp ha
      refine ⟨a, mem_singleton_self a, rfl, ?_⟩
      intro x hx _
      rw [mem_singleton.mp hx]
    | cons d l ih =>
      rw [pairwise_cons] at hs hr
      by_cases hcd : key c = key d
      · -- `d` is dropped
        rw [destutter'_cons_neg _ (not_not_intro hcd)]
        have hsub : List.Sublist (c :: l) (c :: d :: l) := (sublist_cons_self d l).cons_cons c
        have hdrop : ∀ {a : α}, a ∈ c :: l → ∃ b ∈ l.destutter' (fun a b => key a ≠ key b) c,
            key b = key a ∧ ∀ x ∈ c :: d :: l, key x = key b → rank b ≤ rank x := by
          intro a ha
          obtain ⟨b, hb, hba, hmin⟩ := ih c ((pairwise_cons.mpr hs).sublist hsub)
            ((pairwise_cons.mpr hr).sublist hsub) ha
          refine ⟨b, hb, hba, ?_⟩
          intro x hx hxb
          rcases mem_cons.mp hx with rfl | hx
          · exact hmin x mem_cons_self hxb
          · rcases mem_cons.mp hx with rfl | hx
            · exact (hmin c mem_cons_self (hcd.trans hxb)).trans
                (hr.1 x mem_cons_self hcd)
            · exact hmin x (mem_cons_of_mem c hx) hxb
        rcases mem_cons.mp ha with rfl | ha
        · exact hdrop mem_cons_self
        · rcases mem_cons.mp ha with rfl | ha
          · rw [← hcd]
            exact hdrop mem_cons_self
          · exact hdrop (mem_cons_of_mem c ha)
      · -- `d` starts a new run
        rw [destutter'_cons_pos _ hcd]
        rcases mem_cons.mp ha with rfl | had
        · refine ⟨a, mem_cons_self, rfl, ?_⟩
          intro x hx hxa
          rcases mem_cons.mp hx with rfl | hx
          · exact le_rfl
          · exact hr.1 x hx hxa.symm
        · obtain ⟨b, hb, hba, hmin⟩ := ih d hs.2 hr.2 had
          refine ⟨b, mem_cons_of_mem c hb, hba, ?_⟩
          intro x hx hxb
          rcases mem_cons.mp hx with rfl | hx
          · -- no key behind `d` is that of `x`, which stands before it
            have hlt : key x < key d := lt_of_le_of_ne (hs.1 d mem_cons_self) hcd
            have hda : key d ≤ key a := by
              rcases mem_cons.mp had with heq | hal
              · rw [heq]
              · exact (pairwise_cons.mp hs.2).1 a hal
            exact absurd (hxb.trans hba) (hlt.trans_le hda).ne
          · exact hmin x hx hxb

/-- Every key is still there. -/
theorem exists_mem_unique (h : IsSortOf key xs ys) {a : α} (ha : a ∈ xs) :
    ∃ b ∈ unique key ys, key b = key a := by
  obtain ⟨b, hb, hba, -⟩ := exists_mem_unique_min (fun _ => 0) h.sorted
    (pairwise_of_forall fun _ _ _ => le_refl 0) (h.perm.mem_iff.mpr ha)
  exact ⟨b, hb, hba⟩

/-! ### Which element is kept -/

open Classical in
/-- **Choice.**  Elements with different keys can all be kept: some sort puts each of them in
    front of the others with its key. -/
theorem exists_sort_choosing (xs : List α) {p : α → Prop}
    (hp : ∀ a b, p a → p b → key a = key b → a = b) :
    ∃ ys, IsSortOf key xs ys ∧ ∀ a ∈ xs, p a → a ∈ unique key ys := by
  -- sort by the key first and put the chosen elements before the others with their key
  let rank : α → Nat := fun a => if p a then 0 else 1
  let le : α → α → Bool := fun a b => decide (toLex (key a, rank a) ≤ toLex (key b, rank b))
  have hsorted : (xs.mergeSort le).Pairwise (fun a b => le a b) :=
    pairwise_mergeSort (fun a b c hab hbc => by
        simp only [le, decide_eq_true_eq] at hab hbc ⊢
        exact hab.trans hbc)
      (fun a b => by simpa [le] using le_total _ _) xs
  have hle : ∀ {a b : α}, le a b = true → key a ≤ key b ∧ (key a = key b → rank a ≤ rank b) := by
    intro a b hab
    rcases Prod.Lex.toLex_le_toLex.mp (of_decide_eq_true hab) with hlt | ⟨heq, hr⟩
    · exact ⟨hlt.le, fun h => absurd h hlt.ne⟩
    · exact ⟨heq.le, fun _ => hr⟩
  have hsort : IsSortOf key xs (xs.mergeSort le) :=
    ⟨mergeSort_perm xs le, hsorted.imp fun h => (hle h).1⟩
  refine ⟨_, hsort, ?_⟩
  intro a ha hpa
  have hmem : a ∈ xs.mergeSort le := hsort.perm.mem_iff.mpr ha
  obtain ⟨b, hb, hba, hmin⟩ := exists_mem_unique_min rank hsort.sorted
    (hsorted.imp fun h => (hle h).2) hmem
  have hpb : p b := by
    by_contra hnot
    have := hmin a hmem hba.symm
    simp only [rank, if_pos hpa, if_neg hnot] at this
    omega
  rwa [← hp b a hpb hpa hba]

end SortUnique
