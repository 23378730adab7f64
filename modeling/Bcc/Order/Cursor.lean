import Mathlib.Data.List.Nodup

namespace Cursor

open List

/-!
# Cursors — going through a list by its elements

* `next` — a list without duplicates can be gone through with an element to remember the place: the
  next one is the element behind it, and one that is not in the list stands for the place before;
* `seek` — a scan for the first element with a property.
-/

variable {α : Type} [DecidableEq α]

/-- The element behind `x`; the first one if `x` is not in the list. -/
def next (l : List α) (x : α) : Option α :=
  if x ∈ l then (l.dropWhile (· ≠ x)).tail.head? else l.head?

theorem next_of_not_mem {l : List α} {x : α} (h : x ∉ l) : next l x = l.head? := if_neg h

theorem next_append_cons {pre post : List α} {x : α} (h : x ∉ pre) :
    next (pre ++ x :: post) x = post.head? := by
  have hdrop : (pre ++ x :: post).dropWhile (· ≠ x) = x :: post := by
    rw [dropWhile_append_of_pos, dropWhile_cons_of_neg (by simp)]
    intro y hy
    have hne : y ≠ x := fun heq => h (heq ▸ hy)
    simpa using hne
  rw [next, if_pos (by simp), hdrop, tail_cons]

theorem next_ne_head {l : List α} (hl : l.Nodup) {x : α} (hx : x ∈ l) : next l x ≠ l.head? := by
  obtain ⟨pre, post, rfl⟩ := append_of_mem hx
  obtain ⟨-, -, hdisjoint⟩ := nodup_append.mp hl
  have hpre : x ∉ pre := fun h => hdisjoint x h x mem_cons_self rfl
  rw [next_append_cons hpre]
  intro heq
  cases pre with
  | nil =>
    -- the element behind the first one is another
    have hnot := (nodup_cons.mp hl).1
    exact hnot (mem_of_mem_head? (heq.trans rfl))
  | cons y pre =>
    have hy : y ∈ post := mem_of_mem_head? (heq.trans rfl)
    exact hdisjoint y mem_cons_self y (mem_cons_of_mem _ hy) rfl

/-! ### Seeking -/

section Seek

variable {α : Type} {p : α → Bool}

/-- The first element with the property, and what is behind it. -/
def seek (p : α → Bool) : List α → Option (α × List α)
  | [] => none
  | x :: xs => if p x then some (x, xs) else seek p xs

theorem seek_eq_none_iff {l : List α} : seek p l = none ↔ ∀ x ∈ l, p x = false := by
  induction l with
  | nil => simp [seek]
  | cons x xs ih =>
    by_cases hx : p x = true
    · simp [seek, hx]
    · simp [seek, hx, ih]

theorem seek_append_cons {pre post : List α} {x : α} (hpre : ∀ y ∈ pre, p y = false)
    (hx : p x = true) : seek p (pre ++ x :: post) = some (x, post) := by
  induction pre with
  | nil => exact if_pos hx
  | cons y pre ih =>
    obtain ⟨hy, hrest⟩ := forall_mem_cons.mp hpre
    rw [cons_append, seek, if_neg (by simp [hy]), ih hrest]

theorem exists_of_seek {l post : List α} {x : α} (h : seek p l = some (x, post)) :
    ∃ pre, l = pre ++ x :: post ∧ (∀ y ∈ pre, p y = false) ∧ p x = true := by
  induction l with
  | nil => simp [seek] at h
  | cons y l ih =>
    rw [seek] at h
    split_ifs at h with hy
    · cases h
      exact ⟨[], rfl, by simp, hy⟩
    · obtain ⟨pre, rfl, hpre, hx⟩ := ih h
      exact ⟨y :: pre, rfl, forall_mem_cons.mpr ⟨by simpa using hy, hpre⟩, hx⟩

end Seek

/-! ### Looking up -/

/-- With different keys, looking up a key finds its pair. -/
theorem lookup_of_mem {α β : Type} [BEq α] [LawfulBEq α] {l : List (α × β)} {a : α} {b : β}
    (hnodup : (l.map Prod.fst).Nodup) (hmem : (a, b) ∈ l) : l.lookup a = some b := by
  induction l with
  | nil => exact absurd hmem not_mem_nil
  | cons p l ih =>
    obtain ⟨c, d⟩ := p
    rw [map_cons, nodup_cons] at hnodup
    rcases mem_cons.mp hmem with heq | hrest
    · cases heq
      exact lookup_cons_self
    · have hne : a ≠ c := by
        rintro rfl
        exact hnodup.1 (mem_map.mpr ⟨_, hrest, rfl⟩)
      rw [lookup_cons, beq_false_of_ne hne]
      exact ih hnodup.2 hrest

end Cursor
