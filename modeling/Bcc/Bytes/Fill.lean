import Bcc.Bytes.Ring
import Mathlib.Data.List.GetD
import Mathlib.Data.List.Perm.Basic

namespace Bytes

open Function List

/-!
# Bytes — arrays that are filled part by part

An array in memory has elements of one size.  It is filled with parts of some elements, one behind
the other; the offset of a part wraps at some bound, so that it may come to stand elsewhere.

* `cells_fill` — the elements of an array whose parts are `InRange`;
* `inRange_of_perm` — and they are, if the array has the elements in some order.
-/

variable {mem : Nat → UInt8} {off i n w size : Nat}

/-! ### Bytes that are stored -/

/-- The memory with the bytes `x` stored from the offset `off` on. -/
def store (mem : Nat → UInt8) (off : Nat) (x : List UInt8) (i : Nat) : UInt8 :=
  if off ≤ i then x.getD (i - off) (mem i) else mem i

theorem store_nil (mem : Nat → UInt8) (off : Nat) : store mem off [] = mem := by
  funext i
  simp [store]

theorem store_of_lt {x : List UInt8} (h : i < off) : store mem off x i = mem i :=
  if_neg (Nat.not_le.mpr h)

theorem store_of_le {x : List UInt8} (h : off + x.length ≤ i) : store mem off x i = mem i := by
  rw [store, if_pos (by omega)]
  exact getD_eq_default _ _ (by omega)

theorem store_append (mem : Nat → UInt8) (off : Nat) (x y : List UInt8) :
    store mem off (x ++ y) = store (store mem off x) (off + x.length) y := by
  funext i
  unfold store
  by_cases hoff : off ≤ i
  · by_cases hx : off + x.length ≤ i
    · rw [if_pos hoff, if_pos hx, if_pos hoff, getD_append_right _ _ _ _ (by omega),
        getD_eq_default x _ (by omega), Nat.sub_add_eq]
    · rw [if_pos hoff, if_neg hx, if_pos hoff, getD_append _ _ _ _ (by omega)]
  · rw [if_neg hoff, if_neg (by omega), if_neg hoff]

/-- A byte that is not stored over may be set before or after. -/
theorem store_update {x : List UInt8} (b : UInt8) (h : off + x.length ≤ i) :
    store (update mem i b) off x = update (store mem off x) i b := by
  funext j
  by_cases hj : j = i
  · rw [hj, update_self, store_of_le h, update_self]
  · simp [store, update_of_ne hj]

theorem flat_congr {mem' : Nat → UInt8} {len : Nat}
    (h : ∀ i, off ≤ i → i < off + len → mem i = mem' i) : flat mem off len = flat mem' off len := by
  apply map_congr_left
  intro i hi
  exact h _ (by omega) (by have := mem_range.mp hi; omega)

theorem flat_store (mem : Nat → UInt8) (off : Nat) (x : List UInt8) :
    flat (store mem off x) off x.length = x := by
  apply ext_getElem (length_flat _ _ _)
  intro i hi hx
  simp [flat, store, hx]

/-! ### Elements of an array -/

/-- The first `n` elements of an array with elements of `size` bytes. -/
def cells (mem : Nat → UInt8) (size n : Nat) : List (List UInt8) :=
  (List.range n).map fun i => flat mem (size * i) size

@[simp] theorem length_cells (mem : Nat → UInt8) (size n : Nat) :
    (cells mem size n).length = n := by
  rw [cells, length_map, length_range]

theorem cells_succ (mem : Nat → UInt8) (size n : Nat) :
    cells mem size (n + 1) = cells mem size n ++ [flat mem (size * n) size] := by
  rw [cells, range_succ, map_append]
  rfl

theorem getElem?_cells (h : i < n) : (cells mem size n)[i]? = some (flat mem (size * i) size) := by
  rw [cells, getElem?_map, getElem?_range h]
  rfl

theorem cells_congr {mem' : Nat → UInt8} (h : ∀ i < size * n, mem i = mem' i) :
    cells mem size n = cells mem' size n := by
  apply map_congr_left
  intro k hk
  have hle : size * k + size ≤ size * n := Nat.mul_le_mul_left size (mem_range.mp hk)
  exact flat_congr fun i _ hi => h i (by omega)

/-- Elements that are stored behind the first ones. -/
theorem cells_store {xs : List (List UInt8)} (hxs : ∀ x ∈ xs, x.length = size) :
    cells (store mem (size * n) xs.flatten) size (n + xs.length) = cells mem size n ++ xs := by
  induction xs generalizing mem n with
  | nil => simp [store_nil]
  | cons x xs ih =>
    obtain ⟨hx, hxs⟩ := forall_mem_cons.mp hxs
    have hnext : size * n + x.length = size * (n + 1) := by rw [hx, Nat.mul_succ]
    have hfront : cells (store mem (size * n) x) size n = cells mem size n :=
      cells_congr fun i hi => store_of_lt hi
    have hcell : flat (store mem (size * n) x) (size * n) size = x := by
      rw [← hx]
      exact flat_store mem _ x
    calc cells (store mem (size * n) (x :: xs).flatten) size (n + (x :: xs).length)
        = cells (store (store mem (size * n) x) (size * (n + 1)) xs.flatten) size
            (n + 1 + xs.length) := by
          rw [flatten_cons, store_append, hnext, length_cons, Nat.add_assoc, Nat.add_comm 1]
      _ = cells (store mem (size * n) x) size (n + 1) ++ xs := ih hxs
      _ = cells mem size n ++ x :: xs := by
          rw [cells_succ, hfront, hcell, append_assoc, singleton_append]

/-! ### Filling -/

/-- The array after parts behind its first `n` elements, with offsets that wrap at `w`. -/
def fill (w size : Nat) : (Nat → UInt8) → Nat → List (List (List UInt8)) → (Nat → UInt8)
  | mem, _, [] => mem
  | mem, n, xs :: parts =>
    fill w size (store mem (size * n % w) xs.flatten) (n + xs.length) parts

/-- No part with an element, by the lengths of the parts, has an offset that wraps. -/
def InRange (w size : Nat) : Nat → List Nat → Prop
  | _, [] => True
  | n, k :: ks => (k ≠ 0 → size * n < w) ∧ InRange w size (n + k) ks

instance decidableInRange (w size : Nat) : (n : Nat) → (ks : List Nat) →
    Decidable (InRange w size n ks)
  | _, [] => inferInstanceAs (Decidable True)
  | n, k :: ks =>
    have := decidableInRange w size (n + k) ks
    inferInstanceAs (Decidable ((k ≠ 0 → size * n < w) ∧ InRange w size (n + k) ks))

variable {parts : List (List (List UInt8))} {ks : List Nat}

/-- The first part with an element begins where the array is filled up to. -/
theorem InRange.lt (h : InRange w size n ks) (hsum : ks.sum ≠ 0) : size * n < w := by
  induction ks with
  | nil => exact absurd rfl hsum
  | cons k ks ih =>
    obtain ⟨hk, hks⟩ := h
    by_cases hzero : k = 0
    · subst hzero
      exact ih hks (by simpa using hsum)
    · exact hk hzero

theorem inRange_of_sum_eq_zero (h : ks.sum = 0) : InRange w size n ks := by
  induction ks generalizing n with
  | nil => trivial
  | cons k ks ih =>
    rw [sum_cons] at h
    exact ⟨fun hk => absurd h (by omega), ih (by omega)⟩

/-- Elements that are in range are so in any parts. -/
theorem inRange_of_forall (h : ∀ i < ks.sum, size * (n + i) < w) : InRange w size n ks := by
  induction ks generalizing n with
  | nil => trivial
  | cons k ks ih =>
    rw [sum_cons] at h
    refine ⟨fun hk => h 0 (by omega), ih fun i hi => ?_⟩
    rw [Nat.add_assoc]
    exact h (k + i) (by omega)

/-- Parts of one element. -/
theorem inRange_replicate_iff (k : Nat) :
    InRange w size n (List.replicate k 1) ↔ ∀ i < k, size * (n + i) < w := by
  refine ⟨fun h => ?_, fun h => inRange_of_forall (by simpa using h)⟩
  induction k generalizing n with
  | zero => exact fun i hi => absurd hi (Nat.not_lt_zero i)
  | succ k ih =>
    obtain ⟨hfirst, hrest⟩ := h
    intro i hi
    cases i with
    | zero => exact hfirst Nat.one_ne_zero
    | succ i => simpa only [Nat.add_assoc, Nat.add_comm 1] using ih hrest i (by omega)

/-- **In range.**  The elements of the array are those it had and those of the parts. -/
theorem cells_fill (hsized : ∀ xs ∈ parts, ∀ x ∈ xs, x.length = size)
    (hrange : InRange w size n (parts.map List.length)) :
    cells (fill w size mem n parts) size (n + parts.flatten.length)
      = cells mem size n ++ parts.flatten := by
  induction parts generalizing mem n with
  | nil => simp [fill]
  | cons xs parts ih =>
    obtain ⟨hxs, hsized⟩ := forall_mem_cons.mp hsized
    obtain ⟨hlt, hrange⟩ := hrange
    have hstore : cells (store mem (size * n % w) xs.flatten) size (n + xs.length)
        = cells mem size n ++ xs := by
      by_cases hzero : xs = []
      · subst hzero
        simp [store_nil]
      · rw [Nat.mod_eq_of_lt (hlt (by simpa using hzero)), cells_store hxs]
    rw [fill, flatten_cons, length_append, ← Nat.add_assoc, ih hsized hrange, hstore, append_assoc]

theorem fill_of_flatten_eq_nil (h : parts.flatten = []) : fill w size mem n parts = mem := by
  induction parts generalizing mem n with
  | nil => rfl
  | cons xs parts ih =>
    obtain ⟨rfl, hparts⟩ := append_eq_nil_iff.mp h
    rw [fill, flatten_nil, store_nil, ih hparts]

theorem length_flatten_of_sized {xs : List (List UInt8)} (h : ∀ x ∈ xs, x.length = size) :
    xs.flatten.length = size * xs.length := by
  rw [length_flatten, map_eq_replicate_iff.mpr h, sum_replicate_nat, Nat.mul_comm]

/-- **Not in range.**  The last byte of the last element is not stored over. -/
theorem fill_update (hsize : 0 < size) (hw : 0 < w)
    (hsized : ∀ xs ∈ parts, ∀ x ∈ xs, x.length = size)
    (hnot : ¬ InRange w size n (parts.map List.length)) (b : UInt8) :
    fill w size (update mem (size * (n + parts.flatten.length) - 1) b) n parts
      = update (fill w size mem n parts) (size * (n + parts.flatten.length) - 1) b := by
  induction parts generalizing mem n with
  | nil => exact absurd trivial hnot
  | cons xs parts ih =>
    obtain ⟨hxs, hsized⟩ := forall_mem_cons.mp hsized
    have hlen := length_flatten_of_sized hxs
    have hmod : size * n % w ≤ size * n := Nat.mod_le _ _
    have hmul : size * (n + xs.length) = size * n + size * xs.length := Nat.mul_add _ _ _
    rw [flatten_cons, length_append, ← Nat.add_assoc, fill, fill]
    by_cases htail : InRange w size (n + xs.length) (parts.map List.length)
    · -- this is the part that wraps, and those behind it are empty
      have hhead : xs.length ≠ 0 ∧ w ≤ size * n := by
        by_contra h
        exact hnot ⟨fun hk => by_contra fun hlt => h ⟨hk, Nat.not_lt.mp hlt⟩, htail⟩
      have hempty : parts.flatten = [] := by
        by_contra hne
        have hlt := htail.lt (by
          rw [← length_flatten]
          exact fun h => hne (eq_nil_of_length_eq_zero h))
        omega
      have hwrap : size * n % w < w := Nat.mod_lt _ hw
      have hle : size * n % w + xs.flatten.length ≤ size * (n + xs.length) - 1 := by omega
      rw [fill_of_flatten_eq_nil hempty, fill_of_flatten_eq_nil hempty, hempty]
      exact store_update b hle
    · have hpos : parts.flatten.length ≠ 0 := fun h =>
        htail (inRange_of_sum_eq_zero (length_flatten.symm.trans h))
      have hlast : size * (n + xs.length) + size
          ≤ size * (n + xs.length + parts.flatten.length) := by
        rw [← Nat.mul_succ]
        exact Nat.mul_le_mul_left size (by omega)
      rw [store_update b (by omega)]
      exact ih hsized htail

/-- The byte is in an element that is not one of the parts then. -/
theorem exists_cell_of_not_inRange (hsize : 0 < size) (hw : 0 < w)
    (hsized : ∀ xs ∈ parts, ∀ x ∈ xs, x.length = size)
    (hnot : ¬ InRange w size 0 (parts.map List.length)) (b : UInt8) :
    ∃ x ∈ cells (fill w size (fun _ => b) 0 parts) size parts.flatten.length, b ∈ x := by
  obtain ⟨t, ht⟩ : ∃ t, parts.flatten.length = t + 1 := Nat.exists_eq_succ_of_ne_zero fun h =>
    hnot (inRange_of_sum_eq_zero (length_flatten.symm.trans h))
  have hlast : size * (t + 1) - 1 = size * t + (size - 1) := by
    rw [Nat.mul_succ]
    omega
  have hupdate := @fill_update (fun _ => b) 0 w size parts hsize hw hsized hnot b
  rw [Nat.zero_add, ht, hlast] at hupdate
  have hbyte := congrFun hupdate (size * t + (size - 1))
  rw [update_eq_self, update_self] at hbyte
  refine ⟨_, by rw [ht, cells_succ]; exact mem_append_right _ mem_cons_self, ?_⟩
  exact mem_map.mpr ⟨size - 1, mem_range.mpr (by omega), hbyte⟩

/-- The elements that a filled array has with any memory, in some order, tell that the parts are in
    range. -/
theorem inRange_of_perm {all : List (List UInt8)} (hsize : 0 < size) (hw : 0 < w)
    (hsized : ∀ xs ∈ parts, ∀ x ∈ xs, x.length = size)
    (hperm : ∀ mem, (cells (fill w size mem 0 parts) size parts.flatten.length).Perm all) :
    InRange w size 0 (parts.map List.length) := by
  by_contra hnot
  obtain ⟨t, ht⟩ : ∃ t, parts.flatten.length = t + 1 := Nat.exists_eq_succ_of_ne_zero fun h =>
    hnot (inRange_of_sum_eq_zero (length_flatten.symm.trans h))
  have hlast : size * (t + 1) - 1 = size * t + (size - 1) := by
    rw [Nat.mul_succ]
    omega
  -- the same with another byte at the end
  have hupdate := fun b => @fill_update (fun _ => 0) 0 w size parts hsize hw hsized hnot b
  rw [Nat.zero_add, ht, hlast] at hupdate
  set filled := fill w size (fun _ => 0) 0 parts
  have hsame := (hperm fun _ => 0).trans
    (hperm (update (fun _ => 0) (size * t + (size - 1))
      (filled (size * t + (size - 1)) + 1))).symm
  have hfront : cells (update filled (size * t + (size - 1))
      (filled (size * t + (size - 1)) + 1)) size t = cells filled size t :=
    cells_congr fun i hi => update_of_ne (by omega) _ _
  rw [ht, cells_succ, cells_succ, hupdate, hfront, perm_append_left_iff,
    singleton_perm_singleton] at hsame
  have hbyte := congrArg (fun x => x[size - 1]?) hsame
  simp only [flat, getElem?_map, getElem?_range (show size - 1 < size by omega),
    Option.map_some, update_self, Option.some.injEq] at hbyte
  exact absurd (UInt8.left_eq_add.mp hbyte) (by decide)

end Bytes
