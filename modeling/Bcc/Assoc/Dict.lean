import Mathlib.Data.List.Nodup
import Mathlib.Algebra.BigOperators.Group.List.Basic
import Mathlib.Algebra.Order.Ring.Int

namespace Assoc

open List

/-!
# Maps as lists of entries

A map with finitely many keys, as the list of its entries.  The keys keep the order in which they
were inserted, as in a dictionary of Python; an assignment to a key that is there leaves the key in
its place, and a deletion takes it out.

* `Dict`, `Dict.set`, `Dict.del` — a map, an assignment and a deletion;
* `Dict.get?_set`, `Dict.get?_del` — what is under a key afterwards;
* `Dict.total_set`, `Dict.total_del` — what becomes of a sum over the entries.
-/

variable {K V : Type}

/-- A map, in the order of its insertions. -/
structure Dict (K V : Type) where
  entries : List (K × V)
  nodup : (entries.map Prod.fst).Nodup

namespace Dict

/-- `{}` -/
def empty : Dict K V := ⟨[], nodup_nil⟩

/-- The keys, in order. -/
def keys (d : Dict K V) : List K := d.entries.map Prod.fst

/-- `len(d)` -/
def length (d : Dict K V) : Nat := d.entries.length

/-- The sum of a measure of the values. -/
def total (f : V → Nat) (d : Dict K V) : Nat := (d.entries.map (fun e => f e.2)).sum

@[simp] theorem total_empty (f : V → Nat) : (empty : Dict K V).total f = 0 := rfl

variable (d : Dict K V)

theorem length_eq_total : d.length = d.total (fun _ => 1) := by
  simp [length, total]

theorem keys_nodup : d.keys.Nodup := d.nodup

variable [DecidableEq K]

/-- The value under a key, if there is one. -/
def get? (d : Dict K V) (k : K) : Option V := (d.entries.find? (fun e => e.1 = k)).map Prod.snd

/-- The entries after an assignment. -/
def setEntries (k : K) (v : V) : List (K × V) → List (K × V)
  | [] => [(k, v)]
  | e :: es => if e.1 = k then (k, v) :: es else e :: setEntries k v es

theorem fst_setEntries (k : K) (v : V) (es : List (K × V)) :
    (setEntries k v es).map Prod.fst
      = if k ∈ es.map Prod.fst then es.map Prod.fst else es.map Prod.fst ++ [k] := by
  induction es with
  | nil => simp [setEntries]
  | cons e es ih =>
    by_cases hk : e.1 = k
    · simp [setEntries, hk]
    · simp only [setEntries, if_neg hk, map_cons, ih, mem_cons, Ne.symm hk, false_or]
      split <;> rfl

/-- `d[k] = v` -/
def set (d : Dict K V) (k : K) (v : V) : Dict K V where
  entries := setEntries k v d.entries
  nodup := by
    rw [fst_setEntries]
    split
    · exact d.nodup
    · next hk =>
      rw [← concat_eq_append]
      exact d.nodup.concat hk

/-- `del d[k]`, for a key that is there. -/
def del (d : Dict K V) (k : K) : Dict K V :=
  ⟨d.entries.filter (fun e => e.1 ≠ k), d.nodup.sublist (filter_sublist.map _)⟩

@[simp] theorem get?_empty (k : K) : (empty : Dict K V).get? k = none := rfl

theorem mem_keys_iff {d : Dict K V} {k : K} : k ∈ d.keys ↔ (d.get? k).isSome = true := by
  simp [keys, get?]

theorem mem_keys_set {d : Dict K V} {k k' : K} {v : V} :
    k' ∈ (d.set k v).keys ↔ k' ∈ d.keys ∨ k' = k := by
  show k' ∈ (setEntries k v d.entries).map Prod.fst ↔ k' ∈ d.entries.map Prod.fst ∨ k' = k
  rw [fst_setEntries]
  split
  · next hk => exact ⟨.inl, fun h => h.elim id (fun heq => heq ▸ hk)⟩
  · rw [mem_append, mem_singleton]

theorem find?_setEntries (k k' : K) (v : V) (es : List (K × V)) :
    ((setEntries k v es).find? (fun e => e.1 = k')).map Prod.snd
      = if k' = k then some v else (es.find? (fun e => e.1 = k')).map Prod.snd := by
  induction es with
  | nil =>
    by_cases hk : k' = k
    · simp [setEntries, hk]
    · simp [setEntries, hk, Ne.symm hk]
  | cons e es ih =>
    by_cases he : e.1 = k
    · by_cases hk : k' = k
      · simp [setEntries, he, hk]
      · simp [setEntries, he, hk, Ne.symm hk]
    · by_cases he' : e.1 = k'
      · have hk : k' ≠ k := he' ▸ he
        simp [setEntries, he', hk]
      · simpa [setEntries, he, he'] using ih

/-- What is under a key after an assignment. -/
theorem get?_set (k k' : K) (v : V) : (d.set k v).get? k' = if k' = k then some v else d.get? k' :=
  find?_setEntries k k' v d.entries

/-- What is under a key after a deletion. -/
theorem get?_del (k k' : K) : (d.del k).get? k' = if k' = k then none else d.get? k' := by
  unfold get? del
  by_cases hk : k' = k
  · subst hk
    simp
  · rw [if_neg hk, find?_filter]
    congr 2
    funext e
    by_cases he : e.1 = k'
    · simp [he, hk]
    · simp [he]

/-- An assignment, or a deletion without a value. -/
def put (k : K) : Option V → Dict K V
  | some v => d.set k v
  | none => d.del k

theorem get?_put (k k' : K) (o : Option V) :
    (d.put k o).get? k' = if k' = k then o else d.get? k' := by
  cases o with
  | none => exact d.get?_del k k'
  | some v => exact d.get?_set k k' v

/-! ### Sums over the entries -/

/-- The measure of what is under a key, or zero. -/
def measure (f : V → Nat) (d : Dict K V) (k : K) : Nat := ((d.get? k).map f).getD 0

/-- An assignment takes away the measure of the old value and adds that of the new one. -/
theorem total_set (f : V → Nat) (d : Dict K V) (k : K) (v : V) :
    (d.set k v).total f + d.measure f k = d.total f + f v := by
  show ((setEntries k v d.entries).map fun e => f e.2).sum
      + (((d.entries.find? fun e => e.1 = k).map Prod.snd).map f).getD 0
    = (d.entries.map fun e => f e.2).sum + f v
  induction d.entries with
  | nil => simp [setEntries]
  | cons e es ih =>
    by_cases he : e.1 = k
    · simp only [setEntries, he, if_true, map_cons, sum_cons, find?_cons, decide_true,
        Option.map_some, Option.getD_some]
      omega
    · simp only [setEntries, he, if_false, map_cons, sum_cons, find?_cons, decide_false, add_assoc,
        ih]

/-- A deletion takes away the measure of the value. -/
theorem total_del (f : V → Nat) (d : Dict K V) (k : K) :
    (d.del k).total f + d.measure f k = d.total f := by
  obtain ⟨es, hnodup⟩ := d
  show ((es.filter fun e => e.1 ≠ k).map fun e => f e.2).sum
      + (((es.find? fun e => e.1 = k).map Prod.snd).map f).getD 0
    = (es.map fun e => f e.2).sum
  induction es with
  | nil => rfl
  | cons e es ih =>
    rw [map_cons, nodup_cons] at hnodup
    by_cases he : e.1 = k
    · -- No other entry has the key.
      subst he
      have hrest : es.filter (fun e' => e'.1 ≠ e.1) = es := by
        rw [filter_eq_self]
        intro e' he'
        have hne : e'.1 ≠ e.1 := fun heq => hnodup.1 (heq ▸ mem_map_of_mem he')
        simpa using hne
      rw [filter_cons_of_neg (by simp), hrest, find?_cons_of_pos (by simp)]
      exact add_comm _ _
    · rw [filter_cons_of_pos (by simp [he]), find?_cons_of_neg (by simp [he]), map_cons, sum_cons,
        add_assoc, ih hnodup.2, map_cons, sum_cons]

theorem length_put (k : K) (o : Option V) :
    (d.put k o).length + d.measure (fun _ => 1) k = d.length + (o.map fun _ => 1).getD 0 := by
  rw [length_eq_total, length_eq_total]
  cases o with
  | none => exact d.total_del _ k
  | some v => exact d.total_set _ k v

end Dict

end Assoc
