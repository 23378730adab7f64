import Bcc.Assoc.Dict
import Mathlib.Logic.Function.Basic

namespace Bcc.Hist

open Assoc Function List Option

/-!
# Histograms — one for each bucket

`decode_c_struct` distributes the entries of a map over a histogram for each bucket.

* `turn_spec`, `foldlM_spec` — a count is assigned to its slot, not added;
* `decodeCStruct_iff` — of entries in one bucket and slot the last one is kept.
-/

/-! ### Assigning and adding -/

section Writes

variable {ι N : Type} [DecidableEq N] (node : ι → N) (a : ι → Nat)

variable (l : List ι) (g : N → Nat)

/-- Amounts that are assigned to their places, one after the other. -/
def writes : N → Nat :=
  l.foldl (fun g i => update g (node i) (a i)) g

/-- The amounts for a place. -/
def sumAt (n : N) : Nat := (l.map fun i => if node i = n then a i else 0).sum

/-- Nothing but zeros is assigned over. -/
def NothingLost : Prop :=
  (∀ i ∈ l, g (node i) = 0) ∧ l.Pairwise fun i j => node i = node j → a i = 0

theorem nothingLost_cons (i : ι) (l : List ι) (g : N → Nat) :
    NothingLost node a (i :: l) g
      ↔ g (node i) = 0 ∧ NothingLost node a l (update g (node i) (a i)) := by
  simp only [NothingLost, forall_mem_cons, pairwise_cons, ← and_assoc]
  refine and_congr_left fun _ => ?_
  constructor
  · rintro ⟨⟨hi, hl⟩, hzero⟩
    refine ⟨hi, fun j hj => ?_⟩
    by_cases heq : node i = node j
    · rw [← heq, update_self, hzero j hj heq]
    · rw [update_of_ne (Ne.symm heq), hl j hj]
  · rintro ⟨hi, hl⟩
    refine ⟨⟨hi, fun j hj => ?_⟩, fun j hj heq => ?_⟩
    · by_cases heq : node i = node j
      · rw [← heq, hi]
      · rw [← hl j hj, update_of_ne (Ne.symm heq)]
    · rw [← hl j hj, ← heq, update_self]

theorem update_le (i : ι) (n : N) :
    update g (node i) (a i) n ≤ g n + if node i = n then a i else 0 := by
  by_cases h : node i = n
  · subst h
    simp
  · simp [update_of_ne (Ne.symm h)]

theorem writes_le (n : N) : writes node a l g n ≤ g n + sumAt node a l n := by
  induction l generalizing g with
  | nil => exact Nat.le_refl _
  | cons i l ih =>
    have hrun := ih (update g (node i) (a i))
    have hstep := update_le node a g i n
    simp only [sumAt, map_cons, sum_cons, writes, foldl_cons] at hrun ⊢
    omega

/-- Assigning is adding exactly if nothing is lost. -/
theorem writes_eq_sum_iff :
    (∀ n, writes node a l g n = g n + sumAt node a l n) ↔ NothingLost node a l g := by
  induction l generalizing g with
  | nil => simp [writes, sumAt, NothingLost]
  | cons i l ih =>
    rw [nothingLost_cons, ← ih]
    have hcons : ∀ n, sumAt node a (i :: l) n
        = (if node i = n then a i else 0) + sumAt node a l n := fun n => by
      rw [sumAt, map_cons, sum_cons, ← sumAt]
    have hrun := writes_le node a l (update g (node i) (a i))
    constructor
    · intro h
      -- the sum is an upper bound for each of the two steps, so both reach it
      have hboth : ∀ n, update g (node i) (a i) n
            = g n + (if node i = n then a i else 0)
          ∧ writes node a l (update g (node i) (a i)) n
            = update g (node i) (a i) n + sumAt node a l n := by
        intro n
        have hn : writes node a l (update g (node i) (a i)) n = _ := h n
        have := hrun n
        have := update_le node a g i n
        rw [hcons] at hn
        omega
      refine ⟨?_, fun n => (hboth n).2⟩
      have hi := (hboth (node i)).1
      rw [update_self, if_pos rfl] at hi
      omega
    · rintro ⟨hi, hl⟩ n
      rw [writes, foldl_cons, ← writes, hl, hcons]
      by_cases heq : node i = n
      · subst heq
        rw [update_self, if_pos rfl]
        omega
      · rw [update_of_ne (Ne.symm heq), if_neg heq, Nat.zero_add]

end Writes

/-! ### The code -/

variable {α : Type} [DecidableEq α]

/-- An entry of the map: `getattr` of its key, and its count. -/
structure Entry (α : Type) where
  key : String → α
  value : Nat

/-- A call for a table: the names in `Key._fields_`, the index an object is in a list, the entries
    in the order of the iteration, and the arguments. -/
structure Sections (α : Type) where
  fields : List String
  index : α → Option Nat
  items : List (Entry α)
  bucketFn : Option (α → α)
  indexMax : Nat

/-- `f2` -/
def slotField (fields : List String) : Option String :=
  if fields[1]? = some "__pad_1" ∧ fields.length = 3 then fields[2]? else fields[1]?

namespace Sections

variable (t : Sections α)

/-- The bucket of an entry with the given content of the first field. -/
def bucket (x : α) : α :=
  match t.bucketFn with
  | some f => f x
  | none => x

/-- A turn of the loop; there is no result if an exception is raised. -/
def turn (tmp : Dict α (List Nat)) (e : Entry α) : Option (Dict α (List Nat)) := do
  let f1 ← t.fields[0]?
  let f2 ← slotField t.fields
  let bucket := t.bucket (e.key f1)
  let vals := (tmp.get? bucket).getD (List.replicate t.indexMax 0)
  let slot ← t.index (e.key f2)
  if slot < vals.length then some (tmp.set bucket (vals.set slot e.value)) else none

/-- `decode_c_struct`: what is in `tmp` at the end. -/
def decodeCStruct : Option (Dict α (List Nat)) := t.items.foldlM t.turn Dict.empty

/-- A histogram table with the given fields for bucket and slot: there may be padding between them
    or at the end, and slots are numbers. -/
structure IsHist (b s : String) : Prop where
  fields : t.fields = [b, s] ∨ t.fields = [b, "__pad_1", s]
    ∨ t.fields = [b, s, "__pad_end"] ∧ s ≠ "__pad_1"
  slots : ∀ e ∈ t.items, (t.index (e.key s)).isSome = true

/-- The bucket and the slot of an entry. -/
def node (b s : String) (e : Entry α) : α × Nat :=
  (t.bucket (e.key b), (t.index (e.key s)).getD 0)

/-- What the histogram of a bucket has in a slot. -/
def counts (tmp : Dict α (List Nat)) (n : α × Nat) : Nat := ((tmp.get? n.1).getD []).getD n.2 0

/-! ### Turns and the run -/

/-- All histograms have their length. -/
def Sized (tmp : Dict α (List Nat)) : Prop :=
  ∀ bucket vals, tmp.get? bucket = some vals → vals.length = t.indexMax

theorem sum_set (vals : List Nat) (v : Nat) {i : Nat} (h : i < vals.length) :
    (vals.set i v).sum + vals.getD i 0 = vals.sum + v := by
  induction vals generalizing i with
  | nil => exact absurd h (Nat.not_lt_zero i)
  | cons x vals ih =>
    cases i with
    | zero =>
      simp only [set_cons_zero, sum_cons, getD_cons_zero]
      omega
    | succ i =>
      have htail := ih (Nat.lt_of_succ_lt_succ h)
      simp only [set_cons_succ, sum_cons, getD_cons_succ]
      omega

variable {t} {b s : String} {tmp : Dict α (List Nat)} {e : Entry α}

/-- **A turn** assigns the count to the slot of the bucket, if there is such a slot. -/
theorem turn_spec (h : t.IsHist b s) (hsized : t.Sized tmp) (he : e ∈ t.items) :
    ∃ tmp', t.turn tmp e = (if (t.node b s e).2 < t.indexMax then some tmp' else none)
      ∧ ((t.node b s e).2 < t.indexMax → t.Sized tmp'
        ∧ counts tmp' = update (counts tmp) (t.node b s e) e.value
        ∧ tmp'.total List.sum + counts tmp (t.node b s e) = tmp.total List.sum + e.value) := by
  have hf1 : t.fields[0]? = some b := by
    rcases h.fields with hf | hf | ⟨hf, -⟩ <;> rw [hf] <;> rfl
  have hf2 : slotField t.fields = some s := by
    rcases h.fields with hf | hf | ⟨hf, hs⟩ <;> simp [slotField, hf]
    exact fun heq => absurd heq hs
  obtain ⟨slot, hslot⟩ := isSome_iff_exists.mp (h.slots e he)
  have hnode : t.node b s e = (t.bucket (e.key b), slot) := by rw [node, hslot, getD_some]
  simp only [turn, hf1, hf2, hslot, hnode, bind_eq_bind, bind_some]
  generalize t.bucket (e.key b) = bucket
  have hvals : ((tmp.get? bucket).getD (List.replicate t.indexMax 0)).length = t.indexMax
      ∧ (∀ i, ((tmp.get? bucket).getD (List.replicate t.indexMax 0)).getD i 0
        = counts tmp (bucket, i))
      ∧ tmp.measure List.sum bucket
        = ((tmp.get? bucket).getD (List.replicate t.indexMax 0)).sum := by
    rw [Dict.measure]
    cases hget : tmp.get? bucket with
    | none =>
      refine ⟨length_replicate, fun i => ?_, by simp⟩
      simp [counts, hget, getElem?_replicate]
      split <;> rfl
    | some vals => exact ⟨hsized _ _ hget, fun i => by simp [counts, hget], rfl⟩
  generalize hold : (tmp.get? bucket).getD (List.replicate t.indexMax 0) = vals at hvals
  obtain ⟨hlen, hcounts, hmeasure⟩ := hvals
  refine ⟨tmp.set bucket (vals.set slot e.value), by simp [hlen],
    fun hlt => ⟨fun bucket' vals' hget => ?_, funext fun node => ?_, ?_⟩⟩
  · rw [Dict.get?_set] at hget
    split at hget
    · cases hget
      rw [length_set, hlen]
    · exact hsized _ _ hget
  · obtain ⟨bucket', i⟩ := node
    rw [counts, Dict.get?_set]
    by_cases hb : bucket' = bucket
    · rw [if_pos hb, getD_some, getD_eq_getElem?_getD, getElem?_set, hb]
      by_cases hs : slot = i
      · rw [if_pos hs, if_pos (hlen.symm ▸ hs ▸ hlt), hs, update_self, getD_some]
      · rw [if_neg hs, ← getD_eq_getElem?_getD, hcounts, update_of_ne]
        exact fun heq => hs (Prod.mk.inj heq).2.symm
    · rw [if_neg hb, update_of_ne fun heq => hb (Prod.mk.inj heq).1, counts]
  · have htotal := tmp.total_set List.sum bucket (vals.set slot e.value)
    have hsum := sum_set vals e.value (hlen.symm ▸ hlt)
    rw [hcounts] at hsum
    omega

/-- **A run** assigns all counts; it comes to its end exactly if all slots are in the histogram. -/
theorem foldlM_spec (h : t.IsHist b s) {l : List (Entry α)} (hl : ∀ e ∈ l, e ∈ t.items)
    (hsized : t.Sized tmp) :
    (∀ tmp', l.foldlM t.turn tmp = some tmp' → ∀ e ∈ l, (t.node b s e).2 < t.indexMax)
      ∧ ((∀ e ∈ l, (t.node b s e).2 < t.indexMax) → ∃ tmp', l.foldlM t.turn tmp = some tmp'
        ∧ counts tmp' = writes (t.node b s) Entry.value l (counts tmp)
        ∧ (NothingLost (t.node b s) Entry.value l (counts tmp) →
          tmp'.total List.sum = tmp.total List.sum + (l.map Entry.value).sum)) := by
  induction l generalizing tmp with
  | nil => exact ⟨by simp, fun _ => ⟨tmp, rfl, rfl, fun _ => rfl⟩⟩
  | cons e l ih =>
    obtain ⟨he, hl⟩ := forall_mem_cons.mp hl
    obtain ⟨tmp₁, heq, hturn⟩ := turn_spec h hsized he
    rw [forall_mem_cons, foldlM_cons, heq]
    by_cases hlt : (t.node b s e).2 < t.indexMax
    · obtain ⟨hsized₁, hcounts, htotal⟩ := hturn hlt
      rw [if_pos hlt]
      refine ⟨fun tmp' hrun => ⟨hlt, (ih hl hsized₁).1 tmp' hrun⟩, fun ⟨_, hslots⟩ => ?_⟩
      obtain ⟨tmp', hrun, hwrites, hsum⟩ := (ih hl hsized₁).2 hslots
      refine ⟨tmp', hrun, by rw [hwrites, hcounts]; rfl, fun hlost => ?_⟩
      rw [nothingLost_cons, ← hcounts] at hlost
      rw [hsum hlost.2, map_cons, sum_cons]
      omega
    · rw [if_neg hlt]
      exact ⟨fun _ hrun => absurd hrun (by simp), fun hslots => absurd hslots.1 hlt⟩

/-- **Sections.**  Each histogram has in each slot the sum of the counts for it, and all counts
    together are those of the map, exactly if all slots are in the histogram and no entry with a
    count has another one behind it with the same slot and, after `bucket_fn`, the same bucket. -/
theorem decodeCStruct_iff (h : t.IsHist b s) :
    (∃ tmp, t.decodeCStruct = some tmp
        ∧ (∀ n, counts tmp n = sumAt (t.node b s) Entry.value t.items n)
        ∧ tmp.total List.sum = (t.items.map Entry.value).sum)
      ↔ (∀ e ∈ t.items, (t.node b s e).2 < t.indexMax)
        ∧ t.items.Pairwise fun e e' => t.node b s e = t.node b s e' → e.value = 0 := by
  have hzero : ∀ n : α × Nat, counts Dict.empty n = 0 := fun _ => rfl
  obtain ⟨hslots, hrun⟩ := foldlM_spec h (fun _ he => he)
    (show t.Sized Dict.empty from fun _ _ hget => absurd hget (by simp))
  have hlost := writes_eq_sum_iff (t.node b s) Entry.value t.items (counts Dict.empty)
  simp only [NothingLost, hzero, implies_true, true_and, Nat.zero_add] at hlost hrun
  constructor
  · rintro ⟨tmp, hdecode, hsum, -⟩
    have hall := hslots tmp hdecode
    obtain ⟨tmp', hdecode', hwrites, -⟩ := hrun hall
    cases hdecode.symm.trans hdecode'
    exact ⟨hall, hlost.mp fun n => by rw [← hwrites, hsum]⟩
  · rintro ⟨hall, hpair⟩
    obtain ⟨tmp, hdecode, hwrites, htotal⟩ := hrun hall
    refine ⟨tmp, hdecode, fun n => ?_, ?_⟩
    · rw [hwrites, hlost.mpr hpair]
    · rw [htotal hpair, Dict.total_empty, Nat.zero_add]

/-- Objects are numbers, and there are two entries with slot 3, for the buckets 1 and 2. -/
def twoBuckets (bucketFn : Option (Nat → Nat)) : Sections Nat :=
  ⟨["pid", "slot"], some,
    [⟨fun f => if f = "pid" then 1 else 3, 5⟩, ⟨fun f => if f = "pid" then 2 else 3, 7⟩],
    bucketFn, 65⟩

theorem twoBuckets_isHist (bucketFn : Option (Nat → Nat)) :
    (twoBuckets bucketFn).IsHist "pid" "slot" := ⟨.inl rfl, fun _ _ => rfl⟩

/-- Without `bucket_fn`, nothing is lost. -/
theorem decodeCStruct_separate : ∃ tmp, (twoBuckets none).decodeCStruct = some tmp
    ∧ (∀ n, counts tmp n = sumAt ((twoBuckets none).node "pid" "slot") Entry.value
      (twoBuckets none).items n)
    ∧ tmp.total List.sum = ((twoBuckets none).items.map Entry.value).sum :=
  (decodeCStruct_iff (twoBuckets_isHist none)).mpr
    ⟨by simp [twoBuckets, node], by simp [twoBuckets, node, bucket]⟩

/-- With both buckets brought together, 5 of the 12 are lost. -/
theorem decodeCStruct_merged : ∃ tmp, (twoBuckets (some fun _ => 0)).decodeCStruct = some tmp
    ∧ counts tmp (0, 3) = 7 ∧ sumAt ((twoBuckets (some fun _ => 0)).node "pid" "slot") Entry.value
      (twoBuckets (some fun _ => 0)).items (0, 3) = 12 := by
  obtain ⟨tmp, hrun, hcounts, -⟩ := (foldlM_spec (twoBuckets_isHist (some fun _ => 0))
    (fun _ he => he) (show Sized _ Dict.empty from fun _ _ hget => absurd hget (by simp))).2
    (by simp [twoBuckets, node])
  exact ⟨tmp, hrun, by rw [hcounts]; rfl, rfl⟩

end Sections

end Bcc.Hist
