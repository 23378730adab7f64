import Bcc.Order.Cursor

namespace Bcc.Table

open Cursor

/-!
# Tables — clearing beside a program that deletes

* `Clearing.step` — `clear` asks for the next key and deletes it; as the key it goes on from is
  gone, it starts anew at the first key each time;
* `clear_iff` — a key that a program deletes in between raises a `KeyError`.
-/

variable {K : Type} [DecidableEq K]

/-- Where `clear` is: in front of `next`, with `self.key`, in front of `__delitem__`, or at its
    end. -/
inductive ClearAt (K : Type) where
  | next (key : Option K)
  | delitem (k : K)
  | raised
  | returned
  deriving DecidableEq

/-- The keys of the map, in the order of the kernel, and where `clear` is. -/
@[ext]
structure Clearing (K : Type) where
  keys : List K
  pc : ClearAt K
  deriving DecidableEq

/-- A kernel call of `clear`, or a deletion by the program. -/
inductive Turn (K : Type) where
  | clear
  | program (k : K)
  deriving DecidableEq

/-- `BPF_MAP_GET_NEXT_KEY`, for which a null pointer is an absent key. -/
def nextKey (keys : List K) : Option K → Option K
  | none => keys.head?
  | some key => next keys key

def Clearing.step (s : Clearing K) : Turn K → Clearing K
  | .program k => { s with keys := s.keys.erase k }
  | .clear =>
    match s.pc with
    | .next key =>
      match nextKey s.keys key with
      | some k => { s with pc := .delitem k }
      | none => { s with pc := .returned }
    | .delitem k =>
      if k ∈ s.keys then ⟨s.keys.erase k, .next (some k)⟩ else { s with pc := .raised }
    | .raised | .returned => s

/-- The program never deletes the key that `clear` is about to delete. -/
def Spares : Clearing K → List (Turn K) → Prop
  | _, [] => True
  | s, t :: ts => (∀ k ∈ s.keys, s.pc = .delitem k → t ≠ .program k) ∧ Spares (s.step t) ts

/-- What holds as long as the program has spared the keys. -/
def Clearing.Good (s : Clearing K) : Prop :=
  match s.pc with
  | .next key => ∀ k ∈ key, k ∉ s.keys
  | .delitem k => k ∈ s.keys
  | .raised => False
  | .returned => s.keys = []

/-- How many more calls `clear` needs at most. -/
def Clearing.left (s : Clearing K) : Nat :=
  match s.pc with
  | .next _ => 2 * s.keys.length + 1
  | .delitem _ => 2 * s.keys.length
  | .raised | .returned => 0

theorem nextKey_eq_head {keys : List K} {key : Option K} (h : ∀ k ∈ key, k ∉ keys) :
    nextKey keys key = keys.head? := by
  cases key with
  | none => rfl
  | some k => exact next_of_not_mem (h k rfl)

/-- **A call of `clear`** comes closer to its end. -/
theorem Clearing.Good.clear {s : Clearing K} (h : s.Good) (hnodup : s.keys.Nodup) :
    (s.step .clear).Good ∧ (s.step .clear).keys.Nodup ∧ (s.step .clear).left = s.left - 1 := by
  obtain ⟨keys, pc⟩ := s
  cases pc with
  | next key =>
    simp only [Clearing.step, nextKey_eq_head (show ∀ k ∈ key, k ∉ keys from h)]
    cases keys with
    | nil => exact ⟨rfl, hnodup, rfl⟩
    | cons k keys => exact ⟨List.mem_cons_self, hnodup, rfl⟩
  | delitem k =>
    have hk : k ∈ keys := h
    simp only [Clearing.step, if_pos hk, left, List.length_erase_of_mem hk]
    refine ⟨fun k' hk' => ?_, hnodup.erase k, ?_⟩
    · cases hk'
      exact fun hmem => (hnodup.mem_erase_iff.mp hmem).1 rfl
    · have := List.length_pos_of_mem hk
      omega
  | raised => exact h.elim
  | returned => exact ⟨h, hnodup, rfl⟩

/-- **A deletion** of another key. -/
theorem Clearing.Good.program {s : Clearing K} (h : s.Good) (k : K)
    (hspare : k ∈ s.keys → s.pc ≠ .delitem k) :
    (s.step (.program k)).Good ∧ (s.step (.program k)).left ≤ s.left := by
  obtain ⟨keys, pc⟩ := s
  have hlen : (keys.erase k).length ≤ keys.length := List.length_erase_le
  cases pc with
  | next key =>
    refine ⟨fun k' hk' hmem => h k' hk' (List.mem_of_mem_erase hmem), ?_⟩
    simp only [Clearing.step, left]
    omega
  | delitem k' =>
    have hne : k' ≠ k := fun heq => hspare (heq ▸ h) (heq ▸ rfl)
    refine ⟨(List.mem_erase_of_ne hne).mpr h, ?_⟩
    simp only [Clearing.step, left]
    omega
  | raised => exact h.elim
  | returned =>
    have hnil : keys = [] := h
    exact ⟨by simp [Clearing.step, Good, hnil], Nat.le_refl 0⟩

/-- A key that is gone is never deleted, and `clear` raises. -/
theorem foldl_step_of_gone {s : Clearing K} {k : K} (hpc : s.pc = .delitem k ∨ s.pc = .raised)
    (hgone : k ∉ s.keys) (turns : List (Turn K)) :
    (turns.foldl Clearing.step s).pc ≠ .returned := by
  induction turns generalizing s with
  | nil => rcases hpc with hpc | hpc <;> simp [hpc]
  | cons t turns ih =>
    cases t with
    | program k' => exact ih hpc fun hmem => hgone (List.mem_of_mem_erase hmem)
    | clear =>
      rcases hpc with hpc | hpc
      · exact ih (.inr (by simp [Clearing.step, hpc, hgone])) (by simp [Clearing.step, hpc, hgone])
      · exact ih (.inr (by simp [Clearing.step, hpc])) (by simpa [Clearing.step, hpc] using hgone)

/-- **A run** with enough calls of `clear`. -/
theorem foldl_step_iff {s : Clearing K} (h : s.Good) (hnodup : s.keys.Nodup)
    {turns : List (Turn K)} (hturns : s.left ≤ turns.count .clear) :
    turns.foldl Clearing.step s = ⟨[], .returned⟩ ↔ Spares s turns := by
  induction turns generalizing s with
  | nil =>
    obtain ⟨keys, pc⟩ := s
    have hleft : Clearing.left ⟨keys, pc⟩ = 0 := Nat.le_zero.mp hturns
    refine iff_of_true ?_ trivial
    cases pc with
    | next key => simp [Clearing.left] at hleft
    | delitem k =>
      have hpos := List.length_pos_of_mem (show k ∈ keys from h)
      simp only [Clearing.left] at hleft
      omega
    | raised => exact h.elim
    | returned => exact congrArg (Clearing.mk · .returned) h
  | cons t turns ih =>
    rw [List.foldl_cons, Spares]
    cases t with
    | clear =>
      obtain ⟨h', hnodup', hleft⟩ := h.clear hnodup
      rw [List.count_cons_self] at hturns
      rw [ih h' hnodup' (by omega)]
      simp
    | program k =>
      by_cases hspare : k ∈ s.keys ∧ s.pc = .delitem k
      · -- `clear` will not find its key
        refine iff_of_false (fun heq => ?_) fun hall => hall.1 k hspare.1 hspare.2 rfl
        have hpc : (s.step (.program k)).pc = .delitem k := hspare.2
        exact foldl_step_of_gone (.inl hpc) hnodup.not_mem_erase turns (by rw [heq])
      · obtain ⟨h', hleft⟩ := h.program k fun hk hpc => hspare ⟨hk, hpc⟩
        rw [ih h' (hnodup.erase k) (Nat.le_trans hleft hturns), and_iff_right]
        rintro k' hk' hpc heq
        cases heq
        exact hspare ⟨hk', hpc⟩

/-- **Clearing.**  If `clear` gets as many turns as it has calls to make, it returns and leaves the
    map empty exactly if the program never deletes a key between the call in which `clear` gets it
    and the one in which it deletes it. -/
theorem clear_iff {keys : List K} (hnodup : keys.Nodup) {turns : List (Turn K)}
    (hturns : 2 * keys.length < turns.count .clear) :
    turns.foldl Clearing.step ⟨keys, .next none⟩ = ⟨[], .returned⟩
      ↔ Spares ⟨keys, .next none⟩ turns := by
  have hgood : Clearing.Good ⟨keys, .next none⟩ := fun k hk => by simp at hk
  exact foldl_step_iff hgood hnodup hturns

/-- The program deletes a key in front of the calls. -/
theorem clear_two : ([.program 7, .clear, .clear, .clear, .clear, .clear] : List (Turn Nat)).foldl
      Clearing.step ⟨[5, 7], .next none⟩ = ⟨[], .returned⟩ :=
  (clear_iff (by decide) (by decide)).mpr (by simp [Spares])

/-- The program deletes the key that `clear` is about to delete. -/
theorem clear_raises : (([.clear, .program 5, .clear] : List (Turn Nat)).foldl Clearing.step
    ⟨[5], .next none⟩).pc = .raised := by
  decide

end Bcc.Table
