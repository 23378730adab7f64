import Mathlib.Algebra.Order.Group.Multiset
import Mathlib.Data.List.AList
import Mathlib.Tactic.Abel

namespace Run

open List

/-!
# Ledgers of things that are acquired and released

* `Ledger` — what was acquired, what was released, how often, and what is still held;
* `Moves` — a move acquires new things and gives some back; it may also release things and hold them
  all the same, which is then once too often;
* `balanced_run_iff` — a run.
-/

/-- What holds of each step of a run, with the state before it. -/
def Each {σ ι : Type*} (step : σ → ι → σ) (C : σ → ι → Prop) : σ → List ι → Prop
  | _, [] => True
  | s, i :: is => C s i ∧ Each step C (step s i) is

variable {σ ι : Type*}

theorem each_append {step : σ → ι → σ} {C : σ → ι → Prop} {s : σ} {is js : List ι} :
    Each step C s (is ++ js) ↔ Each step C s is ∧ Each step C (is.foldl step s) js := by
  induction is generalizing s with
  | nil => exact (and_iff_right trivial).symm
  | cons i is ih =>
    show C s i ∧ Each step C (step s i) (is ++ js) ↔ _
    rw [ih, ← and_assoc]
    rfl

/-- What follows from an invariant holds of each step. -/
theorem each_of_inv {step : σ → ι → σ} {C : σ → ι → Prop} {Inv : σ → Prop}
    (hstep : ∀ s i, Inv s → C s i ∧ Inv (step s i)) {s : σ} (hs : Inv s) (is : List ι) :
    Each step C s is := by
  induction is generalizing s with
  | nil => trivial
  | cons i is ih => exact ⟨(hstep s i hs).1, ih (hstep s i hs).2⟩

/-- If a step of which `C` does not hold spoils the state for good, the state at the end tells
    whether `C` holds of each step. -/
theorem each_iff_foldl {step : σ → ι → σ} {C : σ → ι → Prop} {Good Bad : σ → Prop} {is : List ι}
    (hgood : ∀ s, ∀ i ∈ is, Good s → C s i → Good (step s i))
    (hbad : ∀ s, ∀ i ∈ is, Good s → ¬ C s i → Bad (step s i))
    (hstays : ∀ s, ∀ i ∈ is, Bad s → Bad (step s i)) (hnot : ∀ s, Bad s → ¬ Good s) {s : σ}
    (hs : Good s) : Good (is.foldl step s) ↔ Each step C s is := by
  induction is generalizing s with
  | nil => exact iff_of_true hs trivial
  | cons i is ih =>
    have hspoilt : ∀ s, Bad s → Bad (is.foldl step s) := fun s hs =>
      List.foldlRecOn is step hs fun s hs i hi => hstays s i (mem_cons_of_mem _ hi) hs
    by_cases hC : C s i
    · have hs' := hgood s i mem_cons_self hs hC
      have hrest := ih (fun s j hj => hgood s j (mem_cons_of_mem _ hj))
        (fun s j hj => hbad s j (mem_cons_of_mem _ hj))
        (fun s j hj => hstays s j (mem_cons_of_mem _ hj)) hs'
      exact hrest.trans (and_iff_right hC).symm
    · have hs' := hspoilt _ (hbad s i mem_cons_self hs hC)
      exact iff_of_false (hnot _ hs') (fun h => hC h.1)

/-- The record that is found is the one that is erased. -/
theorem entries_perm_erase {κ β : Type*} [DecidableEq κ] {m : AList fun _ : κ => β} {k : κ} {b : β}
    (h : m.lookup k = some b) : m.entries.Perm (⟨k, b⟩ :: (m.erase k).entries) := by
  have hmem : k ∈ m.entries.keys :=
    AList.mem_keys.mp (AList.lookup_isSome.mp (Option.isSome_iff_exists.mpr ⟨b, h⟩))
  obtain ⟨b', front, back, -, hentries, herase⟩ := exists_of_kerase hmem
  -- keys are unique
  obtain rfl : b' = b := by
    have hb' : (⟨k, b'⟩ : Sigma fun _ : κ => β) ∈ m.entries := by
      rw [hentries]
      exact mem_append_right _ mem_cons_self
    exact Option.some.inj ((mem_dlookup_iff m.nodupKeys |>.mpr hb').symm.trans h)
  show m.entries.Perm (⟨k, b'⟩ :: List.kerase k m.entries)
  rw [herase, hentries]
  exact perm_middle

structure Ledger (α : Type*) where
  acquired : Multiset α
  released : Multiset α
  held : Multiset α

namespace Ledger

variable {α : Type*}

/-- What was released or will be. -/
def uses (l : Ledger α) : Multiset α := l.released + l.held

/-- The move acquires `new`, and keeps `extra` although it has released it. -/
structure Moves (l l' : Ledger α) (new extra : Multiset α) : Prop where
  nodup : new.Nodup
  fresh : ∀ x ∈ new, x ∉ l.acquired
  acquired : l'.acquired = l.acquired + new
  uses : l'.uses = l.uses + new + extra
  extra : ∀ x ∈ extra, x ∈ l'.acquired

/-- Each thing is acquired once, and released or held. -/
structure Books (l : Ledger α) : Prop where
  nodup : l.acquired.Nodup
  acquired_le : l.acquired ≤ l.uses
  mem_acquired : ∀ x ∈ l.uses, x ∈ l.acquired

/-- Nothing was released that is not acquired and gone. -/
def Balanced (l : Ledger α) : Prop := l.uses = l.acquired

variable {l l' : Ledger α} {new extra : Multiset α}

theorem Moves.refl (l : Ledger α) : Moves l l 0 0 :=
  ⟨Multiset.nodup_zero, nofun, (add_zero _).symm, by rw [add_zero, add_zero], nofun⟩

/-- Something new is held, or was released already. -/
theorem Moves.acquire (hnodup : new.Nodup) (hfresh : ∀ x ∈ new, x ∉ l.acquired)
    (hacquired : l'.acquired = l.acquired + new) (huses : l'.uses = l.uses + new) :
    Moves l l' new 0 :=
  ⟨hnodup, hfresh, hacquired, by rw [huses, add_zero], nofun⟩

/-- Something that is held was released. -/
theorem Books.touch (h : l.Books) (hheld : ∀ x ∈ extra, x ∈ l.held)
    (hacquired : l'.acquired = l.acquired) (huses : l'.uses = l.uses + extra) :
    Moves l l' 0 extra := by
  refine ⟨Multiset.nodup_zero, nofun, by rw [hacquired, add_zero], by rw [huses, add_zero],
    fun x hx => ?_⟩
  rw [hacquired]
  exact h.mem_acquired x (Multiset.mem_add.mpr (.inr (hheld x hx)))

/-- One move after the other. -/
theorem Moves.trans {l'' : Ledger α} {new' extra' : Multiset α} (h : Moves l l' new extra)
    (h' : Moves l' l'' new' extra') : Moves l l'' (new + new') (extra + extra') := by
  have hfresh : ∀ x ∈ new', x ∉ l.acquired ∧ x ∉ new := fun x hx => by
    have hnot := h'.fresh x hx
    rw [h.acquired, Multiset.mem_add, not_or] at hnot
    exact hnot
  refine ⟨?_, fun x hx => ?_, ?_, ?_, fun x hx => ?_⟩
  · refine (h.nodup.add_iff h'.nodup).mpr (Multiset.disjoint_right.mpr fun {x} hx => ?_)
    exact (hfresh x hx).2
  · rcases Multiset.mem_add.mp hx with hx | hx
    · exact h.fresh x hx
    · exact (hfresh x hx).1
  · rw [h'.acquired, h.acquired, add_assoc]
  · rw [h'.uses, h.uses]
    abel
  · rcases Multiset.mem_add.mp hx with hx | hx
    · rw [h'.acquired, Multiset.mem_add]
      exact .inl (h.extra x hx)
    · exact h'.extra x hx

/-- What is used too often, after a move. -/
theorem Moves.uses_eq (hmove : Moves l l' new extra) {d : Multiset α}
    (hd : l.uses = l.acquired + d) : l'.uses = l'.acquired + (d + extra) := by
  rw [hmove.uses, hmove.acquired, hd]
  abel

theorem Books.moves (h : l.Books) (hmove : Moves l l' new extra) : l'.Books := by
  refine ⟨?_, ?_, fun x hx => ?_⟩
  · rw [hmove.acquired]
    exact (h.nodup.add_iff hmove.nodup).mpr (Multiset.disjoint_right.mpr (hmove.fresh _))
  · obtain ⟨d, hd⟩ := Multiset.le_iff_exists_add.mp h.acquired_le
    exact Multiset.le_iff_exists_add.mpr ⟨_, hmove.uses_eq hd⟩
  · rw [hmove.uses, Multiset.mem_add, Multiset.mem_add] at hx
    rw [hmove.acquired, Multiset.mem_add]
    rcases hx with (hx | hx) | hx
    · exact .inl (h.mem_acquired x hx)
    · exact .inr hx
    · exact Multiset.mem_add.mp (hmove.acquired ▸ hmove.extra x hx)

/-- A move keeps the balance if it keeps nothing that it has released. -/
theorem Books.balanced_moves_iff (h : l.Books) (hmove : Moves l l' new extra) :
    l'.Balanced ↔ l.Balanced ∧ extra = 0 := by
  obtain ⟨d, hd⟩ := Multiset.le_iff_exists_add.mp h.acquired_le
  unfold Balanced
  rw [hmove.uses_eq hd, hd, add_eq_left, add_eq_left, ← Multiset.card_eq_zero, Multiset.card_add,
    Nat.add_eq_zero_iff, Multiset.card_eq_zero, Multiset.card_eq_zero]

/-- When everything that is held is released at the end, the balance says that everything was
    released once. -/
theorem Books.balanced_iff_count [DecidableEq α] (h : l.Books) :
    l.Balanced ↔ ∀ x ∈ l.acquired, l.uses.count x = 1 := by
  constructor
  · intro heq x hx
    rw [show l.uses = l.acquired from heq]
    exact Multiset.count_eq_one_of_mem h.nodup hx
  · intro hcount
    apply Multiset.ext.mpr
    intro x
    by_cases hx : x ∈ l.acquired
    · rw [hcount x hx, Multiset.count_eq_one_of_mem h.nodup hx]
    · rw [Multiset.count_eq_zero_of_notMem hx,
        Multiset.count_eq_zero_of_notMem fun hu => hx (h.mem_acquired x hu)]

/-- In balance, what is held is what was acquired and not released. -/
theorem Books.mem_held_iff (h : l.Books) (hbalanced : l.Balanced) (x : α) :
    x ∈ l.held ↔ x ∈ l.acquired ∧ x ∉ l.released := by
  have hnodup : (l.released + l.held).Nodup := by
    rw [show l.released + l.held = l.acquired from hbalanced]
    exact h.nodup
  have hmem : x ∈ l.released + l.held ↔ x ∈ l.acquired := by
    rw [show l.released + l.held = l.acquired from hbalanced]
  rw [← hmem, Multiset.mem_add]
  constructor
  · intro hheld
    have hdisjoint := Multiset.disjoint_of_nodup_add hnodup
    exact ⟨.inr hheld, fun hrel => Multiset.disjoint_right.mp hdisjoint hheld hrel⟩
  · rintro ⟨hrel | hheld, hnot⟩
    · exact absurd hrel hnot
    · exact hheld

/-! ### Runs -/

section Runs

variable {σ ι : Type*} {step : σ → ι → σ} {Inv : σ → Prop} {C : σ → ι → Prop}
  {view : σ → Ledger α}

/-- **Run rule.** If the steps of a system move its ledger, and keep nothing that they have released
    exactly if `C` holds of them, then a run keeps the balance exactly if `C` holds of each step. -/
theorem balanced_run_iff
    (hstep : ∀ s i, Inv s → (view s).Books → Inv (step s i)
      ∧ ∃ new extra, Moves (view s) (view (step s i)) new extra ∧ (extra = 0 ↔ C s i))
    {s : σ} (hs : Inv s) (hbooks : (view s).Books) (is : List ι) :
    Inv (is.foldl step s) ∧ (view (is.foldl step s)).Books
      ∧ ((view (is.foldl step s)).Balanced ↔ (view s).Balanced ∧ Each step C s is) := by
  induction is generalizing s with
  | nil => exact ⟨hs, hbooks, (and_iff_left trivial).symm⟩
  | cons i is ih =>
    obtain ⟨hs', new, extra, hmove, hC⟩ := hstep s i hs hbooks
    obtain ⟨hinv, hbooks', hiff⟩ := ih hs' (hbooks.moves hmove)
    refine ⟨hinv, hbooks', hiff.trans ?_⟩
    rw [hbooks.balanced_moves_iff hmove, hC, and_assoc]
    rfl

/-- In the end, when everything that is held is released, everything was released once exactly if
    `C` holds of each step. -/
theorem once_run_iff [DecidableEq α]
    (hstep : ∀ s i, Inv s → (view s).Books → Inv (step s i)
      ∧ ∃ new extra, Moves (view s) (view (step s i)) new extra ∧ (extra = 0 ↔ C s i))
    {s : σ} (hs : Inv s) (hbooks : (view s).Books) (hbalanced : (view s).Balanced) (is : List ι)
    {acquired released : List α} (hacquired : acquired = (view (is.foldl step s)).acquired)
    (hreleased : released = (view (is.foldl step s)).uses) :
    (∀ x ∈ acquired, released.count x = 1) ↔ Each step C s is := by
  obtain ⟨-, hbooks', hiff⟩ := balanced_run_iff hstep hs hbooks is
  rw [← and_iff_right hbalanced (b := Each step C s is), ← hiff, hbooks'.balanced_iff_count,
    ← hacquired, ← hreleased]
  simp

end Runs

end Ledger

end Run
