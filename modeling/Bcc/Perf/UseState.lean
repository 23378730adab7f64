import Mathlib.Logic.Function.Basic
import Mathlib.Logic.Relation

namespace Bcc.Perf.UseState

open Function

/-!
# Perf events — a reader that is freed while it is used

`rb_use_state` is taken by a compare-and-swap, for reading or for the unmap.  A callback may free
the reader whose call it is in, so `perf_reader_free` does not wait if `rb_read_tid` is its own
thread. `perf_reader_event_read` stores the thread before it knows whether it may read.

* `Access` — the accesses of a thread to the shared variables, one by one;
* `FreesCarefully` — who frees the reader is in a callback, or not in `rb_read_tid`;
* `unmap_exclusive` — then nobody else is reading at the unmap.
-/

/-! ### The accesses -/

/-- `rb_use_state`. -/
inductive Use where
  | notUsed
  | usedInMunmap
  | usedInRead
  deriving DecidableEq, Repr

/-- Where a thread is.  Inside its reading section it is `out` while it reads or is in a callback,
    which may call the functions again. -/
inductive Pc where
  | out
  /-- In `perf_reader_event_read`, with `rb_read_tid` stored. -/
  | stored
  /-- In `perf_reader_event_read`, with `rb_use_state` released. -/
  | released
  /-- In `perf_reader_free`, before the compare-and-swap. -/
  | swapping
  /-- In `perf_reader_free`, after a compare-and-swap that failed. -/
  | comparing
  /-- In `perf_reader_free`, before `munmap`. -/
  | unmap
  deriving DecidableEq, Repr

/-- A thread, and whether it is inside its reading section. -/
structure Thread where
  pc : Pc
  reading : Bool
  deriving DecidableEq, Repr

variable {Tid : Type*} [DecidableEq Tid]

/-- `readTid` is `none` for the zero of `rb_read_tid`. -/
structure State (Tid : Type*) where
  use : Use
  readTid : Option Tid
  threads : Tid → Thread

/-- A reader that `perf_reader_new` has just made. -/
def start : State Tid := ⟨.notUsed, none, fun _ => ⟨.out, false⟩⟩

/-- The thread `t` goes on. -/
def State.set (s : State Tid) (t : Tid) (thread : Thread) : State Tid :=
  { s with threads := update s.threads t thread }

/-- The accesses of the thread `t`. -/
inductive Access (t : Tid) (s : State Tid) : State Tid → Prop
  /-- `perf_reader_event_read` is called, and stores the thread. -/
  | storeTid (pc : (s.threads t).pc = .out) :
      Access t s { s.set t { s.threads t with pc := .stored } with readTid := some t }
  /-- Its compare-and-swap starts the reading section. -/
  | take (pc : (s.threads t).pc = .stored) (free : s.use = .notUsed) :
      Access t s { s.set t ⟨.out, true⟩ with use := .usedInRead }
  /-- Its compare-and-swap fails, and it returns. -/
  | giveUp (pc : (s.threads t).pc = .stored) (taken : s.use ≠ .notUsed) :
      Access t s (s.set t { s.threads t with pc := .out })
  /-- The reading section ends. -/
  | release (pc : (s.threads t).pc = .out) (reading : (s.threads t).reading) :
      Access t s { s.set t { s.threads t with pc := .released, reading := false } with
        use := .notUsed }
  | clearTid (pc : (s.threads t).pc = .released) :
      Access t s { s.set t { s.threads t with pc := .out } with readTid := none }
  /-- `perf_reader_free` is called. -/
  | callFree (pc : (s.threads t).pc = .out) :
      Access t s (s.set t { s.threads t with pc := .swapping })
  /-- Its compare-and-swap takes the reader. -/
  | takeFree (pc : (s.threads t).pc = .swapping) (free : s.use = .notUsed) :
      Access t s { s.set t { s.threads t with pc := .unmap } with use := .usedInMunmap }
  /-- Its compare-and-swap fails. -/
  | missFree (pc : (s.threads t).pc = .swapping) (taken : s.use ≠ .notUsed) :
      Access t s (s.set t { s.threads t with pc := .comparing })
  /-- `rb_read_tid` is the thread itself. -/
  | sameTid (pc : (s.threads t).pc = .comparing) (same : s.readTid = some t) :
      Access t s (s.set t { s.threads t with pc := .unmap })
  /-- It is another one, and the loop goes on. -/
  | otherTid (pc : (s.threads t).pc = .comparing) (other : s.readTid ≠ some t) :
      Access t s (s.set t { s.threads t with pc := .swapping })
  /-- `munmap`, and `perf_reader_free` returns. -/
  | unmap (pc : (s.threads t).pc = .unmap) :
      Access t s (s.set t { s.threads t with pc := .out })

/-- An access of some thread. -/
def Step (s s' : State Tid) : Prop := ∃ t, Access t s s'

/-- No thread that is not reading calls `perf_reader_free` while `rb_read_tid` is the thread: after
    its `perf_reader_event_read` has found the reader in use, and before the next one is called or
    a reading section is left. -/
def FreesCarefully (s s' : State Tid) : Prop :=
  ∀ t, (s.threads t).pc = .out → (s'.threads t).pc = .swapping →
    (s.threads t).reading = true ∨ s.readTid ≠ some t

/-! ### The invariant -/

/-- What the state has to do with where the thread `t` is. -/
structure ThreadInv (use : Use) (readTid : Option Tid) (t : Tid) (thread : Thread) : Prop where
  reading : thread.reading = true → use = .usedInRead
  unmap : thread.pc = .unmap → thread.reading = true ∨ use = .usedInMunmap
  /-- Nobody else stores a thread in `rb_read_tid`, so it stays out of it while it frees. -/
  free : thread.pc = .swapping ∨ thread.pc = .comparing →
    thread.reading = true ∨ readTid ≠ some t

structure Inv (s : State Tid) : Prop where
  thread : ∀ t, ThreadInv s.use s.readTid t (s.threads t)
  unique : ∀ t t', (s.threads t).reading = true → (s.threads t').reading = true → t = t'

omit [DecidableEq Tid] in
theorem start_inv : Inv (start : State Tid) :=
  ⟨fun _ => ⟨nofun, nofun, by simp [start]⟩, nofun⟩

section Steps

variable {s s' : State Tid} {t : Tid}

variable {readTid : Option Tid}

/-- A step of the thread `t` is looked at from it and from the others. -/
theorem Inv.set (h : Inv s) {use : Use} {thread : Thread} (hself : ThreadInv use readTid t thread)
    (hothers : ∀ t', t' ≠ t → ThreadInv use readTid t' (s.threads t'))
    (hunique : thread.reading = true → ∀ t', t' ≠ t → (s.threads t').reading = false) :
    Inv ⟨use, readTid, update s.threads t thread⟩ := by
  refine ⟨fun t' => ?_, fun t₁ t₂ h₁ h₂ => ?_⟩
  · by_cases ht : t' = t
    · subst ht
      show ThreadInv use readTid t' (update s.threads t' thread t')
      rw [update_self]
      exact hself
    · show ThreadInv use readTid t' (update s.threads t thread t')
      rw [update_of_ne ht]
      exact hothers t' ht
  · dsimp only at h₁ h₂
    by_cases ht₁ : t₁ = t <;> by_cases ht₂ : t₂ = t
    · rw [ht₁, ht₂]
    · subst ht₁
      rw [update_self] at h₁
      rw [update_of_ne ht₂, hunique h₁ t₂ ht₂] at h₂
      cases h₂
    · subst ht₂
      rw [update_self] at h₂
      rw [update_of_ne ht₁, hunique h₂ t₁ ht₁] at h₁
      cases h₁
    · rw [update_of_ne ht₁] at h₁
      rw [update_of_ne ht₂] at h₂
      exact h.unique t₁ t₂ h₁ h₂

omit [DecidableEq Tid] in
theorem Inv.others (h : Inv s) (hreading : (s.threads t).reading = true) (t' : Tid) (ht : t' ≠ t) :
    (s.threads t').reading = false := by
  by_contra hr
  exact ht (h.unique t' t (eq_true_of_ne_false hr) hreading)

omit [DecidableEq Tid] in
/-- While `rb_use_state` is free, no thread is reading, and none is about to unmap. -/
theorem ThreadInv.of_notUsed {thread : Thread} (h : ThreadInv .notUsed readTid t thread)
    (use : Use) : ThreadInv use readTid t thread := by
  have hreading : thread.reading ≠ true := fun hr => nomatch h.reading hr
  refine ⟨fun hr => absurd hr hreading, fun hpc => ?_, h.free⟩
  rcases h.unmap hpc with hr | hu
  · exact absurd hr hreading
  · cases hu

/-- **One access** keeps the invariant. -/
theorem access_inv (h : Inv s) (hcare : FreesCarefully s s') (hstep : Access t s s') : Inv s' := by
  have hself := h.thread t
  have hsame : ∀ t', t' ≠ t → ThreadInv s.use s.readTid t' (s.threads t') := fun t' _ => h.thread t'
  cases hstep with
  | storeTid pc =>
    refine h.set ⟨hself.reading, nofun, nofun⟩ (fun t' ht => ?_) h.others
    refine { h.thread t' with free := fun _ => .inr fun htid => ?_ }
    exact ht (Option.some.inj htid).symm
  | take pc free =>
    have hfree : ∀ t', ThreadInv .notUsed s.readTid t' (s.threads t') := fun t' =>
      free ▸ h.thread t'
    refine h.set ⟨fun _ => rfl, nofun, nofun⟩
      (fun t' _ => (hfree t').of_notUsed _) fun _ t' _ => ?_
    exact eq_false_of_ne_true fun hr => nomatch (hfree t').reading hr
  | giveUp pc taken => exact h.set ⟨hself.reading, nofun, nofun⟩ hsame h.others
  | release pc reading =>
    refine h.set ⟨nofun, nofun, nofun⟩ (fun t' ht => ?_) nofun
    -- the others are neither reading nor at an unmap, which would need the reader
    have hr := h.others reading t' ht
    refine ⟨fun hr' => ?_, fun hpc => ?_, (h.thread t').free⟩
    · rw [hr] at hr'
      cases hr'
    · rcases (h.thread t').unmap hpc with hr' | hu
      · exact .inl hr'
      · cases (hself.reading reading).symm.trans hu
  | clearTid pc =>
    exact h.set ⟨hself.reading, nofun, nofun⟩
      (fun t' _ => { h.thread t' with free := fun _ => .inr nofun }) h.others
  | callFree pc =>
    have hfree : (s.threads t).reading = true ∨ s.readTid ≠ some t := by
      apply hcare t pc
      show (update s.threads t _ t).pc = .swapping
      rw [update_self]
    exact h.set ⟨hself.reading, nofun, fun _ => hfree⟩ hsame h.others
  | takeFree pc free =>
    have hfree : ∀ t', ThreadInv .notUsed s.readTid t' (s.threads t') := fun t' =>
      free ▸ h.thread t'
    have hreading : (s.threads t).reading ≠ true := fun hr => nomatch (hfree t).reading hr
    exact h.set ⟨fun hr => absurd hr hreading, fun _ => .inr rfl, nofun⟩
      (fun t' _ => (hfree t').of_notUsed _) h.others
  | missFree pc taken =>
    exact h.set ⟨hself.reading, nofun, fun _ => hself.free (.inl pc)⟩ hsame h.others
  | sameTid pc same =>
    -- it is in `rb_read_tid` because it is reading
    have hreading : (s.threads t).reading = true :=
      (hself.free (.inr pc)).resolve_right (not_not.mpr same)
    exact h.set ⟨hself.reading, fun _ => .inl hreading, nofun⟩ hsame h.others
  | otherTid pc other =>
    exact h.set ⟨hself.reading, nofun, fun _ => .inr other⟩ hsame h.others
  | unmap pc => exact h.set ⟨hself.reading, nofun, nofun⟩ hsame h.others

theorem run_inv
    (hrun : Relation.ReflTransGen (fun s s' => Step s s' ∧ FreesCarefully s s') start s) :
    Inv s := by
  induction hrun with
  | refl => exact start_inv
  | tail _ hstep ih =>
    obtain ⟨⟨t, haccess⟩, hcare⟩ := hstep
    exact access_inv ih hcare haccess

end Steps

/-! ### The unmap -/

/-- **No other reader.** In every run in which no thread frees the reader, outside a callback, while
    a read that found it in use has left the thread in `rb_read_tid`: when a thread is about to
    unmap, no other thread is reading. -/
theorem unmap_exclusive {s : State Tid}
    (hrun : Relation.ReflTransGen (fun s s' => Step s s' ∧ FreesCarefully s s') start s)
    (t t' : Tid) (hunmap : (s.threads t).pc = .unmap) (hne : t' ≠ t) :
    (s.threads t').reading = false := by
  have h := run_inv hrun
  rcases (h.thread t).unmap hunmap with hreading | huse
  · exact h.others hreading t' hne
  · apply eq_false_of_ne_true
    intro hreading
    cases huse.symm.trans ((h.thread t').reading hreading)

/-! ### Two threads -/

/-- A thread frees the reader in a callback, after the other one has failed to read. -/
theorem unmap_exclusive_in_callback :
    ∃ s : State Bool,
      Relation.ReflTransGen (fun s s' => Step s s' ∧ FreesCarefully s s') start s
      ∧ (s.threads true).pc = .unmap ∧ (s.threads true).reading = true
      ∧ (s.threads false).reading = false := by
  have hrun : Relation.ReflTransGen (fun s s' => Step s s' ∧ FreesCarefully s s')
      (start : State Bool) _ :=
    .tail (.tail (.tail (.tail (.tail (.tail (.single ⟨⟨false, .storeTid rfl⟩, nofun⟩)
      ⟨⟨true, .storeTid rfl⟩, by unfold FreesCarefully; decide⟩)
      ⟨⟨true, .take rfl rfl⟩, by unfold FreesCarefully; decide⟩)
      ⟨⟨false, .giveUp rfl nofun⟩, by unfold FreesCarefully; decide⟩)
      ⟨⟨true, .callFree rfl⟩, by unfold FreesCarefully; decide⟩)
      ⟨⟨true, .missFree rfl nofun⟩, by unfold FreesCarefully; decide⟩)
      ⟨⟨true, .sameTid rfl rfl⟩, by unfold FreesCarefully; decide⟩
  exact ⟨_, hrun, rfl, rfl, unmap_exclusive hrun true false rfl nofun⟩

/-- The first thread is reading when the second one tries to, finds the reader in use, and frees it:
    `rb_read_tid` is the second thread, so it does not wait. -/
theorem not_unmap_exclusive_after_failed_read :
    ∃ s : State Bool, Relation.ReflTransGen Step start s ∧ (s.threads true).pc = .unmap
      ∧ (s.threads false).reading = true := by
  refine ⟨_, .tail (.tail (.tail (.tail (.tail (.tail (.single ⟨false, .storeTid rfl⟩)
    ⟨false, .take rfl rfl⟩) ⟨true, .storeTid rfl⟩) ⟨true, .giveUp rfl nofun⟩)
    ⟨true, .callFree rfl⟩) ⟨true, .missFree rfl nofun⟩) ⟨true, .sameTid rfl rfl⟩, rfl, rfl⟩

end Bcc.Perf.UseState
