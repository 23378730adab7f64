import Bcc.Load.Balanced
import Bcc.Load.Lookup

namespace Bcc.Load

open CText Run

/-!
# Loading a program — what is released

Three returns of `bcc_prog_load_xattr` do not go through `return_result`: after a lookup that
failed, after `EPERM` if the limit may not be raised, and after `E2BIG`.

* `TempBuffer`, `HoldsAny` — what is held at these returns;
* `Careful`, `bccProgLoadXattr_released_iff` — exactly when the function ends, within bounds,
  with everything released.
-/

/-! ### The condition -/

/-- A temporary log buffer is in use from the start. -/
def TempBuffer (K : Kernel) (c : Args) : Prop :=
  0 < c.logLevel ∧ c.logBufSize = 0 ∧ K.malloc 0 = true

/-- The module of the function that is looked up, for programs that have one. -/
def Args.lookedUp (c : Args) : Option (List Char) :=
  if c.named = true ∧ (c.progType = .tracing ∨ c.progType = .lsm) then
    c.progName.map fun name => modulePart name.chars
  else none

/-- The temporary log buffer is in use from the start, or the lookup leaves a descriptor. -/
def HoldsAny (K : Kernel) (c : Args) : Prop :=
  TempBuffer K c ∨ ∃ m ∈ c.lookedUp, FindsFd K m

/-- The inputs on which nothing goes wrong. -/
structure Careful (K : Kernel) (c : Args) : Prop where
  /-- The module in the name is followed by `__`, and fits into `mod_name`. -/
  fits : ∀ name ∈ c.progName, c.named = true → ModuleFits name.chars
  /-- The BTF of a module that is there can be loaded. -/
  loads : ∀ m ∈ c.lookedUp, ¬ LacksBtf K m
  /-- The lookup succeeds if a log buffer is held. -/
  finds : TempBuffer K c → ∀ m ∈ c.lookedUp, Finds K m
  /-- The attempts do not end with an early return if something is held. -/
  ends : HoldsAny K c → ¬ EndsEarly K c

/-! ### From the start to the attempts -/

/-- The start: what is held is the temporary log buffer. -/
theorem setupLog_spec (K : Kernel) (c : Args) :
    (setupLog K c).Balanced ∧ Before K c (setupLog K c) 0 (setupLog K c)
      ∧ (setupLog K c).fd = none ∧ ((setupLog K c).tmpLogBuf = none ↔ ¬ TempBuffer K c) := by
  unfold setupLog TempBuffer
  by_cases hlevel : 0 < c.logLevel
  · by_cases huser : 0 < c.logBufSize
    · have hsize : firstSize K c = c.logBufSize := by
        rw [firstSize, if_neg (by omega), if_pos huser]
      simp only [if_pos hlevel, if_pos huser]
      exact ⟨.nil, ⟨rfl, hsize.symm, rfl, rfl, rfl⟩, trivial, iff_of_true trivial (by omega)⟩
    · cases hmalloc : K.malloc 0 with
      | true =>
        have hsize : firstSize K c = logBufSize := by
          rw [firstSize, if_neg (by omega), if_neg huser, if_pos hmalloc]
        simp only [if_pos hlevel, if_neg huser, Vars.alloc, hmalloc, if_true]
        refine ⟨Holds.nil.acquire, ⟨rfl, hsize.symm, rfl, rfl, rfl⟩, rfl, ?_⟩
        exact iff_of_false (by simp) (by simp; omega)
      | false =>
        have hsize : firstSize K c = 0 := by
          rw [firstSize, if_neg (by omega), if_neg huser, if_neg (by simp [hmalloc])]
        simp only [if_pos hlevel, if_neg huser, Vars.alloc, hmalloc]
        exact ⟨.nil, ⟨rfl, hsize.symm, rfl, rfl, rfl⟩, rfl, iff_of_true rfl (by simp)⟩
  · have hsize : firstSize K c = 0 := by
      rw [firstSize, if_pos (by omega)]
    simp only [if_neg hlevel]
    exact ⟨.nil, ⟨rfl, hsize.symm, rfl, rfl, rfl⟩, trivial, iff_of_true trivial (by omega)⟩

variable {K : Kernel} {c : Args}

/-- From the first attempt on, with what is held. -/
theorem loadProgram_released_iff {s : Vars} (h : Before K c s 0 s) (hs : s.Balanced)
    (hheld : s.held = [] ↔ ¬ HoldsAny K c) :
    (∃ ret t, loadProgram K c s = .ok (ret, t) ∧ Released t)
      ↔ (HoldsAny K c → ¬ EndsEarly K c) := by
  obtain ⟨ret, t, heq, hreleased⟩ := loadProgram_spec h hs
  rw [heq, imp_iff_not_or, ← hheld, ← hreleased]
  constructor
  · rintro ⟨ret', t', hok, ht⟩
    cases hok
    exact ht
  · exact fun ht => ⟨ret, t, rfl, ht⟩

/-- Without a lookup, only the temporary log buffer is held. -/
theorem loadProgram_setup_iff (hnone : c.lookedUp = none) :
    (∃ ret t, loadProgram K c (setupLog K c) = .ok (ret, t) ∧ Released t)
      ↔ (HoldsAny K c → ¬ EndsEarly K c) := by
  obtain ⟨hs, hb, hfd, hbuf⟩ := setupLog_spec K c
  refine loadProgram_released_iff hb hs ?_
  simp [Vars.held, HoldsAny, hnone, hfd, hbuf]

/-- After a lookup that found its function. -/
theorem loadProgram_found_iff {m : List Char} (hm : c.lookedUp = some m) {l : Lookup}
    (hreplay : replay [] l.trace = some (l.fd.toList.map .btfFd))
    (hfd : l.fd.isSome = true ↔ FindsFd K m) :
    (∃ ret t, loadProgram K c { setupLog K c with
        fd := l.fd, trace := (setupLog K c).trace ++ l.trace } = .ok (ret, t) ∧ Released t)
      ↔ (HoldsAny K c → ¬ EndsEarly K c) := by
  obtain ⟨hs, hb, hnone, hbuf⟩ := setupLog_spec K c
  refine loadProgram_released_iff ⟨hb.loads_eq, hb.size_eq, rfl, rfl, rfl⟩ ?_ ?_
  · unfold Vars.Balanced Vars.held at hs ⊢
    rw [hnone] at hs
    exact hs.append hreplay
  · have hnofd : l.fd = none ↔ ¬ FindsFd K m := by
      rw [← hfd]
      simp
    simp [Vars.held, HoldsAny, hm, hbuf, hnofd, and_comm]

/-- After a lookup that failed, the function returns at once. -/
theorem released_failed_iff {l : Lookup}
    (hreplay : replay [] l.trace = some (l.fd.toList.map .btfFd)) (hfd : l.fd = none) :
    Released ((setupLog K c).trace ++ l.trace) ↔ ¬ TempBuffer K c := by
  obtain ⟨hs, hb, hnone, hbuf⟩ := setupLog_spec K c
  rw [(hs.append hreplay).released_iff, Vars.held, hnone, hfd, ← hbuf]
  simp

/-- **From the lookup on.** -/
theorem lookupAndLoad_released_iff {m : List Char} (hm : c.lookedUp = some m) (name : List Char)
    (nameOffset : Nat) :
    (∃ ret t, lookupAndLoad K c (setupLog K c) name m nameOffset = .ok (ret, t) ∧ Released t)
      ↔ ¬ LacksBtf K m ∧ (TempBuffer K c → Finds K m) ∧ (HoldsAny K c → ¬ EndsEarly K c) := by
  obtain ⟨newName, hcopy⟩ := copyName_ok name nameOffset
  obtain ⟨hlacks, hlook⟩ := findBtfId_spec K m
  unfold lookupAndLoad
  by_cases hl : LacksBtf K m
  · rw [hlacks hl]
    exact iff_of_false (by simp) fun h => h.1 hl
  obtain ⟨l, hfound, hreplay, hfd, hret⟩ := hlook hl
  simp only [hfound, hcopy, ok_bind]
  by_cases hneg : l.ret < 0
  · -- the early return keeps a temporary log buffer
    have hfinds : ¬ Finds K m := mt hret.mpr (by omega)
    have hnofd : ¬ FindsFd K m := fun h => hfinds (.inl h)
    have hlfd : l.fd = none := by
      rw [← hfd] at hnofd
      simpa using hnofd
    have hheld : HoldsAny K c ↔ TempBuffer K c := by simp [HoldsAny, hm, hnofd]
    rw [if_pos hneg, hheld]
    constructor
    · rintro ⟨ret, t, hok, ht⟩
      cases hok
      have hbuf := (released_failed_iff hreplay hlfd).mp ht
      exact ⟨hl, fun h => absurd h hbuf, fun h => absurd h hbuf⟩
    · rintro ⟨-, hbuf, -⟩
      exact ⟨_, _, rfl, (released_failed_iff hreplay hlfd).mpr (mt hbuf hfinds)⟩
  · have hfinds : Finds K m := hret.mp (by omega)
    rw [if_neg hneg]
    simp only [hl, hfinds, not_false_eq_true, implies_true, true_and]
    exact loadProgram_found_iff hm hreplay hfd

/-! ### The whole function -/

/-- The conditions, if a function is looked up. -/
theorem careful_iff_of_lookedUp {m : List Char} (hm : c.lookedUp = some m)
    (hfits : ∀ name ∈ c.progName, c.named = true → ModuleFits name.chars) :
    Careful K c ↔ ¬ LacksBtf K m ∧ (TempBuffer K c → Finds K m)
      ∧ (HoldsAny K c → ¬ EndsEarly K c) := by
  constructor
  · intro h
    exact ⟨h.loads m hm, fun hbuf => h.finds hbuf m hm, h.ends⟩
  · rintro ⟨hloads, hfinds, hends⟩
    refine ⟨hfits, ?_, ?_, hends⟩
    · intro m' hm'
      cases hm.symm.trans hm'
      exact hloads
    · intro hbuf m' hm'
      cases hm.symm.trans hm'
      exact hfinds hbuf

/-- The conditions, if nothing is looked up. -/
theorem careful_iff_of_none (hnone : c.lookedUp = none)
    (hfits : ∀ name ∈ c.progName, c.named = true → ModuleFits name.chars) :
    Careful K c ↔ (HoldsAny K c → ¬ EndsEarly K c) := by
  refine ⟨fun h => h.ends, fun h => ⟨hfits, ?_, ?_, h⟩⟩
  · simp [hnone]
  · simp [hnone]

/-- **When nothing leaks.**  `bcc_prog_load_xattr` ends within the bounds of its arrays, with
    its temporary log buffer freed exactly once and the descriptor of the module's BTF closed,
    exactly on the inputs that are `Careful`. -/
theorem bccProgLoadXattr_released_iff (K : Kernel) (c : Args) :
    (∃ ret t, bccProgLoadXattr K c = .ok (ret, t) ∧ Released t) ↔ Careful K c := by
  cases hname : c.progName with
  | none =>
    have hnone : c.lookedUp = none := by simp [Args.lookedUp, hname]
    simp only [bccProgLoadXattr, hname]
    rw [loadProgram_setup_iff hnone, careful_iff_of_none hnone (by simp [hname])]
  | some name =>
    cases hnamed : c.named with
    | false =>
      have hnone : c.lookedUp = none := by simp [Args.lookedUp, hnamed]
      simp only [bccProgLoadXattr, hname, hnamed]
      rw [careful_iff_of_none hnone (by simp [hnamed])]
      exact loadProgram_setup_iff hnone
    | true =>
      obtain ⟨hok, herr⟩ := cutName_spec name.chars
      by_cases hfits : ModuleFits name.chars
      · have hall : ∀ name ∈ c.progName, c.named = true → ModuleFits name.chars := by
          simpa [hname] using fun _ => hfits
        obtain ⟨off, hcut⟩ := hok hfits
        obtain ⟨newName, hcopy⟩ := copyName_ok name.chars off
        simp only [bccProgLoadXattr, hname, hnamed, hcut, hcopy, ok_bind]
        by_cases htype : c.progType = .tracing ∨ c.progType = .lsm
        · have hm : c.lookedUp = some (modulePart name.chars) := by
            rw [Args.lookedUp, if_pos ⟨hnamed, htype⟩, hname]
            rfl
          rw [careful_iff_of_lookedUp hm hall, if_pos htype]
          exact lookupAndLoad_released_iff hm name.chars off
        · have hnone : c.lookedUp = none := by simp [Args.lookedUp, htype]
          rw [careful_iff_of_none hnone hall, if_neg htype]
          exact loadProgram_setup_iff hnone
      · obtain ⟨e, hcut⟩ := herr hfits
        simp only [bccProgLoadXattr, hname, hnamed, hcut]
        exact iff_of_false (by simp) fun h => hfits (h.fits name hname hnamed)

/-- A kernel that finds every program too large. -/
def tooLargeKernel : Kernel where
  malloc _ := true
  load _ _ := ⟨-1, E2BIG⟩
  getrlimit := none
  setrlimit := none
  vmlinuxId := 1
  rounds := []
  noNext := 1
  limit := 0
  limit_lt := by decide
  lt_limit := by
    intro _ _ _ h
    exact absurd h (by decide)

/-- A program that is too large keeps the temporary log buffer; so does the name of a function
    that is not found, and a name without a second `__` has no end to search for. -/
theorem bccProgLoadXattr_leaks :
    bccProgLoadXattr tooLargeKernel ⟨.other, none, false, 1, 0, true⟩
        = .ok (-1, [.acquire (.logBuf 0)])
      ∧ bccProgLoadXattr { tooLargeKernel with vmlinuxId := -3 }
          ⟨.tracing, some ⟨"kfunc__vmlinux__nothing".toList, by decide⟩, false, 1, 0, true⟩
        = .ok (-3, [.acquire (.logBuf 0)])
      ∧ bccProgLoadXattr tooLargeKernel
          ⟨.tracing, some ⟨"kfunc__vfs_read".toList, by decide⟩, false, 0, 0, true⟩
        = .error .absentValue := by
  decide +kernel

end Bcc.Load
