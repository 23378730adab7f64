import Bcc.Load.Program

namespace Bcc.Load

open CText Run

/-!
# Loading a program — what is held

* `Balanced` — the variables say what is held: the temporary log buffer and the descriptor of a
  module's BTF;
* `finishLoad_released`, `loadProgram_spec` — what ends at `return_result` releases both.
-/

/-! ### The variables and the trace -/

namespace Vars

variable {K : Kernel} {s : Vars}

/-- What the function holds, according to its variables. -/
def held (s : Vars) : List Resource :=
  s.fd.toList.map .btfFd ++ s.tmpLogBuf.toList.map .logBuf

/-- The trace agrees with the variables. -/
def Balanced (s : Vars) : Prop := Holds s.trace s.held

/-- Releasing the temporary log buffer leaves the descriptor. -/
theorem Balanced.freeTmp (h : s.Balanced) : Holds s.freeTmp.trace (s.fd.toList.map .btfFd) := by
  unfold Balanced held at h
  unfold Vars.freeTmp
  cases hbuf : s.tmpLogBuf with
  | none => simpa [hbuf] using h
  | some k =>
    rw [hbuf] at h
    exact (h.perm List.perm_append_comm).release

/-- What ends at `return_result` releases everything. -/
theorem Balanced.returnResult (h : s.Balanced) : Released s.returnResult.2 := by
  have hfd : Balanced { s with
      fd := none, trace := s.trace ++ s.fd.toList.map fun fd => .release (.btfFd fd) } := by
    unfold Balanced held at h ⊢
    cases hfd : s.fd with
    | none => simpa [hfd] using h
    | some fd =>
      rw [hfd] at h
      exact h.release
  exact (Holds.released_iff hfd.freeTmp).mpr rfl

/-- A new temporary log buffer is held if there is one. -/
theorem Balanced.alloc (h : Holds s.trace (s.fd.toList.map .btfFd)) : (s.alloc K).Balanced := by
  unfold Vars.alloc Balanced held
  split
  · exact h.acquire.perm (List.perm_append_comm : ([_] ++ _).Perm (_ ++ [_]))
  · simpa using h

theorem load_failed_iff (e : Nat) : (s.load K).Failed e ↔
    (K.load s.loads s.logSize).ret < 0 ∧ (K.load s.loads s.logSize).errno = e := by
  refine and_congr_right fun hret => ?_
  have herrno : (s.load K).errno = (K.load s.loads s.logSize).errno := if_pos hret
  rw [herrno]

/-- An attempt to load the program changes nothing else. -/
theorem Balanced.load (h : s.Balanced) : (s.load K).Balanced := h

theorem Balanced.raiseLimit (h : s.Balanced) : (s.raiseLimit K).Balanced := by
  unfold Vars.raiseLimit
  split <;> exact h

theorem raiseLimit_trace : (s.raiseLimit K).trace = s.trace := by
  unfold Vars.raiseLimit
  split <;> rfl

end Vars

variable (K : Kernel) (c : Args)

/-- **The loop that doubles the log buffer ends.**  In the round with `2 ^ (16 + j)` bytes the
    kernel answers `ENOSPC` only if `j < 15`, so that the size never overflows. -/
theorem growLog_balanced (fuel j : Nat) (s : Vars) (hj : j ≤ 15) (hfuel : 16 ≤ j + fuel)
    (h : Holds s.trace (s.fd.toList.map .btfFd)) :
    ∃ s', growLog K fuel (2 ^ (16 + j)) s = .ok s' ∧ s'.Balanced := by
  induction fuel generalizing j s with
  | zero => omega
  | succ fuel ih =>
    have halloc : (s.alloc K).Balanced := Vars.Balanced.alloc h
    rw [growLog]
    split
    · exact ⟨_, rfl, halloc⟩
    dsimp only
    split
    · rename_i hfailed
      -- the kernel found the buffer too small
      obtain ⟨hret, herrno⟩ := (Vars.load_failed_iff ENOSPC).mp hfailed
      have hsize : 2 ^ (16 + j) < 2 ^ 31 := lt_trans (K.lt_limit _ _ hret herrno) K.limit_lt
      have hj' : 16 + j < 31 := (Nat.pow_lt_pow_iff_right (by omega)).mp hsize
      have hdouble : 2 ^ (16 + j) * 2 % 2 ^ 32 = 2 ^ (16 + (j + 1)) := by
        rw [← pow_succ, Nat.mod_eq_of_lt (Nat.pow_lt_pow_right (by omega) (by omega))]
        rfl
      rw [hdouble]
      exact ih (j + 1) _ (by omega) (by omega) (halloc.freeTmp)
    · exact ⟨_, rfl, halloc⟩

/-- **The end of the function releases everything.** -/
theorem finishLoad_released {s : Vars} (hs : s.Balanced) :
    ∃ ret t, finishLoad K c s = .ok (ret, t) ∧ Released t := by
  unfold finishLoad
  split
  · split
    · split
      · exact ⟨_, _, rfl, Vars.Balanced.returnResult hs⟩
      · exact ⟨_, _, rfl, hs.returnResult⟩
    · have hgrow : ∀ s' : Vars, s'.trace = s.freeTmp.trace → s'.fd = s.fd → ∃ ret t,
          (do return (← growLog K 32 logBufSize s').returnResult) = Except.ok (ret, t)
            ∧ Released t := by
        intro s' htrace hfd
        have hfree : Holds s'.trace (s'.fd.toList.map .btfFd) := by
          rw [htrace, hfd]
          exact hs.freeTmp
        obtain ⟨s'', heq, hs''⟩ := growLog_balanced K 32 0 s' (by omega) (by omega) hfree
        refine ⟨s''.ret, _, ?_, hs''.returnResult⟩
        rw [show logBufSize = 2 ^ (16 + 0) from rfl, heq]
        rfl
      dsimp only
      split
      · exact hgrow _ rfl rfl
      · exact hgrow _ rfl rfl
  · exact ⟨_, _, rfl, hs.returnResult⟩

/-! ### The attempts -/

/-- The size of the log buffer in all attempts but the last ones. -/
def firstSize : Nat :=
  if c.logLevel = 0 then 0
  else if 0 < c.logBufSize then c.logBufSize
  else if K.malloc 0 then logBufSize else 0

/-- The kernel refuses the `k`-th attempt. -/
def Refused (k e : Nat) : Prop :=
  (K.load k (firstSize K c)).ret < 0 ∧ (K.load k (firstSize K c)).errno = e

instance (k e : Nat) : Decidable (Refused K c k e) :=
  inferInstanceAs (Decidable (_ ∧ _))

/-- The last attempt with the name of the program. -/
def namedAttempt : Nat :=
  if c.funcInfo = true ∧ Refused K c 0 EINVAL then 1 else 0

/-- The last of the first three attempts. -/
def lastAttempt : Nat :=
  if c.named = true
      ∧ (Refused K c (namedAttempt K c) E2BIG ∨ Refused K c (namedAttempt K c) EINVAL) then
    namedAttempt K c + 1
  else namedAttempt K c

/-- After `EPERM`: raising the limit, or the attempt with it, fails with `E2BIG`. -/
def TooBigWithLimit (k : Nat) : Prop :=
  match K.getrlimit, K.setrlimit with
  | some e, _ => e = E2BIG
  | none, some e => e = E2BIG
  | none, none => Refused K c k E2BIG

instance (k : Nat) : Decidable (TooBigWithLimit K c k) := by
  unfold TooBigWithLimit
  split <;> infer_instance

/-- The function returns in front of `return_result`. -/
def EndsEarly : Prop :=
  Refused K c (lastAttempt K c) E2BIG
    ∨ Refused K c (lastAttempt K c) EPERM
      ∧ (c.allowRlimit = true → TooBigWithLimit K c (lastAttempt K c + 1))

/-- The state in front of the `k`-th attempt: what is held and the log are as in `s`. -/
structure Before (K : Kernel) (c : Args) (s : Vars) (k : Nat) (s' : Vars) : Prop where
  loads_eq : s'.loads = k
  size_eq : s'.logSize = firstSize K c
  trace_eq : s'.trace = s.trace
  fd_eq : s'.fd = s.fd
  buf_eq : s'.tmpLogBuf = s.tmpLogBuf

section Attempts

variable {K : Kernel} {c : Args} {s s' : Vars} {k : Nat}

theorem Before.next (h : Before K c s k s') : Before K c s (k + 1) (s'.load K) where
  loads_eq := congrArg (· + 1) h.loads_eq
  size_eq := h.size_eq
  trace_eq := h.trace_eq
  fd_eq := h.fd_eq
  buf_eq := h.buf_eq

theorem Before.failed_iff (h : Before K c s k s') (e : Nat) :
    (s'.load K).Failed e ↔ Refused K c k e := by
  rw [Vars.load_failed_iff, Refused, h.loads_eq, h.size_eq]

theorem Before.balanced (h : Before K c s k s') (hs : s.Balanced) : s'.Balanced := by
  unfold Vars.Balanced Vars.held
  rw [h.trace_eq, h.fd_eq, h.buf_eq]
  exact hs

/-- The first three attempts end with the attempt that the replies ask for. -/
theorem attempts_eq (h : Before K c s 0 s) :
    ∃ s', Before K c s (lastAttempt K c) s' ∧ attempts K c s = s'.load K := by
  unfold attempts lastAttempt
  have hnamed : ∃ s₁, Before K c s (namedAttempt K c) s₁
      ∧ (if c.funcInfo = true ∧ (s.load K).Failed EINVAL then (s.load K).load K else s.load K)
        = s₁.load K := by
    unfold namedAttempt
    simp only [h.failed_iff]
    split
    · exact ⟨_, h.next, rfl⟩
    · exact ⟨_, h, rfl⟩
  obtain ⟨s₁, hb, heq⟩ := hnamed
  simp only [heq, hb.failed_iff]
  split
  · exact ⟨_, hb.next, rfl⟩
  · exact ⟨_, hb, rfl⟩

/-- The limit is raised, or not. -/
theorem raiseLimit_failed_iff (h : Before K c s k s') (hret : (s'.load K).ret < 0) :
    ((s'.load K).raiseLimit K).Failed E2BIG ↔ TooBigWithLimit K c (k + 1) := by
  unfold Vars.raiseLimit TooBigWithLimit
  cases K.getrlimit with
  | some e => exact and_iff_right hret
  | none =>
    cases K.setrlimit with
    | some e => exact and_iff_right hret
    | none => exact h.next.failed_iff E2BIG

/-- **From the first attempt on**: the function ends, and releases everything unless it holds
    something at one of the early returns. -/
theorem loadProgram_spec (h : Before K c s 0 s) (hs : s.Balanced) :
    ∃ ret t, loadProgram K c s = .ok (ret, t) ∧ (Released t ↔ s.held = [] ∨ ¬ EndsEarly K c) := by
  obtain ⟨s₁, hb, heq⟩ := attempts_eq h
  have hs₁ : (s₁.load K).Balanced := (hb.balanced hs).load
  have hheld : (s₁.load K).held = s.held := by
    unfold Vars.held
    rw [hb.next.fd_eq, hb.next.buf_eq]
  have hearly : Released (s₁.load K).trace ↔ s.held = [] := by
    rw [← hheld]
    exact Holds.released_iff hs₁
  unfold loadProgram EndsEarly
  simp only [heq, hb.failed_iff]
  by_cases hperm : Refused K c (lastAttempt K c) EPERM
  · have hbig : ¬ Refused K c (lastAttempt K c) E2BIG := by
      intro h
      exact absurd (hperm.2.symm.trans h.2) (by decide)
    have hret : (s₁.load K).ret < 0 := ((hb.failed_iff EPERM).mpr hperm).1
    rw [if_pos hperm]
    by_cases hallow : c.allowRlimit = true
    · have hlimit := raiseLimit_failed_iff hb hret
      by_cases htoo : TooBigWithLimit K c (lastAttempt K c + 1)
      · -- the program is too large even with the limit raised
        rw [if_neg (by simp [hallow]), if_pos (hlimit.mpr htoo)]
        simp [hperm, htoo, Vars.raiseLimit_trace, hearly]
      · rw [if_neg (by simp [hallow]), if_neg (mt hlimit.mp htoo)]
        obtain ⟨ret, t, hok, hreleased⟩ := finishLoad_released K c hs₁.raiseLimit
        exact ⟨ret, t, hok, by simp [hreleased, hbig, hallow, htoo]⟩
    · simp [hperm, hallow, hearly]
  · rw [if_neg (fun h => hperm h.1), if_neg hperm]
    by_cases hbig : Refused K c (lastAttempt K c) E2BIG
    · rw [if_pos ((hb.failed_iff E2BIG).mpr hbig)]
      exact ⟨_, _, rfl, by simp [hbig, hearly]⟩
    · rw [if_neg (mt (hb.failed_iff E2BIG).mp hbig)]
      obtain ⟨ret, t, hok, hreleased⟩ := finishLoad_released K c hs₁
      exact ⟨ret, t, hok, by simp [hreleased, hbig, hperm]⟩

end Attempts

end Bcc.Load
