import Bcc.Run.Along
import Bcc.Usdt.Probe
import Mathlib.Logic.Function.Basic

namespace Bcc.Usdt

open CText Function Run

/-!
# USDT — enabling a probe and its semaphore

A semaphore is a 16-bit counter in the memory of the traced process that is not zero while somebody
listens.  It is reached through `/proc/PID/mem`, and each call on the way may fail.

* `enable`, `disable` — count it up and down, the latter also from the destructor;
* `balanced_iff` — when it comes back.
-/

/-- How the calls on `/proc/PID/mem` end in one run of `add_to_semaphore`. -/
structure MemCalls where
  opens : Bool
  seeks : Bool
  reads : Bool
  seeksBack : Bool
  writes : Bool
  deriving DecidableEq, Repr

/-- All calls succeed. -/
def MemCalls.Succeed (io : MemCalls) : Prop :=
  io.opens = true ∧ io.seeks = true ∧ io.reads = true ∧ io.seeksBack = true ∧ io.writes = true

instance (io : MemCalls) : Decidable io.Succeed :=
  inferInstanceAs (Decidable (io.opens = true ∧ io.seeks = true ∧ io.reads = true
    ∧ io.seeksBack = true ∧ io.writes = true))

/-- The memory of the traced process: the 16-bit word at each address. -/
abbrev Memory := UInt64 → BitVec 16

namespace Probe

variable (p : Probe) (w : World) (io : MemCalls) (mem : Memory)

/-- `add_to_semaphore`: the return value, with the probe and the memory it leaves. -/
def addToSemaphore (val : BitVec 16) : Res (Bool × Probe × Memory) :=
  match p.pid, p.attachedSemaphore.or (p.resolveGlobalAddress w p.binPath p.semaphore) with
  | none, _ => .error .assertion
  | some _, none => .ok (false, p, mem)
  | some _, some address =>
    -- the address is kept for the next time, even if this time fails
    let p := { p with attachedSemaphore := some address }
    if !io.opens then .ok (false, p, mem)
    else if !io.seeks || !io.reads then .ok (false, p, mem)
    else if !io.seeksBack || !io.writes then .ok (false, p, mem)
    else .ok (true, p, update mem address (mem address + val))

/-- `enable`. -/
def enable (fnName : String) : Res (Bool × Probe × Memory) :=
  if p.attachedTo.isSome then .ok (false, p, mem)
  else if p.needEnable then
    if p.pid.isNone then .ok (false, p, mem)
    else do
      let (done, p, mem) ← p.addToSemaphore w io mem 1
      if done then return (true, { p with attachedTo := some fnName }, mem)
      else return (false, p, mem)
  else .ok (true, { p with attachedTo := some fnName }, mem)

/-- `disable`: the probe is detached before the semaphore is counted down. -/
def disable : Res (Bool × Probe × Memory) :=
  if p.attachedTo.isNone then .ok (false, p, mem)
  else
    let p := { p with attachedTo := none }
    if p.needEnable then p.addToSemaphore w io mem (-1) else .ok (true, p, mem)

end Probe

/-! ### Runs -/

/-- What is done with a probe. -/
inductive Op where
  | enable (fnName : String)
  | disable
  /-- The destructor of the context, for a process that is still the one it was made for. -/
  | destroy
  deriving DecidableEq, Repr

/-- One step, with what the world answers to it. -/
structure Step where
  op : Op
  world : World
  io : MemCalls

/-- The probe, until it is destroyed, and the memory of the traced process. -/
structure Traced where
  probe : Option Probe
  mem : Memory

namespace Traced

/-- The function the probe is attached to. -/
def attachedTo (s : Traced) : Option String := s.probe.bind Probe.attachedTo

/-- One step.  The destructor disables the probe and does not look at the result.  A destroyed
    probe cannot be called any more: nothing happens. -/
def step (s : Traced) (a : Step) : Res (Bool × Traced) :=
  match s.probe, a.op with
  | none, _ => .ok (false, s)
  | some p, .enable fnName => do
    let (r, p, mem) ← p.enable a.world a.io s.mem fnName
    return (r, ⟨some p, mem⟩)
  | some p, .disable => do
    let (r, p, mem) ← p.disable a.world a.io s.mem
    return (r, ⟨some p, mem⟩)
  | some p, .destroy => do
    let (_, _, mem) ← p.disable a.world a.io s.mem
    return (true, ⟨none, mem⟩)

/-- The semaphore at `addr` is one above `init` exactly if the probe is attached. -/
def Balanced (addr : UInt64) (init : BitVec 16) (s : Traced) : Prop :=
  s.mem addr = if s.attachedTo.isSome then init + 1 else init

/-- The property of a step: the state it leaves is balanced, and if it returns false it has
    changed neither the attachment nor the semaphore. -/
def KeepsBalance (addr : UInt64) (init : BitVec 16) (s : Traced) (_ : Step) (r : Bool)
    (s' : Traced) : Prop :=
  s'.Balanced addr init
    ∧ (r = false → s'.attachedTo = s.attachedTo ∧ s'.mem addr = s.mem addr)

/-- A step that detaches the probe gets at the semaphore. -/
def ReleaseSucceeds (s : Traced) (a : Step) : Prop :=
  s.attachedTo.isSome → a.op = .disable ∨ a.op = .destroy → a.io.Succeed

/-- The probe is `p₀` but for its attachment, and the address of the semaphore is known while
    it is attached. -/
structure Ready (p₀ : Probe) (addr : UInt64) (p : Probe) : Prop where
  same : p = { p₀ with attachedTo := p.attachedTo, attachedSemaphore := p.attachedSemaphore }
  known : ∀ a, p.attachedSemaphore = some a → a = addr
  attached : p.attachedTo.isSome → p.attachedSemaphore = some addr

/-- The invariant of a run: balanced, and the probe is ready until it is destroyed. -/
structure Inv (p₀ : Probe) (addr : UInt64) (init : BitVec 16) (s : Traced) : Prop where
  balanced : s.Balanced addr init
  ready : ∀ p, s.probe = some p → Ready p₀ addr p

end Traced

/-- In the world of a step the semaphore of `p₀` is found at `addr`, or not at all. -/
def Step.Finds (p₀ : Probe) (addr : UInt64) (a : Step) : Prop :=
  ∀ g, p₀.resolveGlobalAddress a.world p₀.binPath p₀.semaphore = some g → g = addr

/-! ### One step -/

namespace Probe

variable {p₀ p : Probe} {addr : UInt64} {w : World} {io : MemCalls} {mem : Memory}
  {val : BitVec 16}

/-- Knowing the address of the semaphore, the probe stays ready. -/
theorem ready_known (hp : Traced.Ready p₀ addr p) :
    Traced.Ready p₀ addr { p with attachedSemaphore := some addr } where
  same := congrArg (fun q : Probe => { q with attachedSemaphore := some addr }) hp.same
  known := fun _ h => (Option.some.inj h).symm
  attached := fun _ => rfl

/-- So it does with its address known and any attachment. -/
theorem ready_attach (hp : Traced.Ready p₀ addr p) {o : Option String}
    (h : o.isSome → p.attachedSemaphore = some addr) :
    Traced.Ready p₀ addr { p with attachedTo := o } where
  same := congrArg (fun q : Probe => { q with attachedTo := o }) hp.same
  known := hp.known
  attached := h

/-- With the address found, all depends on the calls. -/
theorem addToSemaphore_of_some {a : UInt64} (hpid : p.pid.isSome)
    (h : p.attachedSemaphore.or (p.resolveGlobalAddress w p.binPath p.semaphore) = some a) :
    p.addToSemaphore w io mem val
      = if io.Succeed then .ok (true, { p with attachedSemaphore := some a },
          update mem a (mem a + val))
        else .ok (false, { p with attachedSemaphore := some a }, mem) := by
  unfold addToSemaphore
  split
  · next hnone => simp [hnone] at hpid
  · next hnone => simp [hnone] at h
  · next a' _ hsome =>
    cases hsome.symm.trans h
    obtain ⟨o, k, r, b, wr⟩ := io
    cases o <;> cases k <;> cases r <;> cases b <;> cases wr <;> rfl

/-- Without it nothing happens. -/
theorem addToSemaphore_of_none (hpid : p.pid.isSome)
    (h : p.attachedSemaphore.or (p.resolveGlobalAddress w p.binPath p.semaphore) = none) :
    p.addToSemaphore w io mem val = .ok (false, p, mem) := by
  unfold addToSemaphore
  split
  · next hnone => simp [hnone] at hpid
  · rfl
  · next hsome => simp [h] at hsome

variable (hp : Traced.Ready p₀ addr p) (hpid : p₀.pid.isSome)
  (hw : ∀ g, p₀.resolveGlobalAddress w p₀.binPath p₀.semaphore = some g → g = addr)
include hp hpid hw

/-- `add_to_semaphore` adds to the semaphore if its address is known or found and all calls
    succeed; otherwise it changes no memory. -/
theorem addToSemaphore_spec (io : MemCalls) (mem : Memory) (val : BitVec 16) :
    ∃ r q mem', p.addToSemaphore w io mem val = .ok (r, q, mem')
      ∧ Traced.Ready p₀ addr q ∧ q.attachedTo = p.attachedTo
      ∧ (r = true → q.attachedSemaphore = some addr
          ∧ mem' = update mem addr (mem addr + val))
      ∧ (r = false → mem' = mem)
      ∧ (p.attachedSemaphore = some addr → (r = true ↔ io.Succeed)) := by
  have hres : p.resolveGlobalAddress w p.binPath p.semaphore
      = p₀.resolveGlobalAddress w p₀.binPath p₀.semaphore := by
    rw [hp.same]
    rfl
  have hpid : p.pid.isSome := by
    rw [hp.same]
    exact hpid
  cases haddr : p.attachedSemaphore.or (p.resolveGlobalAddress w p.binPath p.semaphore) with
  | none =>
    obtain ⟨hnone, -⟩ := Option.or_eq_none_iff.mp haddr
    rw [addToSemaphore_of_none hpid haddr]
    exact ⟨false, p, mem, rfl, hp, rfl, by simp, fun _ => rfl, by simp [hnone]⟩
  | some a =>
    obtain rfl : a = addr := by
      rcases Option.or_eq_some_iff.mp haddr with h | ⟨-, h⟩
      · exact hp.known a h
      · exact hw a (hres ▸ h)
    rw [addToSemaphore_of_some hpid haddr]
    by_cases hio : io.Succeed
    · rw [if_pos hio]
      exact ⟨true, _, _, rfl, ready_known hp, rfl, fun _ => ⟨rfl, rfl⟩, by simp, by simp [hio]⟩
    · rw [if_neg hio]
      exact ⟨false, _, mem, rfl, ready_known hp, rfl, by simp, fun _ => rfl, by simp [hio]⟩

/-- `enable` of a ready probe: it either attaches the probe and counts up, or changes neither
    the attachment nor the memory. -/
theorem enable_spec (hneed : p₀.needEnable = true) (io : MemCalls) (mem : Memory)
    (fnName : String) :
    ∃ r q mem', p.enable w io mem fnName = .ok (r, q, mem') ∧ Traced.Ready p₀ addr q
      ∧ (r = true → p.attachedTo = none ∧ q.attachedTo = some fnName
          ∧ mem' = update mem addr (mem addr + 1))
      ∧ (r = false → q.attachedTo = p.attachedTo ∧ mem' = mem) := by
  have hneed : p.needEnable = true := by
    rw [hp.same]
    exact hneed
  have hpid' : p.pid.isNone = false := by
    rw [hp.same]
    simpa using hpid
  unfold enable
  cases hto : p.attachedTo with
  | some f => exact ⟨false, p, mem, rfl, hp, by simp, fun _ => ⟨hto, rfl⟩⟩
  | none =>
    rw [if_neg (by simp), if_pos hneed, if_neg (by simp [hpid'])]
    obtain ⟨r, q, mem', hadd, hq, hqto, htrue, hfalse, -⟩ :=
      addToSemaphore_spec hp hpid hw io mem 1
    rw [hadd]
    cases r with
    | false => exact ⟨false, q, mem', rfl, hq, by simp, fun _ => ⟨hqto.trans hto, hfalse rfl⟩⟩
    | true =>
      obtain ⟨hknown, hmem⟩ := htrue rfl
      exact ⟨true, _, mem', rfl, ready_attach hq (fun _ => hknown), fun _ => ⟨rfl, rfl, hmem⟩,
        by simp⟩

/-- `disable` of a ready probe detaches it; it counts down exactly if all calls succeed, and
    otherwise changes no memory. -/
theorem disable_spec (hneed : p₀.needEnable = true) (io : MemCalls) (mem : Memory) :
    ∃ r q mem', p.disable w io mem = .ok (r, q, mem') ∧ Traced.Ready p₀ addr q
      ∧ q.attachedTo = none ∧ (p.attachedTo = none → r = false ∧ mem' = mem)
      ∧ (p.attachedTo.isSome → (r = true ↔ io.Succeed)
          ∧ mem' = if io.Succeed then update mem addr (mem addr - 1) else mem) := by
  unfold disable
  cases hto : p.attachedTo with
  | none => exact ⟨false, p, mem, rfl, hp, hto, fun _ => ⟨rfl, rfl⟩, by simp⟩
  | some f =>
    have hknown := hp.attached (by simp [hto])
    have hp' : Traced.Ready p₀ addr { p with attachedTo := none } := ready_attach hp (by simp)
    have hneed : ({ p with attachedTo := none } : Probe).needEnable = true := by
      rw [hp'.same]
      exact hneed
    rw [if_pos hneed]
    obtain ⟨r, q, mem', hadd, hq, hqto, htrue, hfalse, hiff⟩ :=
      addToSemaphore_spec hp' hpid hw io mem (-1)
    refine ⟨r, q, mem', hadd, hq, hqto, by simp, fun _ => ⟨hiff hknown, ?_⟩⟩
    by_cases hio : io.Succeed
    · rw [if_pos hio, (htrue ((hiff hknown).mpr hio)).2, BitVec.sub_eq_add_neg]
    · rw [if_neg hio]
      exact hfalse (Bool.eq_false_iff.mpr fun h => hio ((hiff hknown).mp h))

end Probe

namespace Traced

variable {p₀ : Probe} {addr : UInt64} {init : BitVec 16} {s : Traced} {a : Step}

theorem balanced_none (h : s.attachedTo = none) : s.Balanced addr init ↔ s.mem addr = init := by
  rw [Balanced, h]
  rfl

theorem balanced_some {f : String} (h : s.attachedTo = some f) :
    s.Balanced addr init ↔ s.mem addr = init + 1 := by
  rw [Balanced, h]
  rfl

/-- After `disable` the semaphore is back at its initial value exactly if nothing was to be
    released, or all calls succeeded. -/
theorem released_iff {p : Probe} {mem mem' : Memory} {io : MemCalls}
    (hbal : Balanced addr init ⟨some p, mem⟩) (hnone : p.attachedTo = none → mem' = mem)
    (hsome : p.attachedTo.isSome →
      mem' = if io.Succeed then update mem addr (mem addr - 1) else mem) :
    mem' addr = init ↔ (p.attachedTo.isSome → io.Succeed) := by
  cases hto : p.attachedTo with
  | none =>
    rw [hnone hto]
    simpa using (balanced_none (s := ⟨some p, mem⟩) hto).mp hbal
  | some f =>
    have hmem : mem addr = init + 1 := (balanced_some (s := ⟨some p, mem⟩) hto).mp hbal
    rw [hsome (by simp [hto])]
    by_cases hio : io.Succeed
    · rw [hmem, BitVec.add_sub_cancel]
      simp [hio]
    · simp [hio, hmem]

/-- **One step.**  From a state with the invariant a step can be taken.  It keeps the balance
    exactly if it is no release that fails, and then it keeps the invariant. -/
theorem step_spec (hneed : p₀.needEnable = true) (hpid : p₀.pid.isSome)
    (hs : Inv p₀ addr init s) (ha : a.Finds p₀ addr) :
    ∃ r s', s.step a = .ok (r, s')
      ∧ (KeepsBalance addr init s a r s' ↔ s.ReleaseSucceeds a)
      ∧ (s.ReleaseSucceeds a → Inv p₀ addr init s') := by
  obtain ⟨o, mem⟩ := s
  obtain ⟨op, w, io⟩ := a
  cases o with
  | none =>
    refine ⟨false, _, rfl, ⟨?_, ?_⟩, fun _ => hs⟩
    · intro _ hto
      exact absurd hto (by simp [attachedTo])
    · intro _
      exact ⟨hs.balanced, fun _ => ⟨rfl, rfl⟩⟩
  | some p =>
    have hp := hs.ready p rfl
    cases op with
    | enable fnName =>
      obtain ⟨r, q, mem', hok, hq, htrue, hfalse⟩ :=
        Probe.enable_spec hp hpid ha hneed io mem fnName
      have hrel : ReleaseSucceeds ⟨some p, mem⟩ ⟨.enable fnName, w, io⟩ := by
        rintro - (h | h) <;> cases h
      have hbal : Balanced addr init ⟨some q, mem'⟩ := by
        cases r with
        | true =>
          obtain ⟨hpto, hqto, rfl⟩ := htrue rfl
          rw [balanced_some (s := ⟨some q, _⟩) hqto]
          show update mem addr (mem addr + 1) addr = init + 1
          have hmem : mem addr = init := (balanced_none (s := ⟨some p, mem⟩) hpto).mp hs.balanced
          rw [update_self, hmem]
        | false =>
          obtain ⟨hqto, rfl⟩ := hfalse rfl
          have hsame : attachedTo ⟨some q, mem'⟩ = attachedTo ⟨some p, mem'⟩ := hqto
          rw [Balanced, hsame]
          exact hs.balanced
      have hkeep : KeepsBalance addr init ⟨some p, mem⟩ ⟨.enable fnName, w, io⟩ r ⟨some q, mem'⟩ :=
        ⟨hbal, fun hr => ⟨(hfalse hr).1, by rw [(hfalse hr).2]⟩⟩
      refine ⟨r, ⟨some q, mem'⟩, ?_, ⟨fun _ => hrel, fun _ => hkeep⟩, fun _ => ⟨hbal, ?_⟩⟩
      · simp [step, hok]
      · rintro _ ⟨⟩
        exact hq
    | disable =>
      obtain ⟨r, q, mem', hok, hq, hqto, hnone, hsome⟩ := Probe.disable_spec hp hpid ha hneed io mem
      have hiff := released_iff hs.balanced (fun h => (hnone h).2) (fun h => (hsome h).2)
      have hbal : Balanced addr init ⟨some q, mem'⟩ ↔ (p.attachedTo.isSome → io.Succeed) :=
        (balanced_none (s := ⟨some q, mem'⟩) hqto).trans hiff
      have hrel : ReleaseSucceeds ⟨some p, mem⟩ ⟨.disable, w, io⟩
          ↔ (p.attachedTo.isSome → io.Succeed) :=
        ⟨fun h hto => h hto (.inl rfl), fun h hto _ => h hto⟩
      refine ⟨r, ⟨some q, mem'⟩, by simp [step, hok], ⟨fun h => ?_, fun h => ?_⟩, fun h => ?_⟩
      · exact hrel.mpr (hbal.mp h.1)
      · refine ⟨hbal.mpr (hrel.mp h), ?_⟩
        -- a release that succeeds does not return false
        intro hr
        have hto : p.attachedTo = none := by
          by_contra hne
          have hto := Option.isSome_iff_ne_none.mpr hne
          rw [(hsome hto).1.mpr (hrel.mp h hto)] at hr
          cases hr
        exact ⟨hqto.trans hto.symm, by rw [(hnone hto).2]⟩
      · refine ⟨hbal.mpr (hrel.mp h), ?_⟩
        rintro _ ⟨⟩
        exact hq
    | destroy =>
      obtain ⟨r, q, mem', hok, -, -, hnone, hsome⟩ := Probe.disable_spec hp hpid ha hneed io mem
      have hiff := released_iff hs.balanced (fun h => (hnone h).2) (fun h => (hsome h).2)
      have hbal : Balanced addr init ⟨none, mem'⟩ ↔ (p.attachedTo.isSome → io.Succeed) :=
        (balanced_none (s := ⟨none, mem'⟩) rfl).trans hiff
      have hrel : ReleaseSucceeds ⟨some p, mem⟩ ⟨.destroy, w, io⟩
          ↔ (p.attachedTo.isSome → io.Succeed) :=
        ⟨fun h hto => h hto (.inr rfl), fun h hto _ => h hto⟩
      refine ⟨true, ⟨none, mem'⟩, by simp [step, hok], ⟨fun h => ?_, fun h => ?_⟩, fun h => ?_⟩
      · exact hrel.mpr (hbal.mp h.1)
      · exact ⟨hbal.mpr (hrel.mp h), fun hr => by cases hr⟩
      · refine ⟨hbal.mpr (hrel.mp h), ?_⟩
        rintro _ ⟨⟩

/-- **Whole runs.**  Take any steps on a new probe with a semaphore, in a process where the
    semaphore is at `addr` and holds `init`.  Each state reached is balanced, and each call
    that returns false leaves attachment and semaphore alone, exactly if no release of an
    attached probe fails. -/
theorem balanced_iff {mem : Memory} {steps : List Step} (hneed : p₀.needEnable = true)
    (hpid : p₀.pid.isSome) (hto : p₀.attachedTo = none) (hsem : p₀.attachedSemaphore = none)
    (hmem : mem addr = init) (hfinds : ∀ a ∈ steps, a.Finds p₀ addr) :
    Along step (KeepsBalance addr init) ⟨some p₀, mem⟩ steps
      ↔ Along step (fun s a _ _ => s.ReleaseSucceeds a) ⟨some p₀, mem⟩ steps := by
  have hinit : Inv p₀ addr init ⟨some p₀, mem⟩ := by
    refine ⟨(balanced_none (s := ⟨some p₀, mem⟩) hto).mpr hmem, ?_⟩
    rintro _ ⟨⟩
    exact ⟨rfl, by simp [hsem], by simp [hto]⟩
  exact along_iff (Q := fun a => a.Finds p₀ addr)
    (fun s a hs ha => step_spec hneed hpid hs ha) hinit hfinds

/-- A probe of an executable with a semaphore at 16, in process 1. -/
def counted : Probe where
  binPath := "/bin/a"
  provider := "p"
  name := "n"
  semaphore := 16
  semaphoreOffset := 0
  locations := [⟨32, "/bin/a", []⟩]
  pid := some 1
  attachedTo := none
  attachedSemaphore := none
  modMatchInodeOnly := 1
  located := List.cons_ne_nil _ _

/-- A step in a world where the write succeeds or not, and all else does. -/
def writing (op : Op) (writes : Bool) : Step := ⟨op, World.plain, ⟨true, true, true, true, writes⟩⟩

/-- A probe that is enabled and destroyed, with all calls succeeding. -/
theorem balanced_enable_destroy :
    Along step (KeepsBalance 16 7) ⟨some counted, fun _ => 7⟩
      [writing (.enable "f") true, writing .destroy true] := by
  have hneed : counted.needEnable = true := rfl
  have hsem : counted.attachedSemaphore = none := rfl
  have hmem : (fun _ => 7 : Memory) 16 = 7 := rfl
  refine (balanced_iff hneed rfl rfl hsem hmem ?_).mpr ?_
  · intro a ha g hg
    obtain rfl | rfl : a = writing (.enable "f") true ∨ a = writing .destroy true := by
      simpa using ha
    · exact (Option.some.inj hg).symm
    · exact (Option.some.inj hg).symm
  · refine ⟨_, _, rfl, ?_, _, _, rfl, ?_, trivial⟩
    · intro hto
      cases hto
    · intro _ _
      exact ⟨rfl, rfl, rfl, rfl, rfl⟩

/-- A probe whose semaphore cannot be written when it is disabled: the call returns false, yet
    the probe is detached, and the semaphore stays one too high. -/
theorem failed_release_unbalances :
    ∃ s₁ s₂, step ⟨some counted, fun _ => 0⟩ (writing (.enable "f") true) = .ok (true, s₁)
      ∧ step s₁ (writing .disable false) = .ok (false, s₂)
      ∧ s₁.attachedTo = some "f" ∧ s₂.attachedTo = none ∧ s₂.mem 16 = 1 := by
  exact ⟨_, _, rfl, rfl, rfl, rfl, rfl⟩

end Traced

end Bcc.Usdt
