import Bcc.Api.Probes

namespace Bcc.Api

open List

/-!
# The C++ API — what the functions do to the records

* `attachEvent_cases`, `attachPerfEvent_snd` — an attach fails, or records what it has acquired;
* `detachEvent_snd` — a detach has closed what the probe holds, whatever it returns;
* `detach_snd` — the record is erased only if nothing has failed.
-/

variable {Key : Type} [DecidableEq Key]

/-! ### Records -/

/-- What the recorded probes hold. -/
def heldBy (entries : List (Sigma fun _ : Table × Key => OpenProbe)) : List Resource :=
  entries.flatMap fun e => e.2.held.resources

omit [DecidableEq Key] in
theorem heldBy_cons (e : Sigma fun _ : Table × Key => OpenProbe)
    (entries : List (Sigma fun _ : Table × Key => OpenProbe)) :
    heldBy (e :: entries) = e.2.held.resources ++ heldBy entries := flatMap_cons

/-- What is held by the probe that is erased, and by the others. -/
theorem heldBy_erase {probes : AList fun _ : Table × Key => OpenProbe} {k : Table × Key}
    {p : OpenProbe} (h : probes.lookup k = some p) :
    (heldBy probes.entries).Perm (p.held.resources ++ heldBy (probes.erase k).entries) := by
  exact (Run.entries_perm_erase h).flatMap_right _

theorem Held.resources_ne_nil (h : Held) : h.resources ≠ [] := by
  cases h with
  | perfEventFd fd => exact cons_ne_nil _ _
  | perCpuFd vector fds => exact append_ne_nil_of_right_ne_nil _ (cons_ne_nil _ _)

section Programs

omit [DecidableEq Key]

variable (func : String) (ok : Bool) (s : State Key)

theorem loadFunc_snd : ∃ funcs, (loadFunc func ok s).2 = { s with funcs := funcs } := by
  unfold loadFunc
  split
  · exact ⟨s.funcs, rfl⟩
  · split
    · exact ⟨func :: s.funcs, rfl⟩
    · exact ⟨s.funcs, rfl⟩

theorem unloadFunc_snd : ∃ funcs, (unloadFunc func ok s).2 = { s with funcs := funcs } := by
  unfold unloadFunc
  split
  · split
    · exact ⟨s.funcs.erase func, rfl⟩
    · exact ⟨s.funcs, rfl⟩
  · exact ⟨s.funcs, rfl⟩

theorem unloadFunc_fst : (unloadFunc func ok s).1 = true ↔ (func ∈ s.funcs → ok = true) := by
  unfold unloadFunc
  split
  · next hmem =>
    split
    · next hok => exact ⟨fun _ _ => hok, fun _ => rfl⟩
    · next hok => exact ⟨nofun, fun h => absurd (h hmem) hok⟩
  · next hmem => exact ⟨fun _ h => absurd h hmem, fun _ => rfl⟩

end Programs

/-! ### Attaching -/

section Attaching

variable (s : State Key)

/-- An attach fails, or it records a probe with a new descriptor. -/
theorem attachEvent_cases (table : Table) (key : Key) (func : String)
    (load attach unload : Bool) :
    (∃ funcs, attachEvent table key func load attach unload s = (false, { s with funcs := funcs }))
    ∨ (table, key) ∉ s.probes ∧ ∃ funcs, attachEvent table key func load attach unload s
      = (true, { s with
          next := s.next + 1
          funcs := funcs
          probes := s.probes.insert (table, key) ⟨func, .perfEventFd s.next⟩
          acquired := s.acquired ++ [.fd s.next] }) := by
  unfold attachEvent
  split
  · exact .inl ⟨s.funcs, rfl⟩
  rename_i hkey
  obtain ⟨funcs, hs⟩ := loadFunc_snd func load s
  rcases hload : loadFunc func load s with ⟨loaded, s₁⟩
  obtain rfl : s₁ = { s with funcs := funcs } := by rw [← hs, hload]
  cases loaded with
  | false => exact .inl ⟨funcs, rfl⟩
  | true =>
    cases attach with
    | false =>
      obtain ⟨funcs', hunload⟩ := unloadFunc_snd func unload { s with funcs := funcs }
      exact .inl ⟨funcs', congrArg (Prod.mk false) hunload⟩
    | true => exact .inr ⟨hkey, funcs, rfl⟩

/-- The descriptors of the CPUs are new, one after the other. -/
theorem openOnCpus_fst (attach : List Bool) (next : Nat) :
    (openOnCpus attach next).1 = List.range' next (openOnCpus attach next).1.length := by
  induction attach generalizing next with
  | nil => rfl
  | cons ok rest ih =>
    cases ok with
    | false => rfl
    | true =>
      show next :: (openOnCpus rest (next + 1)).1
        = List.range' next ((openOnCpus rest (next + 1)).1.length + 1)
      rw [range'_succ, ← ih]

/-- The vector of an attach on `n` CPUs. -/
def State.newVector (s : State Key) (n : Nat) : Held :=
  .perCpuFd s.next (List.range' (s.next + 1) n)

/-- An attach fails, or it closes again what it has opened, or it records it. -/
theorem attachPerfEvent_snd (key : Key) (func : String) (load : Bool) (attach : List Bool)
    (unload : Bool) :
    (∃ funcs, (attachPerfEvent key func load attach unload s).2 = { s with funcs := funcs })
    ∨ (∃ n funcs, (attachPerfEvent key func load attach unload s).2
      = { s with
          next := s.next + 1 + n
          funcs := funcs
          acquired := s.acquired ++ (s.newVector n).resources
          released := s.released ++ (s.newVector n).resources })
    ∨ (Table.perfEvents, key) ∉ s.probes ∧ ∃ n funcs,
      (attachPerfEvent key func load attach unload s).2
        = { s with
            next := s.next + 1 + n
            funcs := funcs
            probes := s.probes.insert (.perfEvents, key) ⟨func, s.newVector n⟩
            acquired := s.acquired ++ (s.newVector n).resources } := by
  unfold attachPerfEvent
  split
  · exact .inl ⟨s.funcs, rfl⟩
  rename_i hkey
  obtain ⟨funcs, hs⟩ := loadFunc_snd func load s
  rcases hload : loadFunc func load s with ⟨loaded, s₁⟩
  obtain rfl : s₁ = { s with funcs := funcs } := by rw [← hs, hload]
  cases loaded with
  | false => exact .inl ⟨funcs, rfl⟩
  | true =>
    have hrange := openOnCpus_fst attach (s.next + 1)
    rcases hopen : openOnCpus attach (s.next + 1) with ⟨fds, ok⟩
    rw [hopen] at hrange
    have hvector : Held.perCpuFd s.next fds = s.newVector fds.length := congrArg _ hrange
    simp only [hopen, hvector]
    cases ok with
    | false =>
      obtain ⟨funcs', hunload⟩ := unloadFunc_snd func unload
        { s with
          next := s.next + 1 + fds.length
          funcs := funcs
          acquired := s.acquired ++ (s.newVector fds.length).resources
          released := s.released ++ (s.newVector fds.length).resources }
      exact .inr (.inl ⟨fds.length, funcs', hunload⟩)
    | true => exact .inr (.inr ⟨hkey, fds.length, funcs, rfl⟩)

end Attaching

/-! ### Detaching -/

/-- When the function for the probes of a table succeeds. -/
def Succeeds (table : Table) (r : Results) (p : OpenProbe) (s : State Key) : Prop :=
  (p.func ∈ s.funcs → r.unload = true) ∧
    match table with
    | .kprobes | .uprobes => r.detach = true
    | .tracepoints => True
    | .rawTracepoints => r.close 0 = true
    | .perfEvents => ∀ i < p.held.fds.length, r.close i = true

omit [DecidableEq Key] in
theorem detachKprobeEvent_eq (r : Results) (p : OpenProbe) (s : State Key) :
    detachKprobeEvent r p s
      = ((unloadFunc p.func r.unload (s.release p.held.resources)).1 && r.detach,
        (unloadFunc p.func r.unload (s.release p.held.resources)).2) := by
  unfold detachKprobeEvent
  obtain ⟨unloaded, s'⟩ := unloadFunc p.func r.unload (s.release p.held.resources)
  cases unloaded <;> rfl

omit [DecidableEq Key] in
theorem detachPerfEventAllCpu_eq (r : Results) (p : OpenProbe) (s : State Key) :
    detachPerfEventAllCpu r p s
      = ((unloadFunc p.func r.unload (s.release p.held.resources)).1
          && (List.range p.held.fds.length).all r.close,
        (unloadFunc p.func r.unload (s.release p.held.resources)).2) := by
  unfold detachPerfEventAllCpu
  obtain ⟨unloaded, s'⟩ := unloadFunc p.func r.unload (s.release p.held.resources)
  cases unloaded <;> rfl

omit [DecidableEq Key] in
theorem detachEvent_fst (table : Table) (r : Results) (p : OpenProbe) (s : State Key) :
    (detachEvent table r p s).1 = true ↔ Succeeds table r p s := by
  have hunload := unloadFunc_fst p.func r.unload (s.release p.held.resources)
  unfold Succeeds
  cases table with
  | kprobes | uprobes =>
    show (detachKprobeEvent r p s).1 = true ↔ _
    rw [detachKprobeEvent_eq, Bool.and_eq_true, hunload]
    rfl
  | tracepoints => exact hunload.trans (and_iff_left trivial).symm
  | rawTracepoints =>
    show (detachRawTracepointEvent r p s).1 = true ↔ _
    unfold detachRawTracepointEvent
    cases hclose : r.close 0 with
    | false => exact ⟨nofun, fun h => nomatch h.2⟩
    | true => exact hunload.trans (and_iff_left rfl).symm
  | perfEvents =>
    show (detachPerfEventAllCpu r p s).1 = true ↔ _
    rw [detachPerfEventAllCpu_eq, Bool.and_eq_true, hunload, all_eq_true]
    simp only [mem_range]
    rfl

omit [DecidableEq Key] in
/-- Whatever it returns, the function has closed what the probe holds. -/
theorem detachEvent_snd (table : Table) (r : Results) (p : OpenProbe) (s : State Key) :
    ∃ funcs, (detachEvent table r p s).2
      = { s with funcs := funcs, released := s.released ++ p.held.resources } := by
  have hunload := unloadFunc_snd p.func r.unload (s.release p.held.resources)
  cases table with
  | kprobes | uprobes =>
    show ∃ funcs, (detachKprobeEvent r p s).2 = _
    rw [detachKprobeEvent_eq]
    exact hunload
  | tracepoints => exact hunload
  | rawTracepoints =>
    show ∃ funcs, (detachRawTracepointEvent r p s).2 = _
    unfold detachRawTracepointEvent
    cases r.close 0 with
    | false => exact ⟨s.funcs, rfl⟩
    | true => exact hunload
  | perfEvents =>
    show ∃ funcs, (detachPerfEventAllCpu r p s).2 = _
    rw [detachPerfEventAllCpu_eq]
    exact hunload

/-- The record of a probe is erased only if its detach succeeds. -/
theorem detach_snd (table : Table) (key : Key) (r : Results) (s : State Key) :
    s.probes.lookup (table, key) = none ∧ (detach table key r s).2 = s
    ∨ ∃ p funcs, s.probes.lookup (table, key) = some p
      ∧ (Succeeds table r p s ∧ (detach table key r s).2
          = { s with
              funcs := funcs
              probes := s.probes.erase (table, key)
              released := s.released ++ p.held.resources }
        ∨ ¬ Succeeds table r p s ∧ (detach table key r s).2
          = { s with funcs := funcs, released := s.released ++ p.held.resources }) := by
  unfold detach
  cases s.probes.lookup (table, key) with
  | none => exact .inl ⟨rfl, rfl⟩
  | some p =>
    obtain ⟨funcs, hsnd⟩ := detachEvent_snd table r p s
    have hfst := detachEvent_fst table r p s
    refine .inr ⟨p, funcs, rfl, ?_⟩
    dsimp only
    rcases hevent : detachEvent table r p s with ⟨ok, s₁⟩
    rw [hevent] at hsnd hfst
    obtain rfl := hsnd
    cases ok with
    | true => exact .inl ⟨hfst.mp rfl, rfl⟩
    | false => exact .inr ⟨fun h => Bool.false_ne_true (hfst.mpr h), rfl⟩

omit [DecidableEq Key] in
/-- `detach_all` closes what all recorded probes hold, and leaves their records. -/
theorem detachAll_eq (r : Table → Key → Results) (s : State Key) :
    ∃ funcs, detachAll r s
      = { s with funcs := funcs, released := s.released ++ heldBy s.probes.entries } := by
  unfold detachAll
  generalize s.probes.entries = entries
  induction entries generalizing s with
  | nil =>
    refine ⟨s.funcs, ?_⟩
    show s = { s with released := s.released ++ [] }
    rw [append_nil]
  | cons e entries ih =>
    obtain ⟨funcs, hs⟩ := detachEvent_snd e.1.1 (r e.1.1 e.1.2) e.2 s
    obtain ⟨funcs', hs'⟩ := ih (detachEvent e.1.1 (r e.1.1 e.1.2) e.2 s).2
    refine ⟨funcs', hs'.trans ?_⟩
    rw [hs, heldBy_cons, ← append_assoc]

end Bcc.Api
