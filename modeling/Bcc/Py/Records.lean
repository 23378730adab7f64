import Bcc.Py.Probes
import Mathlib.Data.List.Dedup

namespace Bcc.Py

open Assoc List Posix

/-!
# Probes of Python objects — records and counts

* `Consistent` — the counter is the number of descriptors that are recorded, those that are open are
  recorded, and `num_open_kprobes` is the number of events with an open one.
-/

/-! ### Records -/

namespace BPF

variable (b : BPF) (fd : Nat)

theorem get?_fnFds_set (evName evName' : Name) (fns : Dict Name Nat) (uprobes : Dict Name Nat) :
    fnFds ⟨b.kprobeFds.set evName fns, uprobes⟩ evName'
      = if evName' = evName then fns else b.fnFds evName' := by
  rw [fnFds, Dict.get?_set]
  split <;> rfl

/-- `addFd`, or `delFd` without a descriptor. -/
def putFd (o : Option Nat) : Probe → BPF
  | .kprobe ev fn => { b with kprobeFds := b.kprobeFds.set ev ((b.fnFds ev).put fn o) }
  | .uprobe ev => { b with uprobeFds := b.uprobeFds.put ev o }

theorem fdOf_putFd (o : Option Nat) (p q : Probe) :
    (b.putFd o p).fdOf q = if q = p then o else b.fdOf q := by
  cases p with
  | kprobe ev fn =>
    cases q with
    | kprobe ev' fn' =>
      simp only [putFd, fdOf, get?_fnFds_set]
      by_cases hev : ev' = ev
      · simp [hev, Dict.get?_put]
      · simp [hev]
    | uprobe ev' => simp [putFd, fdOf]
  | uprobe ev =>
    cases q with
    | kprobe ev' fn' => simp [putFd, fdOf, fnFds]
    | uprobe ev' => simp [putFd, fdOf, Dict.get?_put]

theorem measure_kprobeFds (evName : Name) :
    b.kprobeFds.measure Dict.length evName = (b.fnFds evName).length := by
  unfold Dict.measure fnFds
  cases b.kprobeFds.get? evName <;> rfl

/-- One for a descriptor that is recorded. -/
def count (o : Option Nat) : Nat := (o.map fun _ => 1).getD 0

theorem recorded_putFd (o : Option Nat) (p : Probe) :
    (b.putFd o p).recorded + count (b.fdOf p) = b.recorded + count o := by
  cases p with
  | kprobe ev fn =>
    have houter := Dict.total_set Dict.length b.kprobeFds ev ((b.fnFds ev).put fn o)
    have hinner := (b.fnFds ev).length_put fn o
    rw [measure_kprobeFds] at houter
    simp only [recorded, putFd, fdOf, count, Dict.measure] at *
    omega
  | uprobe ev =>
    have hput := b.uprobeFds.length_put ev o
    simp only [recorded, putFd, fdOf, count, Dict.measure] at *
    omega

/-- The events of the object. -/
def events (b : BPF) : List Name := b.kprobeFds.keys

theorem mem_events_addFd {p : Probe} {ev : Name} :
    ev ∈ (b.addFd fd p).events ↔ ev ∈ b.events ∨ ∃ fn, p = .kprobe ev fn := by
  cases p with
  | kprobe ev' fn => simp [events, addFd, Dict.mem_keys_set, eq_comm]
  | uprobe ev' => simp [events, addFd]

theorem mem_events_of_fdOf {ev fn : Name} (h : b.fdOf (.kprobe ev fn) = some fd) :
    ev ∈ b.events := by
  rw [events, Dict.mem_keys_iff]
  rw [fdOf, fnFds] at h
  cases hget : b.kprobeFds.get? ev with
  | none => simp [hget] at h
  | some fns => rfl

theorem mem_events_delFd {p : Probe} {ev : Name} (h : b.fdOf p = some fd) :
    ev ∈ (b.delFd p).events ↔ ev ∈ b.events := by
  cases p with
  | kprobe ev' fn =>
    have hev := b.mem_events_of_fdOf fd h
    simp only [events, delFd, Dict.mem_keys_set]
    exact ⟨fun hmem => hmem.elim id (fun heq => heq ▸ hev), .inl⟩
  | uprobe ev' => rfl

end BPF

/-! ### The process -/

namespace State

variable (s : State)

/-- The number of descriptors that all objects record. -/
def recorded : Nat := s.objs.total BPF.recorded

/-- The descriptor that is recorded for a probe. -/
def fdOf (site : Site) : Option Nat := (s.obj site.obj).fdOf site.probe

/-- The descriptor is open, and was opened for the probe. -/
def IsOpen (fd : Nat) (site : Site) : Prop := (fd, Owner.probe site) ∈ s.fds.entries

/-- The event that a descriptor was opened for, if it is one of a kprobe of the object. -/
def eventOf (i : Nat) : Owner → Option Name
  | .probe ⟨j, .kprobe evName _⟩ => if j = i then some evName else none
  | _ => none

/-- The events of an object that have an open descriptor. -/
def openEvents (i : Nat) : List Name := (s.fds.entries.filterMap fun e => eventOf i e.2).dedup

theorem mem_openEvents {i : Nat} {ev : Name} :
    ev ∈ s.openEvents i ↔ ∃ fd fn, s.IsOpen fd ⟨i, .kprobe ev fn⟩ := by
  rw [openEvents, mem_dedup, mem_filterMap]
  constructor
  · rintro ⟨⟨fd, owner⟩, hmem, howner⟩
    match owner, howner with
    | .probe ⟨j, .kprobe ev' fn⟩, howner =>
      obtain ⟨rfl, rfl⟩ : j = i ∧ ev' = ev := by simpa [eventOf] using howner
      exact ⟨fd, fn, hmem⟩
  · rintro ⟨fd, fn, hmem⟩
    exact ⟨_, hmem, by simp [eventOf]⟩

theorem obj_set {i j : Nat} {b : BPF} {n : Int} {fds : Fds Owner} :
    obj ⟨n, s.objs.set i b, fds⟩ j = if j = i then b else s.obj j := by
  rw [obj, Dict.get?_set]
  split <;> rfl

theorem recorded_set (i : Nat) (p : Probe) (o : Option Nat) (n : Int) (fds : Fds Owner) :
    recorded ⟨n, s.objs.set i ((s.obj i).putFd o p), fds⟩ + BPF.count (s.fdOf ⟨i, p⟩)
      = s.recorded + BPF.count o := by
  have hset := Dict.total_set BPF.recorded s.objs i ((s.obj i).putFd o p)
  have hput := (s.obj i).recorded_putFd o p
  have hold : s.objs.measure BPF.recorded i = (s.obj i).recorded := by
    unfold Dict.measure obj
    cases s.objs.get? i <;> rfl
  simp only [recorded, fdOf]
  omega

/-- The records after one has changed. -/
theorem fdOf_set (i : Nat) (p : Probe) (o : Option Nat) (n : Int) (fds : Fds Owner) (site : Site) :
    fdOf ⟨n, s.objs.set i ((s.obj i).putFd o p), fds⟩ site
      = if site = ⟨i, p⟩ then o else s.fdOf site := by
  obtain ⟨j, q⟩ := site
  simp only [fdOf, obj_set]
  by_cases hj : j = i
  · simp [hj, BPF.fdOf_putFd]
  · simp [hj]

theorem mem_events_addFd {i j : Nat} {p : Probe} {fd : Nat} {ev : Name} :
    ev ∈ ((s.addFd i p fd).obj j).events
      ↔ ev ∈ (s.obj j).events ∨ ∃ fn, (⟨j, .kprobe ev fn⟩ : Site) = ⟨i, p⟩ := by
  simp only [addFd, obj_set]
  by_cases hj : j = i
  · simp [hj, BPF.mem_events_addFd, eq_comm]
  · simp [hj]

theorem mem_events_delFd {i j : Nat} {p : Probe} {fd : Nat} (h : s.fdOf ⟨i, p⟩ = some fd)
    {ev : Name} : ev ∈ ((s.delFd i p).obj j).events ↔ ev ∈ (s.obj j).events := by
  simp only [delFd, obj_set]
  by_cases hj : j = i
  · subst hj
    rw [if_pos rfl]
    exact BPF.mem_events_delFd _ fd h
  · rw [if_neg hj]

end State

/-! ### Consistent states -/

/-- The counter, the records and the open descriptors agree. -/
structure Consistent (s : State) : Prop where
  count : s.numOpenProbes = s.recorded
  recorded : ∀ fd site, s.IsOpen fd site → s.fdOf site = some fd
  kprobes : ∀ i, (s.obj i).numOpenKprobes = (s.openEvents i).length

/-- An event of an object has no open descriptor. -/
def Stranded (s : State) : Prop :=
  ∃ i, ∃ ev ∈ (s.obj i).events, ∀ fd fn, ¬ s.IsOpen fd ⟨i, .kprobe ev fn⟩

/-- The counter is higher than the number of records. -/
def Excess (s : State) : Prop := (s.recorded : Int) < s.numOpenProbes

/-- The events with an open descriptor are all events exactly if there are as many. -/
theorem kprobes_iff {s : State} (h : ∀ fd site, s.IsOpen fd site → s.fdOf site = some fd) :
    (∀ i, (s.obj i).numOpenKprobes = (s.openEvents i).length) ↔ ¬ Stranded s := by
  have hsub : ∀ i, s.openEvents i ⊆ (s.obj i).events := fun i ev hev => by
    obtain ⟨fd, fn, hopen⟩ := s.mem_openEvents.mp hev
    exact BPF.mem_events_of_fdOf _ fd (h fd _ hopen)
  have hlength : ∀ i, (s.obj i).numOpenKprobes = (s.obj i).events.length := fun i =>
    (length_map _).symm
  constructor
  · rintro hcount ⟨i, ev, hev, hclosed⟩
    have hperm : (s.openEvents i).Subperm (s.obj i).events := (nodup_dedup _).subperm (hsub i)
    have hle : (s.obj i).events.length ≤ (s.openEvents i).length := by rw [← hlength, hcount i]
    have hev' := (hperm.perm_of_length_le hle).mem_iff.mpr hev
    obtain ⟨fd, fn, hopen⟩ := s.mem_openEvents.mp hev'
    exact hclosed fd fn hopen
  · intro hnot i
    rw [hlength]
    apply List.Perm.length_eq
    refine (perm_ext_iff_of_nodup (Dict.keys_nodup _) (nodup_dedup _)).mpr fun ev =>
      ⟨fun hev => ?_, fun hev => hsub i hev⟩
    by_contra hclosed
    refine hnot ⟨i, ev, hev, fun fd fn hopen => hclosed ?_⟩
    exact s.mem_openEvents.mpr ⟨fd, fn, hopen⟩

theorem Consistent.not_stranded {s : State} (h : Consistent s) : ¬ Stranded s :=
  (kprobes_iff h.recorded).mp h.kprobes

theorem Consistent.not_excess {s : State} (h : Consistent s) : ¬ Excess s := by
  rw [Excess, h.count]
  exact Int.lt_irrefl _

end Bcc.Py
