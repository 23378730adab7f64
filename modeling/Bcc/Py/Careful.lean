import Bcc.Py.Changes

namespace Bcc.Py

open Posix

/-!
# Probes of Python objects — careful calls

* `Careful` — a call does not attach a probe that is recorded, and does not close the last
  descriptor of an event;
* `consistent_next` — it keeps the counts; another one spoils them for good.
-/

/-- Where a descriptor is that of an event, the event has another one. -/
def Spares (s : State) (fd : Nat) : Prop :=
  ∀ i ev fn, s.IsOpen fd ⟨i, .kprobe ev fn⟩ →
    ∃ fd' fn', fd' ≠ fd ∧ s.IsOpen fd' ⟨i, .kprobe ev fn'⟩

/-- **A careful call** does not attach a probe that is recorded, and does not close the only
    descriptor of an event. -/
def Careful (s : State) (c : Call) : Prop :=
  (∀ i p, Attaches s i p c → s.fdOf ⟨i, p⟩ = none) ∧ ∀ fd i p, Closes s fd i p c → Spares s fd

variable {s : State} {c : Call}

/-! ### Counts after a call -/

variable {fd : Nat}

theorem isOpen_close {fd' : Nat} {site : Site} :
    (s.close fd).IsOpen fd' site ↔ s.IsOpen fd' site ∧ fd' ≠ fd := Fds.mem_close

variable {i : Nat} {p : Probe}

theorem isOpen_attach {site : Site} :
    (s.attach i p).IsOpen fd site ↔ (fd = s.fds.free ∧ site = ⟨i, p⟩) ∨ s.IsOpen fd site := by
  show (fd, Owner.probe site) ∈ (s.fds.free, Owner.probe ⟨i, p⟩) :: s.fds.entries ↔ _
  simp [State.IsOpen]

/-- The counter and the records after a probe is attached. -/
theorem recorded_attach (s : State) (i : Nat) (p : Probe) :
    (s.attach i p).recorded + BPF.count (s.fdOf ⟨i, p⟩) = s.recorded + 1 := by
  have hset := s.recorded_set i p (some s.fds.free)
  exact hset _ _

theorem recorded_delFd (h : s.fdOf ⟨i, p⟩ = some fd) : (s.delFd i p).recorded + 1 = s.recorded := by
  have hset := s.recorded_set i p none
  rw [h] at hset
  exact hset _ _

/-- The counter never gets closer to the records. -/
theorem excess_next (h : Excess s) (c : Call) : Excess (c.next s) := by
  have hchanges := c.changes s
  generalize c.next s = s' at hchanges ⊢
  unfold Excess at h ⊢
  cases hchanges with
  | same => exact h
  | @attach i p =>
    have hrecorded := recorded_attach s i p
    show ((s.attach i p).recorded : Int) < s.numOpenProbes + 1
    omega
  | close => exact h
  | @detach fd i p hcloses =>
    have hrecorded := recorded_delFd (s := s.close fd) hcloses.1
    show (((s.close fd).delFd i p).recorded : Int) < s.numOpenProbes - 1
    change _ = s.recorded at hrecorded
    omega
  | openOther => exact h
  | closeOther => exact h

/-- A probe that is recorded is attached once more. -/
theorem excess_attach (h : Consistent s) (hp : s.fdOf ⟨i, p⟩ ≠ none) : Excess (s.attach i p) := by
  obtain ⟨fd, hfd⟩ := Option.ne_none_iff_exists'.mp hp
  have hrecorded := recorded_attach s i p
  have hcount := h.count
  rw [hfd] at hrecorded
  change _ + 1 = _ at hrecorded
  show ((s.attach i p).recorded : Int) < s.numOpenProbes + 1
  omega

/-- Closing the only descriptor of an event leaves the event without one. -/
theorem stranded_close (h : Consistent s) (hspares : ¬ Spares s fd) : Stranded (s.close fd) := by
  unfold Spares at hspares
  push Not at hspares
  obtain ⟨i, ev, fn, hopen, honly⟩ := hspares
  refine ⟨i, ev, BPF.mem_events_of_fdOf _ fd (h.recorded fd _ hopen), fun fd' fn' hopen' => ?_⟩
  obtain ⟨hopen', hne⟩ := isOpen_close.mp hopen'
  exact honly fd' fn' hne hopen'

theorem stranded_delFd (hfd : s.fdOf ⟨i, p⟩ = some fd) (h : Stranded s) :
    Stranded (s.delFd i p) := by
  obtain ⟨j, ev, hev, hclosed⟩ := h
  exact ⟨j, ev, (s.mem_events_delFd hfd).mpr hev, hclosed⟩

/-- An event that has no descriptor gets none by a call that attaches nothing. -/
theorem stranded_next (h : Stranded s) (hc : ∀ i p, ¬ Attaches s i p c) : Stranded (c.next s) := by
  have hclose : ∀ fd, Stranded (s.close fd) := fun fd => by
    obtain ⟨i, ev, hev, hclosed⟩ := h
    exact ⟨i, ev, hev, fun fd' fn hopen => hclosed fd' fn (isOpen_close.mp hopen).1⟩
  have hchanges := c.changes s
  generalize c.next s = s' at hchanges ⊢
  cases hchanges with
  | same => exact h
  | attach hattaches => exact absurd hattaches (hc _ _)
  | close => exact hclose _
  | detach hcloses => exact stranded_delFd hcloses.1 (hclose _)
  | openOther =>
    obtain ⟨i, ev, hev, hclosed⟩ := h
    refine ⟨i, ev, hev, fun fd fn hopen => hclosed fd fn ?_⟩
    simpa [State.IsOpen] using hopen
  | closeOther => exact hclose _

/-! ### Careful calls -/

/-- The state after a call that keeps the records and the events, with the open descriptors. -/
theorem consistent_of_not_stranded (hcount : s.numOpenProbes = s.recorded)
    (hrecorded : ∀ fd site, s.IsOpen fd site → s.fdOf site = some fd) (h : ¬ Stranded s) :
    Consistent s :=
  ⟨hcount, hrecorded, (kprobes_iff hrecorded).mpr h⟩

theorem consistent_attach (h : Consistent s) (hp : s.fdOf ⟨i, p⟩ = none) :
    Consistent (s.attach i p) := by
  have hfdOf := s.fdOf_set i p (some s.fds.free)
  apply consistent_of_not_stranded
  · have hrecorded := recorded_attach s i p
    have hcount := h.count
    rw [hp] at hrecorded
    change _ + 0 = _ at hrecorded
    show s.numOpenProbes + 1 = (s.attach i p).recorded
    omega
  · intro fd site hopen
    refine (hfdOf _ _ site).trans ?_
    rcases isOpen_attach.mp hopen with ⟨rfl, rfl⟩ | hopen
    · exact if_pos rfl
    · -- A descriptor that was open before is recorded, so that it is not one of this probe.
      have hold := h.recorded fd site hopen
      rw [if_neg (fun heq => nomatch (heq ▸ hold).symm.trans hp)]
      exact hold
  · rintro ⟨j, ev, hev, hclosed⟩
    rcases (State.mem_events_addFd _).mp hev with hev | ⟨fn, hsite⟩
    · exact h.not_stranded ⟨j, ev, hev, fun fd fn hopen =>
        hclosed fd fn (isOpen_attach.mpr (.inr hopen))⟩
    · exact hclosed s.fds.free fn (isOpen_attach.mpr (.inl ⟨rfl, hsite⟩))

theorem consistent_close (h : Consistent s) (hspares : Spares s fd) : Consistent (s.close fd) := by
  apply consistent_of_not_stranded
  · exact h.count
  · intro fd' site hopen
    exact h.recorded fd' site (isOpen_close.mp hopen).1
  · rintro ⟨i, ev, hev, hclosed⟩
    refine h.not_stranded ⟨i, ev, hev, fun fd' fn hopen => ?_⟩
    by_cases hfd : fd' = fd
    · subst hfd
      obtain ⟨other, fn', hne, hopen'⟩ := hspares i ev fn hopen
      exact hclosed other fn' (isOpen_close.mpr ⟨hopen', hne⟩)
    · exact hclosed fd' fn (isOpen_close.mpr ⟨hopen, hfd⟩)

/-- The record of a descriptor that is closed goes. -/
theorem consistent_delFd (h : Consistent s) (hfd : s.fdOf ⟨i, p⟩ = some fd)
    (hclosed : fd ∉ s.fds.nums) : Consistent (s.delFd i p) := by
  have hfdOf := s.fdOf_set i p none
  apply consistent_of_not_stranded
  · have hrecorded := recorded_delFd hfd
    have hcount := h.count
    show s.numOpenProbes - 1 = (s.delFd i p).recorded
    omega
  · intro fd' site hopen
    have hold := h.recorded fd' site hopen
    refine (hfdOf _ _ site).trans ((if_neg fun heq => ?_).trans hold)
    obtain rfl : fd = fd' := Option.some.inj (hfd.symm.trans (heq ▸ hold))
    exact hclosed (Fds.mem_nums.mpr ⟨_, hopen⟩)
  · rintro ⟨j, ev, hev, hstranded⟩
    exact h.not_stranded ⟨j, ev, (s.mem_events_delFd hfd).mp hev, hstranded⟩

/-- **A careful call keeps the counts.** -/
theorem consistent_next (h : Consistent s) (hc : Careful s c) : Consistent (c.next s) := by
  have hchanges := c.changes s
  generalize c.next s = s' at hchanges ⊢
  cases hchanges with
  | same => exact h
  | attach hattaches => exact consistent_attach h (hc.1 _ _ hattaches)
  | close hcloses => exact consistent_close h (hc.2 _ _ _ hcloses)
  | detach hcloses =>
    have hclosed := consistent_close h (hc.2 _ _ _ hcloses)
    exact consistent_delFd hclosed hcloses.1 (by simp [State.close])
  | openOther =>
    have hopen : ∀ fd site, State.IsOpen { s with fds := s.fds.add .other } fd site
        ↔ s.IsOpen fd site := fun fd site => by simp [State.IsOpen]
    apply consistent_of_not_stranded
    · exact h.count
    · exact fun fd site hfd => h.recorded fd site ((hopen fd site).mp hfd)
    · rintro ⟨i, ev, hev, hclosed⟩
      exact h.not_stranded ⟨i, ev, hev, fun fd fn hfd => hclosed fd fn ((hopen _ _).mpr hfd)⟩
  | closeOther hother =>
    -- It is not the descriptor of a probe.
    exact consistent_close h fun i ev fn hopen => nomatch Fds.eq_of_mem hopen hother

end Bcc.Py
