import Bcc.Py.Records

namespace Bcc.Py

open Posix

/-!
# Probes of Python objects — what a call for a single probe can do

* `Call.changes` — a call attaches a probe, closes the descriptor of one, or has to do with other
  descriptors.
-/

/-- The call attaches a probe. -/
def Attaches (s : State) (i : Nat) (p : Probe) : Call → Prop
  | .attach i' p' _ r =>
    i' = i ∧ p' = p ∧ s.numOpenProbes + 1 ≤ r.limit ∧ r.load = none ∧ r.attach = true
  | _ => False

/-- The call detaches a probe, and the library releases its descriptor. -/
def Detaches (i : Nat) (p : Probe) : Call → Prop
  | .detachKprobe i' ev fn c _ => i' = i ∧ p = .kprobe ev fn ∧ c.releases = true
  | .detachUprobe i' ev c _ => i' = i ∧ p = .uprobe ev ∧ c.releases = true
  | _ => False

/-- The call closes the descriptor that is recorded for a probe. -/
def Closes (s : State) (fd i : Nat) (p : Probe) (c : Call) : Prop :=
  s.fdOf ⟨i, p⟩ = some fd ∧ fd ∈ s.fds.nums ∧ Detaches i p c

/-- The ways in which a call changes the state. -/
inductive Changes (s : State) (c : Call) : State → Prop where
  | same : Changes s c s
  | attach {i : Nat} {p : Probe} : Attaches s i p c → Changes s c (s.attach i p)
  | close {fd i : Nat} {p : Probe} : Closes s fd i p c → Changes s c (s.close fd)
  | detach {fd i : Nat} {p : Probe} : Closes s fd i p c → Changes s c ((s.close fd).delFd i p)
  | openOther : Changes s c { s with fds := s.fds.add .other }
  | closeOther {fd : Nat} : (fd, Owner.other) ∈ s.fds.entries → Changes s c (s.close fd)

variable {s : State} {c : Call}

theorem attachProbe_fst (i : Nat) (p : Probe) (failed : Raised) (r : Attaching) (s : State) :
    (attachProbe i p failed r s).1
      = if s.numOpenProbes + 1 ≤ r.limit ∧ r.load = none ∧ r.attach = true then s.attach i p
        else s := by
  unfold attachProbe checkProbeQuota
  by_cases hquota : s.numOpenProbes + 1 ≤ r.limit
  · rw [if_neg (by exact not_lt.mpr hquota)]
    cases r.load with
    | some e => simp
    | none => cases hattach : r.attach <;> simp [hquota]
  · rw [if_pos (by exact not_le.mp hquota)]
    simp [hquota]

theorem Attaches.next_eq {i : Nat} {p : Probe} (h : Attaches s i p c) :
    c.next s = s.attach i p := by
  cases c with
  | attach i' p' failed r =>
    obtain ⟨rfl, rfl, hallowed⟩ := h
    exact (attachProbe_fst i' p' failed r s).trans (if_pos hallowed)
  | detachKprobe | detachUprobe | openOther | closeOther => exact h.elim

/-- What the library leaves of a descriptor. -/
theorem closePerfEventFd_cases (c : Closing) (s : State) (fd : Nat) :
    (fd ∈ s.fds.nums ∧ c.releases = true ∧ (closePerfEventFd c s fd).2 = s.close fd)
      ∨ (¬ (fd ∈ s.fds.nums ∧ c.releases = true) ∧ closePerfEventFd c s fd = (false, s)) := by
  unfold closePerfEventFd
  by_cases hmem : fd ∈ s.fds.nums
  · by_cases hrel : c.releases = true
    · simp [hmem, hrel]
    · have hclose : c.close = false := by
        simp only [Closing.releases, Bool.or_eq_true, not_or, Bool.not_eq_true] at hrel
        exact hrel.1
      simp [hrel, hclose]
  · simp [hmem]

/-- The call changes nothing, or closes the descriptor of the probe, with or without its record. -/
def MayDetach (s : State) (i : Nat) (p : Probe) (c : Call) : Prop :=
  (c.next s = s ∧ ∀ fd, ¬ Closes s fd i p c)
    ∨ ∃ fd, Closes s fd i p c ∧ (c.next s = s.close fd ∨ c.next s = (s.close fd).delFd i p)

theorem detachKprobe_mayDetach (i : Nat) (ev fn : Name) (c : Closing) (detach : Bool) (s : State) :
    MayDetach s i (.kprobe ev fn) (.detachKprobe i ev fn c detach) := by
  have hnext : Call.next s (.detachKprobe i ev fn c detach)
      = (detachKprobeEventByFn i ev fn c detach s).1 := rfl
  rw [MayDetach, hnext, detachKprobeEventByFn]
  cases hev : (s.obj i).kprobeFds.get? ev with
  | none =>
    have hnone : s.fdOf ⟨i, .kprobe ev fn⟩ = none := by simp [State.fdOf, BPF.fdOf, BPF.fnFds, hev]
    exact .inl ⟨rfl, fun fd h => absurd (hnone.symm.trans h.1) (by simp)⟩
  | some fns =>
    have hfdOf : s.fdOf ⟨i, .kprobe ev fn⟩ = fns.get? fn := by
      simp [State.fdOf, BPF.fdOf, BPF.fnFds, hev]
    dsimp only
    cases hfn : fns.get? fn with
    | none =>
      exact .inl ⟨rfl, fun fd h => absurd ((hfdOf.trans hfn).symm.trans h.1) (by simp)⟩
    | some fd =>
      have hfd := hfdOf.trans hfn
      rcases closePerfEventFd_cases c s fd with ⟨hmem, hrel, hclose⟩ | ⟨hnot, hclose⟩
      · refine .inr ⟨fd, ⟨hfd, hmem, rfl, rfl, hrel⟩, ?_⟩
        dsimp only
        rw [hclose]
        split
        · exact .inl rfl
        · split <;> exact .inr rfl
      · refine .inl ⟨by simp [hclose], fun fd' h => hnot ?_⟩
        obtain rfl : fd = fd' := Option.some.inj (hfd.symm.trans h.1)
        exact ⟨h.2.1, h.2.2.2.2⟩

theorem detachUprobe_mayDetach (i : Nat) (ev : Name) (c : Closing) (detach : Bool) (s : State) :
    MayDetach s i (.uprobe ev) (.detachUprobe i ev c detach) := by
  have hnext : Call.next s (.detachUprobe i ev c detach)
      = (detachUprobeEvent i ev c detach s).1 := rfl
  rw [MayDetach, hnext, detachUprobeEvent]
  cases hev : (s.obj i).uprobeFds.get? ev with
  | none => exact .inl ⟨rfl, fun fd h => absurd (hev.symm.trans h.1) (by simp)⟩
  | some fd =>
    rcases closePerfEventFd_cases c s fd with ⟨hmem, hrel, hclose⟩ | ⟨hnot, hclose⟩
    · refine .inr ⟨fd, ⟨hev, hmem, rfl, rfl, hrel⟩, ?_⟩
      dsimp only
      rw [hclose]
      split
      · exact .inl rfl
      · split
        · exact .inl rfl
        · exact .inr rfl
    · refine .inl ⟨by simp [hclose], fun fd' h => hnot ?_⟩
      obtain rfl : fd = fd' := Option.some.inj (hev.symm.trans h.1)
      exact ⟨h.2.1, h.2.2.2.2⟩

theorem MayDetach.changes {i : Nat} {p : Probe} (h : MayDetach s i p c) :
    Changes s c (c.next s) := by
  rcases h with ⟨h, -⟩ | ⟨fd, hcloses, h | h⟩
  · rw [h]
    exact .same
  · rw [h]
    exact .close hcloses
  · rw [h]
    exact .detach hcloses

theorem Call.changes (s : State) (c : Call) : Changes s c (c.next s) := by
  cases c with
  | attach i p failed r =>
    rw [show Call.next s (.attach i p failed r) = _ from attachProbe_fst i p failed r s]
    split
    · next h => exact .attach ⟨rfl, rfl, h⟩
    · exact .same
  | detachKprobe i ev fn c detach => exact (detachKprobe_mayDetach i ev fn c detach s).changes
  | detachUprobe i ev c detach => exact (detachUprobe_mayDetach i ev c detach s).changes
  | openOther => exact .openOther
  | closeOther fd =>
    show Changes s _ (if s.fds.lookup fd = some .other then s.close fd else s)
    split
    · next h => exact .closeOther (Fds.mem_of_lookup h)
    · exact .same

theorem Closes.next_eq {fd i : Nat} {p : Probe} (h : Closes s fd i p c) :
    c.next s = s.close fd ∨ c.next s = (s.close fd).delFd i p := by
  have hmay : MayDetach s i p c := by
    cases c with
    | detachKprobe i' ev fn c detach =>
      obtain ⟨rfl, rfl, -⟩ := h.2.2
      exact detachKprobe_mayDetach i' ev fn c detach s
    | detachUprobe i' ev c detach =>
      obtain ⟨rfl, rfl, -⟩ := h.2.2
      exact detachUprobe_mayDetach i' ev c detach s
    | attach | openOther | closeOther => exact h.2.2.elim
  rcases hmay with ⟨-, hnot⟩ | ⟨fd', hcloses, hnext⟩
  · exact absurd h (hnot fd)
  · obtain rfl : fd' = fd := Option.some.inj (hcloses.1.symm.trans h.1)
    exact hnext

end Bcc.Py
