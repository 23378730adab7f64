import Bcc.Py.Careful
import Bcc.Run.Ledger

namespace Bcc.Py

open Assoc List Posix Run

/-!
# Probes of Python objects — the counts after any sequence of methods

* `Op.plays` — a method does what its calls for single probes do, and all or none of them attach;
* `counted_iff` — the counts are right after every method exactly if every call is careful.
-/

/-! ### Methods and their calls -/

/-- What a method does is what the calls do, and each of them is of a kind. -/
structure Out.Plays (o : Out) (s : State) (kind : Call → Prop) : Prop where
  state : o.state = o.calls.foldl Call.next s
  calls : ∀ c ∈ o.calls, kind c

/-- The call is to attach a probe. -/
def Call.IsAttach : Call → Prop
  | .attach .. => True
  | _ => False

/-- The call is not to attach a probe. -/
def Call.IsOther (c : Call) : Prop := ¬ c.IsAttach

section Plays

variable {kind : Call → Prop} {s : State}

theorem raise_plays (e : Raised) : (raise e s).Plays s kind := ⟨rfl, nofun⟩

theorem Call.out_plays {c : Call} (h : kind c) : (c.out s).Plays s kind :=
  ⟨rfl, fun _ hc => mem_singleton.mp hc ▸ h⟩

theorem Out.Plays.andThen {o : Out} (h : o.Plays s kind) {f : State → Out}
    (hf : ∀ s, (f s).Plays s kind) : (o.andThen f).Plays s kind := by
  unfold Out.andThen
  cases o.raised with
  | some e => exact h
  | none =>
    refine ⟨?_, forall_mem_append.mpr ⟨h.calls, (hf o.state).calls⟩⟩
    show (f o.state).state = (o.calls ++ (f o.state).calls).foldl Call.next s
    rw [foldl_append, ← h.state]
    exact (hf o.state).state

variable {α : Type} {f : α → State → Out}

theorem forEach_plays (hf : ∀ x s, (f x s).Plays s kind) (xs : List α) (s : State) :
    (forEach f xs s).Plays s kind := by
  induction xs generalizing s with
  | nil => exact ⟨rfl, nofun⟩
  | cons x xs ih => exact (hf x s).andThen ih

theorem tryEach_plays (hf : ∀ x s, (f x s).Plays s kind) (xs : List α) (s : State) :
    (tryEach f xs s).1.Plays s kind := by
  induction xs generalizing s with
  | nil => exact ⟨rfl, nofun⟩
  | cons x xs ih =>
    have hrest := ih (f x s).state
    refine ⟨?_, forall_mem_append.mpr ⟨(hf x s).calls, hrest.calls⟩⟩
    show (tryEach f xs (f x s).state).1.state = ((f x s).calls ++ _).foldl Call.next s
    rw [foldl_append, ← (hf x s).state]
    exact hrest.state

end Plays

section Methods

variable (i : Nat) (s : State)

theorem attachKprobeEvent_plays (pfx kind : String) (event fnName : Name) (r : Attaching) :
    (attachKprobeEvent pfx kind i event fnName r s).Plays s Call.IsAttach :=
  Call.out_plays trivial

theorem attachMatches_plays {attach : Name → Name → Attaching → State → Out}
    (h : ∀ event fnName r s, (attach event fnName r s).Plays s Call.IsAttach) (kind : String)
    (fnName : Name) (matched : List (Name × Attaching)) :
    (attachMatches attach kind fnName matched s).Plays s Call.IsAttach := by
  have htry := tryEach_plays (fun (m : Name × Attaching) s => h m.1 fnName m.2 s) matched s
  unfold attachMatches
  dsimp only
  split
  · exact ⟨htry.state, htry.calls⟩
  · exact htry

theorem attachUprobePlace_plays (pfx : Char) (kind : String) (place : Place) (pid : Int)
    (r : Attaching) : (attachUprobePlace pfx kind i place pid r s).Plays s Call.IsAttach := by
  unfold attachUprobePlace
  split
  · exact raise_plays _
  · exact Call.out_plays trivial

theorem detachKprobeByFn_plays (evName fnName : Name) (r : Detaching) :
    (detachKprobeByFn i evName fnName r s).Plays s Call.IsOther :=
  Call.out_plays id

theorem detachKprobeEvent_plays (evName : Name) (r : Detaching) :
    (detachKprobeEvent i evName r s).Plays s Call.IsOther := by
  unfold detachKprobeEvent
  split
  · exact raise_plays _
  · exact forEach_plays (fun fnName s => detachKprobeByFn_plays i s evName fnName r) _ s

theorem detachKprobeNamed_plays (pfx : String) (event fnName : Name) (r : Detaching) :
    (detachKprobeNamed pfx i event fnName r s).Plays s Call.IsOther := by
  unfold detachKprobeNamed
  split
  · exact detachKprobeByFn_plays i s _ fnName r
  · exact detachKprobeEvent_plays i s _ r

theorem detachUprobeNamed_plays (evName : Name) (r : Detaching) :
    (detachUprobeNamed i evName r s).Plays s Call.IsOther :=
  Call.out_plays id

theorem detachUprobePlace_plays (pfx : Char) (place : Place) (pid : Int) (r : Detaching) :
    (detachUprobePlace pfx i place pid r s).Plays s Call.IsOther := by
  unfold detachUprobePlace
  split
  · exact raise_plays _
  · exact detachUprobeNamed_plays i s _ r

theorem cleanup_plays (r : Detaching) : (cleanup i r s).Plays s Call.IsOther :=
  (forEach_plays (fun evName s => detachKprobeEvent_plays i s evName r) _ s).andThen fun s =>
    forEach_plays (fun evName s => detachUprobeNamed_plays i s evName r) _ s

end Methods

/-- **A method makes calls of one kind.** -/
theorem Op.plays (op : Op) (s : State) :
    (op.run s).Plays s Call.IsAttach ∨ (op.run s).Plays s Call.IsOther := by
  cases op with
  | attachKprobe i event fnName r | attachKretprobe i event fnName r =>
    exact .inl (attachKprobeEvent_plays i s _ _ event fnName r)
  | attachKprobeRe i found fnName limit =>
    left
    show (Py.attachKprobeRe i found fnName limit s).Plays s Call.IsAttach
    unfold Py.attachKprobeRe
    split
    · exact raise_plays _
    · split
      · exact raise_plays _
      · exact attachMatches_plays s (fun _ _ _ s => attachKprobeEvent_plays i s ..) ..
  | attachKretprobeRe i found fnName =>
    left
    show (Py.attachKretprobeRe i found fnName s).Plays s Call.IsAttach
    unfold Py.attachKretprobeRe
    split
    · exact raise_plays _
    · exact attachMatches_plays s (fun _ _ _ s => attachKprobeEvent_plays i s ..) ..
  | attachUprobe i place pid r | attachUretprobe i place pid r =>
    exact .inl (attachUprobePlace_plays i s _ _ place pid r)
  | attachUprobeRe i found pid limit =>
    left
    show (Py.attachUprobeRe i found pid limit s).Plays s Call.IsAttach
    unfold Py.attachUprobeRe
    split
    · exact raise_plays _
    · split
      · exact raise_plays _
      · exact forEach_plays (fun _ s => attachUprobePlace_plays i s ..) ..
  | attachUretprobeRe i found pid =>
    left
    show (Py.attachUretprobeRe i found pid s).Plays s Call.IsAttach
    unfold Py.attachUretprobeRe
    split
    · exact raise_plays _
    · exact forEach_plays (fun _ s => attachUprobePlace_plays i s ..) ..
  | detachKprobeEventByFn i evName fnName r =>
    exact .inr (detachKprobeByFn_plays i s evName fnName r)
  | detachKprobeEvent i evName r => exact .inr (detachKprobeEvent_plays i s evName r)
  | detachKprobe i event fnName r | detachKretprobe i event fnName r =>
    exact .inr (detachKprobeNamed_plays i s _ event fnName r)
  | detachUprobeEvent i evName r => exact .inr (detachUprobeNamed_plays i s evName r)
  | detachUprobe i place pid r | detachUretprobe i place pid r =>
    exact .inr (detachUprobePlace_plays i s _ place pid r)
  | cleanup i r => exact .inr (cleanup_plays i s r)
  | openOther | closeOther fd => exact .inr (Call.out_plays id)

/-! ### Sequences of methods -/

/-- The state after a method. -/
def Op.next (s : State) (op : Op) : State := (op.run s).state

/-- The calls for single probes that a sequence of methods makes. -/
def callsOf : State → List Op → List Call
  | _, [] => []
  | s, op :: ops => (op.run s).calls ++ callsOf (op.next s) ops

variable {s : State}

theorem Attaches.isAttach {i : Nat} {p : Probe} {c : Call} (h : Attaches s i p c) : c.IsAttach := by
  cases c with
  | attach => trivial
  | detachKprobe | detachUprobe | openOther | closeOther => exact h.elim

theorem Closes.not_isAttach {fd i : Nat} {p : Probe} {c : Call} (h : Closes s fd i p c) :
    ¬ c.IsAttach := by
  cases c with
  | attach => exact h.2.2.elim
  | detachKprobe | detachUprobe | openOther | closeOther => exact id

/-- A call that is not careful attaches a probe that is recorded, or closes the only descriptor of
    an event. -/
theorem not_careful_cases {c : Call} (h : ¬ Careful s c) :
    (∃ i p, Attaches s i p c ∧ s.fdOf ⟨i, p⟩ ≠ none)
      ∨ ∃ fd i p, Closes s fd i p c ∧ ¬ Spares s fd := by
  rw [Careful, not_and_or] at h
  push Not at h
  exact h

/-- A probe that is recorded and attached again leaves the counter too high. -/
theorem excess_of_not_careful {c : Call} (h : Consistent s) (hc : c.IsAttach)
    (hcareless : ¬ Careful s c) : Excess (c.next s) := by
  rcases not_careful_cases hcareless with ⟨i, p, hattaches, hp⟩ | ⟨fd, i, p, hcloses, -⟩
  · rw [hattaches.next_eq]
    exact excess_attach h hp
  · exact absurd hc hcloses.not_isAttach

/-- The only descriptor of an event, if it is closed, leaves the event without one. -/
theorem stranded_of_not_careful {c : Call} (h : Consistent s) (hc : c.IsOther)
    (hcareless : ¬ Careful s c) : Stranded (c.next s) := by
  rcases not_careful_cases hcareless with ⟨i, p, hattaches, -⟩ | ⟨fd, i, p, hcloses, hspares⟩
  · exact absurd hattaches.isAttach hc
  · have hclose := stranded_close h hspares
    rcases hcloses.next_eq with hnext | hnext
    · exact hnext ▸ hclose
    · exact hnext ▸ stranded_delFd hcloses.1 hclose

/-- The counts after a method tell whether its calls were careful. -/
theorem Op.consistent_next_iff (h : Consistent s) (op : Op) :
    Consistent (op.next s) ↔ Each Call.next Careful s (op.run s).calls := by
  rcases op.plays s with hplays | hplays
  · -- The counter is too high for good once it is.
    rw [Op.next, hplays.state]
    exact @each_iff_foldl _ _ Call.next Careful Consistent Excess _
      (fun _ _ _ h hc => consistent_next h hc)
      (fun s c hc h => excess_of_not_careful h (hplays.calls c hc))
      (fun _ c _ h => excess_next h c) (fun _ h hgood => hgood.not_excess h) s h
  · -- An event that has lost its descriptors gets none by detaching others.
    rw [Op.next, hplays.state]
    exact @each_iff_foldl _ _ Call.next Careful Consistent Stranded _
      (fun _ _ _ h hc => consistent_next h hc)
      (fun s c hc h => stranded_of_not_careful h (hplays.calls c hc))
      (fun _ c hc h => stranded_next h fun i p hattaches => hplays.calls c hc hattaches.isAttach)
      (fun _ h hgood => hgood.not_stranded h) s h

/-- A process that has no probes. -/
def start (others : Nat) : State :=
  ⟨0, .empty, (List.range others).foldl (fun fds _ => fds.add .other) ⟨[], nodup_nil⟩⟩

theorem start_consistent (others : Nat) : Consistent (start others) := by
  have hother : ∀ e ∈ (start others).fds.entries, e.2 = .other := by
    apply List.foldlRecOn (motive := fun fds : Fds Owner => ∀ e ∈ fds.entries, e.2 = .other)
    · exact forall_mem_nil _
    · intro fds hfds _ _
      exact forall_mem_cons.mpr ⟨rfl, hfds⟩
  have hnone : ∀ fd site, ¬ (start others).IsOpen fd site := fun fd site hopen =>
    nomatch hother _ hopen
  apply consistent_of_not_stranded
  · rfl
  · exact fun fd site hopen => absurd hopen (hnone fd site)
  · rintro ⟨i, ev, hev, -⟩
    exact absurd hev not_mem_nil

/-- **The counts.**  The counter, the records and the open descriptors agree after every method of
    a sequence exactly if each call for a single probe that it makes is careful. -/
theorem counted_iff (others : Nat) (ops : List Op) :
    Each Op.next (fun s op => Consistent (op.next s)) (start others) ops
      ↔ Each Call.next Careful (start others) (callsOf (start others) ops) := by
  suffices hall : ∀ s, Consistent s → (Each Op.next (fun s op => Consistent (op.next s)) s ops
      ↔ Each Call.next Careful s (callsOf s ops)) from hall _ (start_consistent others)
  induction ops with
  | nil => exact fun _ _ => Iff.rfl
  | cons op ops ih =>
    intro s hs
    have hstate : op.next s = (op.run s).calls.foldl Call.next s :=
      (op.plays s).elim Out.Plays.state Out.Plays.state
    rw [callsOf, each_append, ← op.consistent_next_iff hs, ← hstate]
    exact and_congr_right fun hnext => ih _ hnext

/-- A probe is attached without a failure. -/
def attached : Attaching := ⟨1000, none, true⟩

/-- Probes are detached without a failure. -/
def detached : Detaching :=
  ⟨fun _ _ => ⟨true, true, false⟩, fun _ => true, fun _ => ⟨true, true, false⟩, fun _ => true⟩

/-- A kprobe is attached twice. -/
def attachedTwice : State :=
  [Op.attachKprobe 0 "schedule".toList "count".toList attached,
    .attachKprobe 0 "schedule".toList "count".toList attached].foldl Op.next (start 3)

/-- A kprobe is attached and detached. -/
def attachedDetached : State :=
  [Op.attachKprobe 0 "schedule".toList "count".toList attached,
    .detachKprobe 0 "schedule".toList [] detached].foldl Op.next (start 3)

/-- A kprobe that is attached twice counts as two, and the record of its first descriptor is gone;
    `num_open_kprobes` counts a kprobe that is detached. -/
theorem not_counted_of_repeated :
    (attachedTwice.numOpenProbes = 2 ∧ attachedTwice.recorded = 1
        ∧ attachedTwice.IsOpen 3 ⟨0, .kprobe "p_schedule".toList "count".toList⟩
        ∧ attachedTwice.fdOf ⟨0, .kprobe "p_schedule".toList "count".toList⟩ = some 4
        ∧ ¬ Consistent attachedTwice)
      ∧ (attachedDetached.obj 0).numOpenKprobes = 1 ∧ attachedDetached.openEvents 0 = []
        ∧ ¬ Consistent attachedDetached := by
  have htwice : attachedTwice.numOpenProbes = 2 ∧ attachedTwice.recorded = 1 := by decide +kernel
  have hopen : attachedTwice.IsOpen 3 ⟨0, .kprobe "p_schedule".toList "count".toList⟩ := by
    unfold State.IsOpen
    decide +kernel
  have hdetached : (attachedDetached.obj 0).numOpenKprobes = 1
      ∧ attachedDetached.openEvents 0 = [] := by decide +kernel
  refine ⟨⟨htwice.1, htwice.2, hopen, by decide +kernel, fun h => ?_⟩, hdetached.1, hdetached.2,
    fun h => ?_⟩
  · have hcount := h.count
    cases hcount
  · have hkprobes := h.kprobes 0
    cases hkprobes

end Bcc.Py
