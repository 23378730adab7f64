import Bcc.Api.Effects

namespace Bcc.Api

open List Run

/-!
# The C++ API — each descriptor is released once

The ledger of a `BPF` object has what the probes have acquired, what was closed or deleted, and what
the recorded probes hold.

* `step_moves` — what an operation moves in the ledger;
* `releasedOnce_iff` — a detach that reports an error, and `detach_all`, leave records of
  descriptors that they have closed, which are closed again.
-/

variable {Key : Type} [DecidableEq Key]

/-! ### The ledger -/

def State.ledger (s : State Key) : Ledger Resource :=
  ⟨s.acquired, s.released, heldBy s.probes.entries⟩

/-- The numbers of what was acquired are used up. -/
def Fresh (s : State Key) : Prop := ∀ x ∈ s.acquired, x.id < s.next

/-! ### What the operations do to the ledger -/

section Moves

variable {s s' : State Key}

omit [DecidableEq Key] in
/-- Something new was acquired, and is held or was released. -/
theorem acquire_moves {xs : List Resource} {n : Nat} (hs : Fresh s) (hnodup : xs.Nodup)
    (hids : ∀ x ∈ xs, s.next ≤ x.id ∧ x.id < n) (hn : s.next ≤ n) (hnext : s'.next = n)
    (hacquired : s'.acquired = s.acquired ++ xs)
    (huses : (s'.released ++ heldBy s'.probes.entries).Perm
      (s.released ++ heldBy s.probes.entries ++ xs)) :
    Fresh s' ∧ ∃ new, Ledger.Moves s.ledger s'.ledger new 0 := by
  refine ⟨fun x hx => ?_, xs, .acquire (Multiset.coe_nodup.mpr hnodup) (fun x hx hold => ?_) ?_
    (Multiset.coe_eq_coe.mpr huses)⟩
  · rw [hacquired] at hx
    rw [hnext]
    rcases mem_append.mp hx with hx | hx
    · exact Nat.lt_of_lt_of_le (hs x hx) hn
    · exact (hids x hx).2
  · have hlt := hs x (Multiset.mem_coe.mp hold)
    have hge := (hids x (Multiset.mem_coe.mp hx)).1
    omega
  · show (s'.acquired : Multiset Resource) = _
    rw [hacquired]
    rfl

/-- A probe was recorded with what it has acquired. -/
theorem record_uses (s : State Key) {k : Table × Key} (hkey : k ∉ s.probes) (p : OpenProbe) :
    (s.released ++ heldBy (s.probes.insert k p).entries).Perm
      (s.released ++ heldBy s.probes.entries ++ p.held.resources) := by
  rw [AList.entries_insert_of_notMem hkey, append_assoc]
  exact List.Perm.append_left _ perm_append_comm

theorem attachEvent_moves (table : Table) (key : Key) (func : String) (load attach unload : Bool)
    (hs : Fresh s) (hs' : s' = (attachEvent table key func load attach unload s).2) :
    Fresh s' ∧ ∃ new, Ledger.Moves s.ledger s'.ledger new 0 := by
  rcases attachEvent_cases s table key func load attach unload with ⟨funcs, h⟩ | ⟨hkey, funcs, h⟩
  · obtain rfl := hs'.trans (congrArg Prod.snd h)
    exact ⟨hs, 0, .refl _⟩
  · obtain rfl := hs'.trans (congrArg Prod.snd h)
    have hids : ∀ x ∈ [Resource.fd s.next], s.next ≤ x.id ∧ x.id < s.next + 1 := by
      intro x hx
      rw [mem_singleton.mp hx]
      exact ⟨Nat.le_refl _, Nat.lt_succ_self _⟩
    exact acquire_moves hs (nodup_singleton _) hids (Nat.le_succ _) rfl rfl
      (record_uses s hkey ⟨func, .perfEventFd s.next⟩)

omit [DecidableEq Key] in
theorem newVector_nodup (s : State Key) (n : Nat) : (s.newVector n).resources.Nodup := by
  refine List.Nodup.append ?_ (nodup_singleton _) ?_
  · exact List.Nodup.map (fun _ _ h => Resource.fd.inj h) nodup_range'
  · intro x hx hx'
    obtain ⟨fd, -, rfl⟩ := mem_map.mp hx
    cases mem_singleton.mp hx'

omit [DecidableEq Key] in
theorem newVector_ids (s : State Key) (n : Nat) :
    ∀ x ∈ (s.newVector n).resources, s.next ≤ x.id ∧ x.id < s.next + 1 + n := by
  intro x hx
  rcases mem_append.mp hx with hx | hx
  · obtain ⟨fd, hfd, rfl⟩ := mem_map.mp hx
    obtain ⟨hge, hlt⟩ := mem_range'_1.mp hfd
    exact ⟨Nat.le_of_succ_le hge, hlt⟩
  · rw [mem_singleton.mp hx]
    show s.next ≤ s.next ∧ s.next < s.next + 1 + n
    omega

theorem attachPerfEvent_moves (key : Key) (func : String) (load : Bool) (attach : List Bool)
    (unload : Bool) (hs : Fresh s) (hs' : s' = (attachPerfEvent key func load attach unload s).2) :
    Fresh s' ∧ ∃ new, Ledger.Moves s.ledger s'.ledger new 0 := by
  rcases attachPerfEvent_snd s key func load attach unload with
    ⟨funcs, h⟩ | ⟨n, funcs, h⟩ | ⟨hkey, n, funcs, h⟩
  · obtain rfl := hs'.trans h
    exact ⟨hs, 0, .refl _⟩
  · obtain rfl := hs'.trans h
    refine acquire_moves hs (newVector_nodup s n) (newVector_ids s n) (by omega) rfl rfl ?_
    show (s.released ++ (s.newVector n).resources ++ heldBy s.probes.entries).Perm _
    rw [append_assoc, append_assoc]
    exact List.Perm.append_left _ perm_append_comm
  · obtain rfl := hs'.trans h
    exact acquire_moves hs (newVector_nodup s n) (newVector_ids s n) (by omega) rfl rfl
      (record_uses s hkey ⟨func, s.newVector n⟩)

omit [DecidableEq Key] in
/-- Something that is held was released. -/
theorem touch_moves (s s' : State Key) (xs : List Resource) (hbooks : s.ledger.Books)
    (hxs : ∀ x ∈ xs, x ∈ heldBy s.probes.entries) (hacquired : s'.acquired = s.acquired)
    (huses : (s'.released ++ heldBy s'.probes.entries).Perm
      (s.released ++ heldBy s.probes.entries ++ xs)) :
    ∃ new, Ledger.Moves s.ledger s'.ledger new xs :=
  ⟨0, hbooks.touch hxs (congrArg (fun xs : List Resource => (xs : Multiset Resource)) hacquired)
    (Multiset.coe_eq_coe.mpr huses)⟩

theorem detach_moves (table : Table) (key : Key) (r : Results) (hs : Fresh s)
    (hbooks : s.ledger.Books) (hs' : s' = (detach table key r s).2) :
    Fresh s' ∧ ∃ new extra, Ledger.Moves s.ledger s'.ledger new extra
      ∧ (extra = 0 ↔ ∀ p, s.probes.lookup (table, key) = some p → Succeeds table r p s) := by
  rcases detach_snd table key r s with ⟨hnone, h⟩ | ⟨p, funcs, hfind, ⟨hsucc, h⟩ | ⟨hfail, h⟩⟩
  · obtain rfl := hs'.trans h
    exact ⟨hs, 0, 0, .refl _, iff_of_true rfl fun p hp => nomatch hnone.symm.trans hp⟩
  · obtain rfl := hs'.trans h
    have huses :
        (s.released ++ p.held.resources ++ heldBy (s.probes.erase (table, key)).entries).Perm
          (s.released ++ heldBy s.probes.entries ++ []) := by
      rw [append_nil, append_assoc]
      exact (heldBy_erase hfind).symm.append_left _
    obtain ⟨new, hmoves⟩ := touch_moves s { s with
      funcs := funcs
      probes := s.probes.erase (table, key)
      released := s.released ++ p.held.resources } [] hbooks nofun rfl huses
    refine ⟨hs, new, _, hmoves, iff_of_true rfl fun q hq => ?_⟩
    cases hfind.symm.trans hq
    exact hsucc
  · obtain rfl := hs'.trans h
    have huses : (s.released ++ p.held.resources ++ heldBy s.probes.entries).Perm
        (s.released ++ heldBy s.probes.entries ++ p.held.resources) := by
      rw [append_assoc, append_assoc]
      exact List.Perm.append_left _ perm_append_comm
    have hheld : ∀ x ∈ p.held.resources, x ∈ heldBy s.probes.entries := fun x hx =>
      (heldBy_erase hfind).mem_iff.mpr (mem_append_left _ hx)
    obtain ⟨new, hmoves⟩ := touch_moves s { s with
      funcs := funcs
      released := s.released ++ p.held.resources } p.held.resources hbooks hheld rfl huses
    refine ⟨hs, new, _, hmoves, iff_of_false ?_ fun hall => hfail (hall p hfind)⟩
    exact fun hzero => p.held.resources_ne_nil ((Multiset.coe_eq_zero _).mp hzero)

omit [DecidableEq Key] in
theorem detachAll_moves (r : Table → Key → Results) (hs : Fresh s) (hbooks : s.ledger.Books)
    (hs' : s' = detachAll r s) :
    Fresh s' ∧ ∃ new extra, Ledger.Moves s.ledger s'.ledger new extra
      ∧ (extra = 0 ↔ s.probes.entries = []) := by
  obtain ⟨funcs, h⟩ := detachAll_eq r s
  obtain rfl := hs'.trans h
  obtain ⟨new, hmoves⟩ := touch_moves s { s with
    funcs := funcs
    released := s.released ++ heldBy s.probes.entries } (heldBy s.probes.entries) hbooks
    (fun _ hx => hx) rfl (List.Perm.refl _)
  refine ⟨hs, new, _, hmoves, (Multiset.coe_eq_zero _).trans ?_⟩
  rw [heldBy, flatMap_eq_nil_iff]
  constructor
  · intro hall
    apply eq_nil_iff_forall_not_mem.mpr
    intro e he
    exact e.2.held.resources_ne_nil (hall e he)
  · intro hnil
    rw [hnil]
    exact nofun

end Moves

/-! ### Whole runs -/

/-- The operation leaves no record of a probe that it has closed: a detach succeeds, and
    `detach_all` has nothing to do. -/
def Careful (s : State Key) : Op Key → Prop
  | .detach table key r => ∀ p, s.probes.lookup (table, key) = some p → Succeeds table r p s
  | .detachAll _ => s.probes.entries = []
  | _ => True

theorem step_moves (s : State Key) (op : Op Key) (hs : Fresh s) (hbooks : s.ledger.Books) :
    Fresh (step s op) ∧ ∃ new extra, Ledger.Moves s.ledger (step s op).ledger new extra
      ∧ (extra = 0 ↔ Careful s op) := by
  cases op with
  | attachKprobe | attachUprobe | attachTracepoint | attachRawTracepoint =>
    obtain ⟨hfresh, new, hmoves⟩ := attachEvent_moves _ _ _ _ _ _ hs rfl
    exact ⟨hfresh, new, 0, hmoves, iff_of_true rfl trivial⟩
  | attachPerfEvent key func load attach unload =>
    obtain ⟨hfresh, new, hmoves⟩ := attachPerfEvent_moves key func load attach unload hs rfl
    exact ⟨hfresh, new, 0, hmoves, iff_of_true rfl trivial⟩
  | detach table key r => exact detach_moves table key r hs hbooks rfl
  | detachAll r => exact detachAll_moves r hs hbooks rfl

/-- What the destructor leaves behind when the operations `ops` are over. -/
def destroyed (ops : List (Op Key)) (r : Table → Key → Results) : State Key :=
  detachAll r (ops.foldl step start)

/-- **Releases.** When the object is destroyed, everything that its probes have acquired was
    released once, exactly if each of its operations was careful. -/
theorem releasedOnce_iff (ops : List (Op Key)) (r : Table → Key → Results) :
    (∀ x ∈ (destroyed ops r).acquired, (destroyed ops r).released.count x = 1)
      ↔ Each step Careful start ops := by
  have hbooks : (start : State Key).ledger.Books := ⟨Multiset.nodup_zero, le_rfl, fun _ hx => hx⟩
  -- the destructor releases what is held
  obtain ⟨funcs, hall⟩ := detachAll_eq r (ops.foldl step start)
  unfold destroyed
  rw [hall]
  have hfresh : Fresh (start : State Key) := nofun
  exact Ledger.once_run_iff step_moves hfresh hbooks rfl ops rfl rfl

/-- Nothing fails. -/
def allWell : Results := ⟨fun _ => true, true, true⟩

/-- `detach_all`, with everything going well, and then the destructor: the descriptor of the probe
    is closed twice. -/
theorem not_releasedOnce_after_detachAll :
    ¬ ∀ x ∈ (destroyed [.attachKprobe "p_do_fork" "on_fork" true true true,
        .detachAll fun _ _ => allWell] fun _ _ => allWell).acquired,
      (destroyed [.attachKprobe "p_do_fork" "on_fork" true true true,
        .detachAll fun _ _ => allWell] fun _ _ => allWell).released.count x = 1 := by
  decide

end Bcc.Api
