import Bcc.Run.Along
import Bcc.Syms.ProcSyms

namespace Bcc.Syms

open CText Elf Sorting

/-!
# Symbols — a process that changes under the list of its modules

A `ProcSyms` loads the modules of a process once, and again when it finds that the process runs
another executable.  It looks at the inode of the executable, and at the root directory and the
mount namespace of the process.

* `ProcStat.isStale`, `ProcSyms.resolveAddr`, `ProcSyms.resolveName` — the calls.
* `Tracked.step` — a process that changes, and the calls made meanwhile.
* `Tracked.Fresh` — a call answers from modules loaded after the last change of the inode.
* `Tracked.MovesWithExec`, `Tracked.fresh_iff` — the histories in which all calls do.
-/

/-! ### The process -/

/-- What can be read about the process at one time. -/
structure Target where
  /-- `stat` on `/proc/PID/exe` succeeds, and the inode it gives. -/
  exeReadable : Bool
  inode : Nat
  /-- The C string in the buffer after `readlink`, which does not write the NUL: the text of the
      link, and what the buffer held behind it. -/
  root : Option String
  mountNs : Option String
  /-- What `open` returns for `/proc/PID/root`. -/
  openRoot : Int
  fs : FileSystem
  files : ModuleFiles
  maps : List ModInfo
  perfMaps : List ModInfo

/-- `ProcStat`. -/
structure ProcStat where
  rootFd : Int
  root : String
  mountNs : String
  inode : Nat

namespace ProcStat

/-- `getinode_`, into a variable with a value. -/
def getinode (t : Target) (old : Nat) : Nat := if t.exeReadable then t.inode else old

/-- `refresh_root`. -/
def refreshRoot (t : Target) (p : ProcStat) : Bool × ProcStat :=
  match t.root, t.mountNs with
  | some root, some mountNs =>
    if p.rootFd ≠ -1 ∧ root = p.root ∧ mountNs = p.mountNs then (false, p)
    else (p.rootFd ≠ t.openRoot, { p with root := root, mountNs := mountNs, rootFd := t.openRoot })
  | _, _ => (false, p)

/-- `is_stale`. -/
def isStale (t : Target) (p : ProcStat) : Bool × ProcStat :=
  if t.exeReadable ∧ t.inode ≠ p.inode then refreshRoot t p else (false, p)

/-- The constructor.  If the inode cannot be read, the field keeps what the memory held. -/
def new (t : Target) (garbage : Nat) : ProcStat :=
  (refreshRoot t ⟨-1, "", "", getinode t garbage⟩).2

/-- The record was made of the process as it was at a time. -/
structure RecordOf (last : Target) (p : ProcStat) : Prop where
  rootFd : p.rootFd = last.openRoot
  root : last.root = some p.root
  mountNs : last.mountNs = some p.mountNs
  inode : p.inode = last.inode

end ProcStat

/-- The process runs another file than it did, in another root or mount namespace.  Both links can
    be read, and the root is opened as another descriptor than the one that is held. -/
structure Target.MovedFrom (now last : Target) : Prop where
  inode : now.inode ≠ last.inode
  root : now.root.isSome = true
  mountNs : now.mountNs.isSome = true
  moved : last.openRoot = -1 ∨ now.root ≠ last.root ∨ now.mountNs ≠ last.mountNs
  reopened : last.openRoot ≠ now.openRoot

namespace ProcStat

variable {t last : Target} {p : ProcStat}

/-- The constructor, for a process that can be looked at. -/
theorem recordOf_new (garbage : Nat) (hexe : t.exeReadable = true) (hroot : t.root.isSome = true)
    (hns : t.mountNs.isSome = true) : RecordOf t (new t garbage) := by
  obtain ⟨root, hroot⟩ := Option.isSome_iff_exists.mp hroot
  obtain ⟨mountNs, hns⟩ := Option.isSome_iff_exists.mp hns
  simp only [new, refreshRoot, hroot, hns, getinode, hexe]
  exact ⟨rfl, hroot, hns, rfl⟩

/-- Where the inode is the recorded one, the root is not looked at. -/
theorem isStale_of_inode (h : t.exeReadable = true → t.inode = p.inode) :
    isStale t p = (false, p) :=
  if_neg fun hne => hne.2 (h hne.1)

/-- **Staleness.**  What is recorded is compared with what is there now. -/
theorem isStale_iff (h : RecordOf last p) :
    (isStale t p).1 = true ↔ t.exeReadable = true ∧ t.MovedFrom last := by
  by_cases hread : t.exeReadable = true ∧ t.inode ≠ p.inode
  · rw [isStale, if_pos hread]
    unfold refreshRoot
    cases hroot : t.root with
    | none => exact iff_of_false (by simp) fun hm => by simpa [hroot] using hm.2.root
    | some root =>
      cases hns : t.mountNs with
      | none => exact iff_of_false (by simp) fun hm => by simpa [hns] using hm.2.mountNs
      | some mountNs =>
        dsimp only
        by_cases hsame : p.rootFd ≠ -1 ∧ root = p.root ∧ mountNs = p.mountNs
        · rw [if_pos hsame]
          refine iff_of_false (by simp) fun hm => ?_
          rcases hm.2.moved with hfd | hne | hne
          · exact hsame.1 (h.rootFd.trans hfd)
          · exact hne (by rw [hroot, h.root, hsame.2.1])
          · exact hne (by rw [hns, h.mountNs, hsame.2.2])
        · rw [if_neg hsame, decide_eq_true_iff, h.rootFd]
          refine ⟨fun hfd => ⟨hread.1, h.inode ▸ hread.2, by simp [hroot], by simp [hns], ?_, hfd⟩,
            fun hm => hm.2.reopened⟩
          rw [hroot, hns, h.root, h.mountNs, ← h.rootFd]
          simpa [or_iff_not_imp_left] using hsame
  · rw [isStale, if_neg hread]
    refine iff_of_false (by simp) fun hm => hread ⟨hm.1, ?_⟩
    rw [h.inode]
    exact hm.2.inode

/-- A process that is found stale is recorded as it is. -/
theorem recordOf_of_isStale (h : (isStale t p).1 = true) :
    RecordOf t { (isStale t p).2 with inode := getinode t (isStale t p).2.inode } := by
  unfold isStale at h ⊢
  split at h
  · next hread =>
    rw [if_pos hread]
    unfold refreshRoot at h ⊢
    cases hroot : t.root with
    | none => simp [hroot] at h
    | some root =>
      cases hns : t.mountNs with
      | none => simp [hns] at h
      | some mountNs =>
        rw [hroot, hns] at h
        dsimp only at h ⊢
        split at h
        · cases h
        · next hsame =>
          rw [if_neg hsame]
          exact ⟨rfl, hroot, hns, if_pos hread.1⟩
  · cases h

end ProcStat

/-! ### Calls -/

/-- `ProcSyms`. -/
structure ProcSyms where
  modules : List MappedModule
  procstat : ProcStat
  symbolOption : SymbolOption
  lazySymbolize : Bool

namespace ProcSyms

/-- The constructor. -/
def new (t : Target) (garbage : Nat) (opt : SymbolOption) (lazySymbolize : Bool) : ProcSyms :=
  ⟨loadModules t.files t.maps t.perfMaps, .new t garbage, opt, lazySymbolize⟩

/-- `refresh`. -/
def refresh (t : Target) (ps : ProcSyms) : ProcSyms :=
  { ps with
    modules := loadModules t.files t.maps t.perfMaps
    procstat := { ps.procstat with inode := ProcStat.getinode t ps.procstat.inode } }

/-- What every call does first. -/
def check (t : Target) (ps : ProcSyms) : ProcSyms :=
  let r := ProcStat.isStale t ps.procstat
  if r.1 then refresh t { ps with procstat := r.2 } else { ps with procstat := r.2 }

/-- `resolve_addr`. -/
def resolveAddr (S : KeySort Nat) (t : Target) (ps : ProcSyms) (addr : UInt64) :
    (Bool × Reply) × ProcSyms :=
  let ps := check t ps
  let r := resolveAddrIn S t.fs ps.symbolOption ps.lazySymbolize ps.modules addr
  (r.1, { ps with modules := r.2 })

/-- `resolve_name`.  `bcc_elf_foreach_sym`, which is called for an ELF file, leaves
    `lazy_symbolize` switched off. -/
def resolveName (t : Target) (ps : ProcSyms) (module symname : String) : Option UInt64 × ProcSyms :=
  let ps := check t ps
  let elf := (ps.modules.find? (fun m => m.name = module)).any
    (fun m => m.type = .exec ∨ m.type = .so)
  (resolveNameIn t.fs ps.symbolOption ps.modules module symname,
    { ps with lazySymbolize := ps.lazySymbolize && !elf })

end ProcSyms

/-! ### Runs -/

/-- The process changes, or a call is made. -/
inductive Event where
  | change (t : Target)
  | resolveAddr (addr : UInt64)
  | resolveName (module symname : String)

/-- What a call returns. -/
inductive Outcome where
  | changed
  | addr (found : Bool) (reply : Reply)
  | name (addr : Option UInt64)

/-- The process and its `ProcSyms`.  The times are counted in events: when the inode of the
    executable last changed, and when and from what the modules were last loaded. -/
structure Tracked where
  target : Target
  syms : ProcSyms
  now : Nat
  changedAt : Nat
  loadedAt : Nat
  source : Target

namespace Tracked

variable (S : KeySort Nat)

/-- A `ProcSyms` that was just made. -/
def start (t : Target) (garbage : Nat) (opt : SymbolOption) (lazySymbolize : Bool) : Tracked :=
  ⟨t, .new t garbage opt lazySymbolize, 1, 0, 0, t⟩

/-- After a call: the modules were loaded in it if the list was found stale. -/
def afterCall (s : Tracked) (ps : ProcSyms) : Tracked :=
  if (ProcStat.isStale s.target s.syms.procstat).1 then
    { s with syms := ps, now := s.now + 1, loadedAt := s.now, source := s.target }
  else { s with syms := ps, now := s.now + 1 }

/-- One event. -/
def step (s : Tracked) : Event → Except Fault (Outcome × Tracked)
  | .change t => .ok (.changed, { s with
      target := t, now := s.now + 1
      changedAt := if t.inode ≠ s.target.inode then s.now else s.changedAt })
  | .resolveAddr addr =>
      let r := ProcSyms.resolveAddr S s.target s.syms addr
      .ok (.addr r.1.1 r.1.2, s.afterCall r.2)
  | .resolveName module symname =>
      let r := ProcSyms.resolveName s.target s.syms module symname
      .ok (.name r.1, s.afterCall r.2)

/-- The modules at hand are those of the process at the time they were loaded, but for the
    tables. -/
def ModulesOf (s : Tracked) : Prop :=
  s.syms.modules.map MappedModule.unloaded
    = (loadModules s.source.files s.source.maps s.source.perfMaps).map MappedModule.unloaded

/-- A call that is made while the executable can be looked at answers from a list of modules
    that was loaded after the last change of its inode. -/
def Fresh (s : Tracked) (e : Event) (_ : Outcome) (s' : Tracked) : Prop :=
  (∀ t, e ≠ .change t) → s.target.exeReadable = true →
    s'.changedAt ≤ s'.loadedAt ∧ s'.ModulesOf

/-- A history in which the process is `now`: whenever the inode has changed before a call, the
    process is also in another root or mount namespace than `last`, as which it was when a change
    was last noticed. -/
def MovesWithExec (last now : Target) (changed : Bool) : List Event → Prop
  | [] => True
  | .change t :: es => MovesWithExec last t (changed || t.inode != now.inode) es
  | .resolveAddr _ :: es | .resolveName _ _ :: es =>
    if changed ∧ now.exeReadable then now.MovedFrom last ∧ MovesWithExec now now false es
    else MovesWithExec last now changed es

/-- What holds between events, if no change was missed so far. -/
structure Seen (s : Tracked) (last : Target) : Prop where
  record : s.syms.procstat.RecordOf last
  same : s.changedAt ≤ s.loadedAt → s.target.inode = last.inode
  loaded : s.loadedAt < s.now
  changed : s.changedAt ≤ s.now
  modules : s.ModulesOf

variable {S} {s : Tracked} {last : Target}

theorem afterCall_of_not_stale {ps : ProcSyms}
    (h : ¬ (ProcStat.isStale s.target s.syms.procstat).1 = true) :
    s.afterCall ps = { s with syms := ps, now := s.now + 1 } :=
  if_neg h

/-- What a call leaves, if the list is not stale. -/
theorem check_of_not_stale {t : Target} {ps : ProcSyms}
    (h : ProcStat.isStale t ps.procstat = (false, ps.procstat)) : ProcSyms.check t ps = ps := by
  rw [ProcSyms.check, h]
  rfl

/-- And if it is. -/
theorem check_of_stale {t : Target} {ps : ProcSyms}
    (h : (ProcStat.isStale t ps.procstat).1 = true) :
    (ProcSyms.check t ps).procstat.RecordOf t
      ∧ (ProcSyms.check t ps).modules = loadModules t.files t.maps t.perfMaps := by
  unfold ProcSyms.check
  rw [if_pos h]
  exact ⟨ProcStat.recordOf_of_isStale h, rfl⟩

section Call

variable {ps : ProcSyms} (hproc : ps.procstat = (ProcSyms.check s.target s.syms).procstat)
  (hmods : ps.modules.map MappedModule.unloaded
    = (ProcSyms.check s.target s.syms).modules.map MappedModule.unloaded)
include hproc hmods

/-- A call that loads the modules. -/
theorem seen_of_stale (h : s.Seen last)
    (hstale : (ProcStat.isStale s.target s.syms.procstat).1 = true) :
    (s.afterCall ps).Seen s.target ∧ (s.afterCall ps).changedAt ≤ (s.afterCall ps).loadedAt := by
  obtain ⟨hrecord, hload⟩ := check_of_stale hstale
  rw [afterCall, if_pos hstale]
  refine ⟨⟨?_, fun _ => rfl, Nat.lt_succ_self _, Nat.le_succ_of_le h.changed, ?_⟩, h.changed⟩
  · rw [hproc]
    exact hrecord
  · rw [hload] at hmods
    exact hmods

/-- A call that leaves the record alone. -/
theorem seen_of_not_stale (h : s.Seen last)
    (hsame : ProcStat.isStale s.target s.syms.procstat = (false, s.syms.procstat)) :
    (s.afterCall ps).Seen last := by
  rw [check_of_not_stale hsame] at hproc hmods
  rw [afterCall_of_not_stale (by simp [hsame])]
  refine ⟨?_, h.same, Nat.lt_succ_of_lt h.loaded, Nat.le_succ_of_le h.changed, ?_⟩
  · rw [hproc]
    exact h.record
  · exact hmods.trans h.modules

variable (ps) in
/-- **One call.**  It answers from fresh modules if and only if the process moved with its
    executable. -/
theorem along_call_iff {e : Event} {r : Outcome} {es : List Event} (h : s.Seen last)
    (hstep : step S s e = .ok (r, s.afterCall ps)) (hcall : ∀ t, e ≠ .change t)
    (ih : ∀ s last, Seen s last → (Run.Along (step S) Fresh s es
      ↔ MovesWithExec last s.target (s.loadedAt < s.changedAt) es)) :
    Run.Along (step S) Fresh s (e :: es)
      ↔ if decide (s.loadedAt < s.changedAt) = true ∧ s.target.exeReadable = true
        then s.target.MovedFrom last ∧ MovesWithExec s.target s.target false es
        else MovesWithExec last s.target (s.loadedAt < s.changedAt) es := by
  rw [Run.along_cons_iff hstep]
  have htarget : (s.afterCall ps).target = s.target := by
    unfold afterCall
    split <;> rfl
  split
  · next hnew =>
    by_cases hmoved : s.target.MovedFrom last
    · have hstale := (ProcStat.isStale_iff h.record).mpr ⟨hnew.2, hmoved⟩
      obtain ⟨hseen, hle⟩ := seen_of_stale hproc hmods h hstale
      rw [ih _ _ hseen, htarget, decide_eq_false (Nat.not_lt.mpr hle)]
      exact and_congr_left fun _ => iff_of_true (fun _ _ => ⟨hle, hseen.modules⟩) hmoved
    · -- the change is missed, and the old modules are used
      have hstale : ¬ (ProcStat.isStale s.target s.syms.procstat).1 = true := fun hs =>
        hmoved ((ProcStat.isStale_iff h.record).mp hs).2
      refine iff_of_false (fun hfresh => ?_) (fun hm => hmoved hm.1)
      have hle := (hfresh.1 hcall hnew.2).1
      rw [afterCall_of_not_stale hstale] at hle
      exact absurd (of_decide_eq_true hnew.1) (Nat.not_lt.mpr hle)
  · next hold =>
    have hle : s.target.exeReadable = true → s.changedAt ≤ s.loadedAt := fun hexe =>
      Nat.not_lt.mp fun hlt => hold ⟨decide_eq_true hlt, hexe⟩
    have hsame := ProcStat.isStale_of_inode fun hexe =>
      (h.same (hle hexe)).trans h.record.inode.symm
    have hseen := seen_of_not_stale hproc hmods h hsame
    rw [ih _ _ hseen]
    rw [afterCall_of_not_stale (by simp [hsame])] at hseen ⊢
    exact and_iff_right fun _ hexe => ⟨hle hexe, hseen.modules⟩

end Call

/-- What was seen is still what was seen after a change of the process. -/
theorem seen_change (h : s.Seen last) (t : Target) :
    Seen { s with
      target := t, now := s.now + 1
      changedAt := if t.inode ≠ s.target.inode then s.now else s.changedAt } last := by
  refine ⟨h.record, fun hle => ?_, Nat.lt_succ_of_lt h.loaded, ?_, h.modules⟩
  · split at hle
    · exact absurd h.loaded (Nat.not_lt.mpr hle)
    · next hne => exact (not_not.mp hne).trans (h.same hle)
  · split
    · exact Nat.le_succ _
    · exact Nat.le_succ_of_le h.changed

theorem along_fresh_iff (es : List Event) (s : Tracked) (last : Target) (h : s.Seen last) :
    Run.Along (step S) Fresh s es
      ↔ MovesWithExec last s.target (s.loadedAt < s.changedAt) es := by
  induction es generalizing s last with
  | nil => exact Iff.rfl
  | cons e es ih =>
    cases e with
    | change t =>
      have hchanged :
          decide (s.loadedAt < if t.inode ≠ s.target.inode then s.now else s.changedAt)
          = (decide (s.loadedAt < s.changedAt) || t.inode != s.target.inode) := by
        by_cases hne : t.inode = s.target.inode
        · simp [hne]
        · simp [hne, h.loaded]
      rw [Run.along_cons_iff rfl, ih _ _ (seen_change h t), MovesWithExec, ← hchanged]
      exact and_iff_right fun hcall => absurd rfl (hcall t)
    | resolveAddr addr =>
      exact along_call_iff (ProcSyms.resolveAddr S s.target s.syms addr).2 rfl
        (resolveLoop_unloaded _ _ _) h rfl (fun t ht => by cases ht) ih
    | resolveName module symname =>
      exact along_call_iff (ProcSyms.resolveName s.target s.syms module symname).2 rfl rfl h rfl
        (fun t ht => by cases ht) ih

/-- A process without modules that runs a given executable. -/
def bareTarget (inode : Nat) : Target where
  exeReadable := true
  inode := inode
  root := some "/"
  mountNs := some "mnt:[1]"
  openRoot := 3
  fs := ⟨fun _ => ⟨[], fun _ _ => none, none, none⟩, fun _ => none, fun _ => false, fun _ => none,
    fun _ _ => false, none, none, fun _ => none, fun _ => none⟩
  files := ⟨fun path _ => (path, path), fun _ => none, fun _ => false, fun _ => (0, 0), fun _ => []⟩
  maps := []
  perfMaps := []

end Tracked

end Bcc.Syms
