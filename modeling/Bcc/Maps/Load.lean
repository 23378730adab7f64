import Bcc.Maps.BothPasses
import Bcc.Maps.Relocate
import Bcc.Maps.Tables

namespace Bcc.Maps

open Posix

/-!
# Maps of a module — `load_maps`

* `loadMaps` — the maps are created, and the tables of the storage and the instructions of the
  functions get their descriptors.
* `Loads` — what the call is to have done.
* `loads_iff` — it has, unless an inner map is named that is not declared: the lookup of its name in
  `inner_map_fds` gives zero, and zero can be a map.
-/

/-- `fake_fd_map_`: the definitions by their fake fds, in ascending order. -/
structure FakeFdMap where
  defs : List (Int × MapDef)
  sorted : (defs.map Prod.fst).Pairwise (· < ·)
  neg : ∀ m ∈ defs, m.1 < 0

theorem FakeFdMap.nodup (fakeFds : FakeFdMap) : (fakeFds.defs.map Prod.fst).Nodup :=
  fakeFds.sorted.imp (fun h => Int.ne_of_lt h)

/-- What `load_maps` returns and leaves, with `map_fds`. -/
structure Loaded where
  rc : Int
  proc : Proc
  tables : Storage
  funcs : List (String × List Insn)
  mapFds : Int → Option Nat

/-- `BPFModule::load_maps` -/
def loadMaps (kernel : Kernel) (cfg : Config) (fakeFds : FakeFdMap) (p : Proc) (ts : Storage)
    (funcs : List (String × List Insn)) : Loaded :=
  match createAll kernel cfg fakeFds.defs p with
  | (st, false) => ⟨-1, st.proc, ts, funcs, st.mapFds⟩
  | (st, true) =>
    ⟨0, (ts.update st.mapFds st.proc).1, (ts.update st.mapFds st.proc).2,
      funcs.map (fun f => (f.1, relocate st.mapFds f.2)), st.mapFds⟩

/-- **What `load_maps` is to have done**: every map was created once, a map of maps with the
    descriptor of the map that it names, and has a new descriptor; every name of an inner map is
    declared; and the loads of tables have their descriptors, with nothing else changed. -/
structure Loads (cfg : Config) (defs : List (Int × MapDef)) (funcs : List (String × List Op))
    (p : Proc) (r : Loaded) : Prop where
  created : ∃ inner : Int × MapDef → Nat,
    r.proc.opened.Perm (p.opened ++ defs.map (fun m => callOf cfg m.2 (inner m)))
      ∧ (∀ m ∈ defs, ∃ fd, r.mapFds m.1 = some fd ∧ fd ∉ p.fds.nums
        ∧ (fd, Obj.map (callOf cfg m.2 (inner m))) ∈ r.proc.fds.entries)
      ∧ ∀ m ∈ defs, isOuter m.2 →
        ∃ m' ∈ defs, m'.2.name = m.2.innerMapName ∧ r.mapFds m'.1 = some (inner m)
  declared : ∀ m ∈ defs, m.2.innerMapName ≠ "" → isNamed defs m
  insns : List.Forall₂ (fun f f' => f'.1 = f.1
    ∧ ∃ ops, f'.2 = encode ops ∧ List.Forall₂ (Relocated defs r.mapFds) f.2 ops) funcs r.funcs

/-- The functions as they are in memory. -/
def encodeFuncs (funcs : List (String × List Op)) : List (String × List Insn) :=
  funcs.map (fun f => (f.1, encode f.2))

/-- The definition needs an inner map or names one, and that is not declared. -/
def isUndeclared (defs : List (Int × MapDef)) (m : Int × MapDef) : Prop :=
  (isOuter m.2 ∨ m.2.innerMapName ≠ "") ∧ ¬ isNamed defs m

section Load

variable {kernel : Kernel} {cfg : Config} {fakeFds : FakeFdMap} {p : Proc} {ts : Storage}
  {funcs : List (String × List Op)}

theorem relocate_funcs {defs : List (Int × MapDef)} {mapFds : Int → Option Nat}
    (hkeys : ∀ f, (mapFds f).isSome = true ↔ ∃ m ∈ defs, f = m.1)
    (funcs : List (String × List Op)) :
    List.Forall₂ (fun f f' => f'.1 = f.1
      ∧ ∃ ops, f'.2 = encode ops ∧ List.Forall₂ (Relocated defs mapFds) f.2 ops) funcs
      ((encodeFuncs funcs).map (fun f => (f.1, relocate mapFds f.2))) := by
  induction funcs with
  | nil => exact .nil
  | cons f funcs ih => exact .cons ⟨rfl, relocate_encode hkeys f.2⟩ ih

namespace Created

variable {st : Passes}

/-- `map_fds` has the fake fds of the definitions. -/
theorem isSome_iff (h : Created cfg fakeFds.defs p st) (f : Int) :
    (st.mapFds f).isSome = true ↔ ∃ m ∈ fakeFds.defs, f = m.1 := by
  constructor
  · intro hsome
    obtain ⟨m, hm, rfl⟩ := List.mem_map.mp (h.opened.keys f hsome)
    exact ⟨m, (order_perm _).mem_iff.mp hm, rfl⟩
  · rintro ⟨m, hm, rfl⟩
    obtain ⟨fd, hfd, -⟩ := h.opened.fds m ((order_perm _).mem_iff.mpr hm)
    rw [hfd]
    rfl

theorem mapFds_zero (h : Created cfg fakeFds.defs p st) : st.mapFds 0 = none := by
  rw [← Option.not_isSome_iff_eq_none, h.isSome_iff]
  rintro ⟨m, hm, hzero⟩
  have hneg := fakeFds.neg m hm
  omega

end Created

/-- A call that succeeds has gone through both passes, and no descriptor was closed. -/
theorem loadMaps_rc (h : (loadMaps kernel cfg fakeFds p ts (encodeFuncs funcs)).rc = 0) :
    ∃ st, createAll kernel cfg fakeFds.defs p = (st, true) ∧ Created cfg fakeFds.defs p st
      ∧ (loadMaps kernel cfg fakeFds p ts (encodeFuncs funcs)).proc = st.proc
      ∧ (loadMaps kernel cfg fakeFds p ts (encodeFuncs funcs)).mapFds = st.mapFds
      ∧ (loadMaps kernel cfg fakeFds p ts (encodeFuncs funcs)).funcs
        = (encodeFuncs funcs).map (fun f => (f.1, relocate st.mapFds f.2)) := by
  unfold loadMaps at h ⊢
  split at h
  · cases h
  · next st hst =>
    have hcreated := createAll_created fakeFds.nodup hst
    rw [hst]
    refine ⟨st, rfl, hcreated, ?_, rfl, rfl⟩
    show (Storage.updateLoop st.mapFds st.proc ts.entries).1 = st.proc
    rw [Storage.updateLoop_eq hcreated.mapFds_zero]

end Load

/-- **Loading the maps.**  A call that succeeds has done all it is to do, for every kernel, exactly
    if the inner maps are declared, or the definitions and the descriptors of the process make every
    call fail. -/
theorem loads_iff (cfg : Config) (fakeFds : FakeFdMap) (p : Proc) (ts : Storage)
    (funcs : List (String × List Op)) :
    (∀ kernel, (loadMaps kernel cfg fakeFds p ts (encodeFuncs funcs)).rc = 0 →
      Loads cfg fakeFds.defs funcs p (loadMaps kernel cfg fakeFds p ts (encodeFuncs funcs)))
      ↔ (∀ m ∈ fakeFds.defs, ¬ isUndeclared fakeFds.defs m) ∨ ¬ Loadable fakeFds.defs p := by
  constructor
  · intro h
    rw [or_iff_not_imp_right, not_not]
    rintro hloadable m hm ⟨hneeds, hnamed⟩
    -- A kernel that grants every call lets the call succeed.
    obtain ⟨st, hst⟩ := createAll_granted cfg fakeFds.nodup hloadable
    have hloads := h granting (by rw [loadMaps, hst])
    rcases hneeds with houter | hne
    · obtain ⟨inner, -, -, hinner⟩ := hloads.created
      obtain ⟨m', hm', hname, -⟩ := hinner m hm houter
      exact hnamed ⟨m', hm', hname⟩
    · exact hnamed (hloads.declared m hm hne)
  · intro h kernel hrc
    obtain ⟨st, hst, hcreated, hproc, hmapFds, hfuncs⟩ := loadMaps_rc hrc
    rcases h with hdeclared | hloadable
    · have horder := order_perm fakeFds.defs
      refine ⟨⟨innerFd st, ?_, fun m hm => ?_, fun m hm houter => ?_⟩, fun m hm hne => ?_, ?_⟩
      · rw [hproc, hcreated.opened.opened]
        exact (horder.map _).append_left _
      · rw [hproc, hmapFds]
        exact hcreated.opened.fds m (horder.mem_iff.mpr hm)
      · rw [hmapFds]
        apply hcreated.named m hm
        by_contra hnamed
        exact hdeclared m hm ⟨.inl houter, hnamed⟩
      · by_contra hnamed
        exact hdeclared m hm ⟨.inr hne, hnamed⟩
      · rw [hmapFds, hfuncs]
        exact relocate_funcs hcreated.isSome_iff funcs
    · exact absurd (createAll_loadable fakeFds.nodup hst) hloadable

/-- A hash table, without an inner map. -/
def hashDef (name : String) (h : name ≠ "") : MapDef where
  mapType := .other 1
  name := name
  keySize := 4
  valueSize := 4
  maxEntries := 16
  mapFlags := 0
  pinnedId := 0
  innerMapName := ""
  pinned := ""
  name_ne := h
  inner_ofMaps := absurd rfl

/-- A hash table of maps. -/
def hashOfMapsDef (name innerMapName : String) (h : name ≠ "") : MapDef where
  mapType := .hashOfMaps
  name := name
  keySize := 4
  valueSize := 4
  maxEntries := 16
  mapFlags := 0
  pinnedId := 0
  innerMapName := innerMapName
  pinned := ""
  name_ne := h
  inner_ofMaps := fun _ => rfl

/-- A table, and a table of maps whose inner map is misspelt. -/
def misnamed : FakeFdMap where
  defs := [(-2, hashDef "inner" (by decide)), (-1, hashOfMapsDef "outer" "iner" (by decide))]
  sorted := by decide
  neg := by decide

/-- A process whose standard input is closed, and that has two descriptors for the map with the id
    7: one from the call, and its copy by `dup`. -/
def copiedProc : Proc :=
  ⟨⟨[(0, .map (.getFdById 7)), (3, .map (.getFdById 7))], by decide⟩, [.getFdById 7, .dup 3]⟩

/-- There the table of maps is created with descriptor zero, which is no map of the module. -/
theorem not_loads_of_misnamed :
    (loadMaps granting ⟨0, 0, fun _ => none⟩ misnamed copiedProc ⟨[], List.nodup_nil⟩ []).rc = 0
      ∧ ¬ Loads ⟨0, 0, fun _ => none⟩ misnamed.defs [] copiedProc
        (loadMaps granting ⟨0, 0, fun _ => none⟩ misnamed copiedProc ⟨[], List.nodup_nil⟩ []) := by
  refine ⟨by decide, fun h => ?_⟩
  obtain ⟨m, hm, hname⟩ := h.declared (-1, hashOfMapsDef "outer" "iner" (by decide))
    (by simp [misnamed]) (by decide)
  have hnames : ∀ m ∈ misnamed.defs, m.2.name ≠ "iner" := by decide
  exact hnames m hm hname

end Bcc.Maps
