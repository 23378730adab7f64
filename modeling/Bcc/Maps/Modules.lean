import Bcc.Maps.Owned
import Bcc.Run.Ledger

namespace Bcc.Maps

open Function List Posix

/-!
# Table storage — the modules that share it

* `Action` — modules declare, export, share and import tables, load their maps, and go;
* `owned_run` — what a run of them keeps.
-/

/-- `BPFModule`, and the next fake fd of its frontend. -/
structure Module where
  mapsNs : String
  cfg : Config
  fakeFds : FakeFdMap
  nextFakeFd : Int
  next_neg : nextFakeFd < 0
  next_lt : ∀ m ∈ fakeFds.defs, nextFakeFd < m.1

namespace Module

/-- A module without tables. -/
def start (mapsNs : String) (cfg : Config) : Module where
  mapsNs := mapsNs
  cfg := cfg
  fakeFds := ⟨[], List.Pairwise.nil, by simp⟩
  nextFakeFd := -1
  next_neg := by decide
  next_lt := by simp

/-- `get_next_fake_fd` and `add_map_def` -/
def addMapDef (m : Module) (d : MapDef) : Module where
  mapsNs := m.mapsNs
  cfg := m.cfg
  fakeFds := {
    defs := (m.nextFakeFd, d) :: m.fakeFds.defs
    sorted := by
      rw [map_cons, pairwise_cons]
      refine ⟨fun f hf => ?_, m.fakeFds.sorted⟩
      obtain ⟨m', hm', rfl⟩ := mem_map.mp hf
      exact m.next_lt m' hm'
    neg := forall_mem_cons.mpr ⟨m.next_neg, m.fakeFds.neg⟩ }
  nextFakeFd := m.nextFakeFd - 1
  next_neg := Int.sub_neg_of_lt (Int.lt_trans m.next_neg (by decide))
  next_lt := forall_mem_cons.mpr
    ⟨Int.sub_lt_self _ (by decide), fun m' hm' =>
      Int.lt_trans (Int.sub_lt_self _ (by decide)) (m.next_lt m' hm')⟩

end Module

/-- The process, the storage, and the modules by their `id_`. -/
structure State where
  proc : Proc
  tables : Storage
  modules : String → Option Module

/-- What a module does with the storage. -/
inductive Action where
  | construct (mapsNs : String) (cfg : Config)
  | declare (d : MapDef)
  | exportTable (name : String)
  | shareTable (name : String)
  | importTable (name : String)
  | recompile
  | loadMaps
  | destroy

/-- The name of an exported or shared table is written with two underscores before it. -/
def strip (name : String) : String :=
  match name.toList with
  | '_' :: '_' :: rest => String.ofList rest
  | _ => name

namespace State

variable (kernel : Kernel)

variable (s : State)

/-- The state with another process and storage. -/
def put (r : Proc × Storage) : State := { s with proc := r.1, tables := r.2 }

/-- A table is found and its copy is inserted under another path. -/
def insertDup (found : Option TableDesc) (key : String) (f : TableDesc → TableDesc) : State :=
  match found with
  | none => s
  | some d => s.put (s.tables.insert (d.dup kernel s.proc).2 key (f (d.dup kernel s.proc).1))

/-- The tables of a module go. -/
def deleteTables (id : String) (m : Option Module) : State :=
  { s.put (s.tables.deletePrefix s.proc (path [id])) with
    modules := update s.modules id m }

/-- `VisitVarDecl`, for a table that is declared. -/
def declare (id : String) (m : Module) (d : MapDef) : State :=
  { s.put (s.tables.insert s.proc (path [id, d.name]) ⟨d.name, none, m.nextFakeFd, false,
      fun h => Bool.noConfusion h⟩)
    with modules := update s.modules id (some (m.addMapDef d)) }

/-- `VisitVarDecl`, for `maps/export`. -/
def exportTable (id name : String) : State :=
  s.insertDup kernel (s.tables.find (path [id, strip name])) (path [strip name]) (fun d => d)

/-- `VisitVarDecl`, for `maps/shared`. -/
def shareTable (id : String) (m : Module) (name : String) : State :=
  s.insertDup kernel (s.tables.find (path [id, strip name])) (path ["ns", m.mapsNs, strip name])
    (fun d => d)

/-- `VisitVarDecl`, for `maps/extern`. -/
def importTable (id : String) (m : Module) (name : String) : State :=
  s.insertDup kernel
    ((s.tables.find (path ["ns", m.mapsNs, name])).or (s.tables.find (path [name])))
    (path [id, name]) TableDesc.imported

/-- `load_maps`, as far as the process and the storage go. -/
def loadMaps (s : State) (m : Module) : State :=
  let r := Maps.loadMaps kernel m.cfg m.fakeFds s.proc s.tables []
  s.put (r.proc, r.tables)

/-- What a module does. -/
def act (id : String) (m : Module) : Action → State
  | .construct _ _ => s
  | .declare d => s.declare id m d
  | .exportTable name => s.exportTable kernel id name
  | .shareTable name => s.shareTable kernel id m name
  | .importTable name => s.importTable kernel id m name
  | .recompile => s.deleteTables id (some (.start m.mapsNs m.cfg))
  | .loadMaps => s.loadMaps kernel m
  | .destroy => s.deleteTables id none

/-- A module that is not there can be constructed. -/
def construct (s : State) (id : String) : Action → State
  | .construct mapsNs cfg =>
    { s with modules := update s.modules id (some (.start mapsNs cfg)) }
  | _ => s

/-- A step: a module is constructed, or one that is there does something. -/
def step (a : String × Action) : State :=
  match s.modules a.1 with
  | none => s.construct a.1 a.2
  | some m => s.act kernel a.1 m a.2

/-- The start: a process with an empty storage. -/
def start (p : Proc) : State := ⟨p, ⟨[], nodup_nil⟩, fun _ => none⟩

end State

/-- Every descriptor in the storage is open, and owned by one table. -/
def State.Owned (s : State) : Prop := Maps.Owned s.proc s.tables

/-- A module that loads its maps finds no two tables with the same fake fd of its own. -/
def LoadsDistinct (s : State) : String × Action → Prop
  | (id, .loadMaps) => ∀ m ∈ s.modules id, Distinct m.fakeFds.defs s.tables
  | _ => True

section Steps

variable {kernel : Kernel} {s : State}

section

variable (h : s.Owned)
include h

theorem owned_insertDup (found : Option TableDesc) (key : String) {f : TableDesc → TableDesc}
    (hf : ∀ d, (f d).fd = d.fd) : (s.insertDup kernel found key f).Owned := by
  cases found with
  | none => exact h
  | some d => exact Owned.insert_dup h kernel key d (hf _)

theorem owned_declare (id : String) (m : Module) (d : MapDef) : (s.declare id m d).Owned :=
  Owned.insert h _ (by simp)

theorem owned_deleteTables (id : String) (m : Option Module) : (s.deleteTables id m).Owned :=
  Owned.deletePrefix h _

/-- `load_maps` that succeeds keeps the ownership exactly if no two tables have the same fake fd. -/
theorem owned_loadMaps_iff (m : Module)
    (hrc : (loadMaps kernel m.cfg m.fakeFds s.proc s.tables []).rc = 0) :
    (s.loadMaps kernel m).Owned ↔ Distinct m.fakeFds.defs s.tables := by
  have hfuncs : ([] : List (String × List Insn)) = encodeFuncs [] := rfl
  rw [hfuncs] at hrc
  obtain ⟨st, hst, hcreated, hproc, -, -⟩ := loadMaps_rc hrc
  rw [← owned_update_iff h hcreated, State.Owned]
  have htables : (s.loadMaps kernel m).tables = (s.tables.update st.mapFds st.proc).2 := by
    show (loadMaps kernel m.cfg m.fakeFds s.proc s.tables []).tables = _
    rw [loadMaps, hst]
  rw [htables]
  exact Iff.of_eq (congrArg (fun p => Owned p _) hproc)

/-- `load_maps` that fails leaves the tables as they are. -/
theorem owned_loadMaps (m : Module) (hdistinct : Distinct m.fakeFds.defs s.tables) :
    (s.loadMaps kernel m).Owned := by
  by_cases hrc : (loadMaps kernel m.cfg m.fakeFds s.proc s.tables []).rc = 0
  · exact (owned_loadMaps_iff h m hrc).mpr hdistinct
  have hkept := createAll_kept kernel m.cfg m.fakeFds.defs s.proc
  unfold State.Owned State.loadMaps loadMaps
  unfold loadMaps at hrc
  split at hrc
  · next st hst =>
    rw [hst] at hkept
    refine Owned.mono h fun fd hfd => ?_
    obtain ⟨k, hk⟩ := Fds.mem_nums.mp hfd
    exact Fds.mem_nums.mpr ⟨k, hkept _ hk⟩
  · exact absurd rfl hrc

theorem owned_act (id : String) (m : Module) (a : Action)
    (ha : a = .loadMaps → Distinct m.fakeFds.defs s.tables) : (s.act kernel id m a).Owned := by
  cases a with
  | construct mapsNs cfg => exact h
  | declare d => exact owned_declare h id m d
  | exportTable name => exact owned_insertDup h _ _ (fun _ => rfl)
  | shareTable name | importTable name => exact owned_insertDup h _ _ (fun _ => rfl)
  | recompile => exact owned_deleteTables h id _
  | loadMaps => exact owned_loadMaps h m (ha rfl)
  | destroy => exact owned_deleteTables h id none

end

theorem owned_step (kernel : Kernel) (h : s.Owned) (a : String × Action) (ha : LoadsDistinct s a) :
    (s.step kernel a).Owned := by
  obtain ⟨id, a⟩ := a
  unfold State.step
  split
  · cases a <;> exact h
  · next m hm =>
    refine owned_act h id m a ?_
    rintro rfl
    exact ha m hm

end Steps

/-- **Ownership.**  Along a run every descriptor in the storage is open and owned by one table, if
    no module that loads its maps finds two tables with the same fake fd of its own.  If one does,
    and its maps are created, then two tables own the same descriptor. -/
theorem owned_run (kernel : Kernel) (p : Proc) (as : List (String × Action)) :
    (Run.Each (State.step kernel) LoadsDistinct (.start p) as →
      Run.Each (State.step kernel) (fun s a => (s.step kernel a).Owned) (.start p) as)
    ∧ ∀ s : State, s.Owned → ∀ m : Module,
      (loadMaps kernel m.cfg m.fakeFds s.proc s.tables []).rc = 0 →
      ((s.loadMaps kernel m).Owned ↔ Distinct m.fakeFds.defs s.tables) := by
  refine ⟨?_, fun s hs m hrc => owned_loadMaps_iff hs m hrc⟩
  have hstart : (State.start p).Owned := ⟨nodup_nil, by simp [State.start, Storage.held]⟩
  generalize State.start p = s at hstart
  -- The ownership is the invariant that carries from step to step.
  induction as generalizing s with
  | nil => exact fun _ => trivial
  | cons a as ih =>
    rintro ⟨ha, has⟩
    have hstep := owned_step kernel hstart a ha
    exact ⟨hstep, ih (s.step kernel a) hstep has⟩

/-- A process with its standard descriptors. -/
def stdProc : Proc := ⟨⟨[(0, .other), (1, .other), (2, .other)], by decide⟩, []⟩

/-- A module that declares a table and loads its map before it exports it, and goes. -/
def exportLoaded : List (String × Action) :=
  [("1", .construct "" ⟨0, 0, fun _ => none⟩), ("1", .declare (hashDef "t" (by decide))),
    ("1", .loadMaps), ("1", .exportTable "__t"), ("1", .destroy)]

theorem owned_exportLoaded :
    Run.Each (State.step granting) (fun s a => (s.step granting a).Owned) (.start stdProc)
      exportLoaded := by
  apply (owned_run granting stdProc exportLoaded).1
  refine ⟨trivial, trivial, fun m hm => ?_, trivial, trivial, trivial⟩
  cases hm
  decide +kernel

/-- A module that exports the table it has declared, as `BPF_TABLE_PUBLIC` does, and then loads its
    map. -/
def exportDeclared : List (String × Action) :=
  [("1", .construct "" ⟨0, 0, fun _ => none⟩), ("1", .declare (hashDef "t" (by decide))),
    ("1", .exportTable "__t"), ("1", .loadMaps), ("1", .destroy)]

/-- The exported table is still in the storage when the module is gone, with a descriptor that is
    closed. -/
theorem not_owned_exportDeclared :
    (exportDeclared.foldl (State.step granting) (.start stdProc)).tables.held = [3]
      ∧ 3 ∉ (exportDeclared.foldl (State.step granting) (.start stdProc)).proc.fds.nums
      ∧ ¬ Run.Each (State.step granting) (fun s a => (s.step granting a).Owned) (.start stdProc)
        exportDeclared := by
  have hheld : (exportDeclared.foldl (State.step granting) (.start stdProc)).tables.held = [3] := by
    decide +kernel
  have hclosed :
      3 ∉ (exportDeclared.foldl (State.step granting) (.start stdProc)).proc.fds.nums := by
    decide +kernel
  have hmem : 3 ∈ (exportDeclared.foldl (State.step granting) (.start stdProc)).tables.held := by
    simp [hheld]
  refine ⟨hheld, hclosed, ?_⟩
  rintro ⟨-, -, -, -, howned, -⟩
  exact hclosed (howned.opened 3 hmem)

end Bcc.Maps
