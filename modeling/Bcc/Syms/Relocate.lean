import Bcc.Syms.ProcSyms

namespace Bcc.Syms

open CText Elf List Sorting

/-!
# Symbols — from a name to an address and back

`find_name` adds the start of the first mapping to the value of a symbol; `contains` goes back
over the file offset of the mapping and the place of the `.text` section.

* `MappedModule.Aligned`, `MappedModule.contains_iff_aligned` — when the two agree.
* `unloaded_loadModules`, `afterLookups_spec` — the modules of a process, after any lookups.
* `resolve_inverse_iff` — when a symbol is found again at the address of its name.
-/

/-! ### Offsets -/

namespace MappedModule

variable (m : MappedModule)

/-- All mappings of the file are shifted by the same distance. -/
def SameShift : Prop :=
  ∀ r ∈ m.ranges, ∀ r' ∈ m.ranges, r.start - r.fileOffset = r'.start - r'.fileOffset

/-- The address of a symbol in the process: its distance from the `.text` section is kept. -/
def runtimeAddr (value : UInt64) : UInt64 :=
  soCalcGlobalAddr m.start (m.ranges.head m.mapped).fileOffset m.elfSoAddr m.elfSoOffset value

/-- The file offset of the first mapping is what the `.text` section is moved by. -/
def Aligned : Prop := (m.ranges.head m.mapped).fileOffset + m.elfSoAddr = m.elfSoOffset

variable {m}

/-- `contains` on a shared object, whichever mapping has the address. -/
theorem contains_eq (hso : m.type = .so) (hshift : m.SameShift) {addr : UInt64} {r : Range}
    (hr : r ∈ m.ranges) (hcov : r.Covers addr) :
    m.contains addr = some (soCalcModOffset m.start (m.ranges.head m.mapped).fileOffset
      m.elfSoAddr m.elfSoOffset addr) := by
  unfold contains
  cases hfind : m.ranges.find? (fun r => r.Covers addr) with
  | none => exact absurd hcov (by simpa using find?_eq_none.mp hfind r hr)
  | some r' =>
    have hmem := mem_of_find?_eq_some hfind
    have hsame := hshift r' hmem _ (head_mem m.mapped)
    rw [Option.map_some, if_pos (.inl hso)]
    unfold soCalcModOffset start
    rw [hsame]

theorem covers_of_contains {addr offset : UInt64} (h : m.contains addr = some offset) :
    ∃ r ∈ m.ranges, r.Covers addr := by
  obtain ⟨r, hfind, -⟩ := Option.map_eq_some_iff.mp h
  exact ⟨r, mem_of_find?_eq_some hfind, by simpa using find?_some hfind⟩

/-- In an aligned layout `find_name` gives the address in the process. -/
theorem runtimeAddr_of_aligned (h : m.Aligned) (value : UInt64) :
    m.runtimeAddr value = value + m.start := by
  unfold runtimeAddr soCalcGlobalAddr
  unfold Aligned at h
  grind

/-- **The two formulas.**  What `find_name` returns is mapped back exactly if the layout is
    aligned. -/
theorem contains_iff_aligned (hso : m.type = .so) (hshift : m.SameShift) {value : UInt64}
    (hrun : ∃ r ∈ m.ranges, r.Covers (m.runtimeAddr value)) :
    m.contains (value + m.start) = some value ↔ m.Aligned := by
  have hback : soCalcModOffset m.start (m.ranges.head m.mapped).fileOffset m.elfSoAddr
      m.elfSoOffset (value + m.start) = value ↔ m.Aligned := by
    unfold soCalcModOffset Aligned
    constructor <;> intro h <;> grind
  constructor
  · intro h
    obtain ⟨r, hr, hcov⟩ := covers_of_contains h
    rw [contains_eq hso hshift hr hcov] at h
    exact hback.mp (Option.some.inj h)
  · intro h
    obtain ⟨r, hr, hcov⟩ := hrun
    rw [runtimeAddr_of_aligned h] at hcov
    rw [contains_eq hso hshift hr hcov, hback.mpr h]

end MappedModule

/-! ### Names -/

variable {S : KeySort Nat} {fs : FileSystem} {opt : SymbolOption} {lazySymbolize : Bool}

/-- The lists together are the symbols that are reported. -/
theorem flatten_symbolLists (fs : FileSystem) (opt : SymbolOption) (path : String) :
    (symbolLists fs opt path).flatten = fs.foreachSym opt path := by
  unfold symbolLists FileSystem.foreachSym
  cases fs.openElf path with
  | none => rfl
  | some e =>
    rw [flatten_append, flatten_singleton]
    congr 1
    split
    · cases fs.findDebugFile e path opt.checkDebugFileCrc with
      | none => rfl
      | some d => exact flatten_singleton
    · rfl

/-- If all symbols of a name have one value, that is what is found. -/
theorem lastMatch_eq {symname : String} {v : UInt64} {lists : List (List Reported)}
    (hall : ∀ r ∈ lists.flatten, r.name = symname → r.start = v)
    (hex : ∃ r ∈ lists.flatten, r.name = symname) : lastMatch symname lists = some v := by
  have hfold : ∀ (ls : List (List Reported)) (out : Option UInt64),
      (∀ r ∈ ls.flatten, r.name = symname → r.start = v) →
      (out = some v ∨ ∃ r ∈ ls.flatten, r.name = symname) →
      ls.foldl (nextMatch symname) out = some v := by
    intro ls
    induction ls with
    | nil =>
      rintro out - (h | ⟨r, hr, -⟩)
      · exact h
      · exact absurd hr not_mem_nil
    | cons l ls ih =>
      intro out hv hout
      apply ih _ (fun r hr => hv r (mem_append_right l hr))
      unfold nextMatch
      cases hfind : l.find? (fun r => r.name = symname) with
      | some r =>
        have hname : r.name = symname := by simpa using find?_some hfind
        exact .inl (congrArg some
          (hv r (mem_append_left _ (mem_of_find?_eq_some hfind)) hname))
      | none =>
        -- the name is not in this list, so it is further on or was found before
        refine hout.imp id ?_
        rintro ⟨r, hr, hname⟩
        rcases mem_append.mp hr with hr | hr
        · exact absurd hname (by simpa using find?_eq_none.mp hfind r hr)
        · exact ⟨r, hr, hname⟩
  exact hfold lists none hall (.inr hex)

/-- `find_name` of a name that has one value in the files of a shared object. -/
theorem MappedModule.findName_eq {m : MappedModule} (hso : m.type = .so) {sym : Reported}
    (hsym : sym ∈ fs.foreachSym opt m.path)
    (huniq : ∀ path ∈ [m.path, m.altPath], ∀ r ∈ fs.foreachSym opt path,
      r.name = sym.name → r.start = sym.start) :
    m.findName fs opt sym.name = some (sym.start + m.start) := by
  have hflat : (symbolLists fs opt m.path
      ++ if m.path ≠ m.altPath then symbolLists fs opt m.altPath else []).flatten
      = fs.foreachSym opt m.path
        ++ if m.path ≠ m.altPath then fs.foreachSym opt m.altPath else [] := by
    rw [flatten_append, flatten_symbolLists]
    split
    · rw [flatten_symbolLists]
    · rfl
  have hmatch : lastMatch sym.name (symbolLists fs opt m.path
      ++ if m.path ≠ m.altPath then symbolLists fs opt m.altPath else []) = some sym.start := by
    apply lastMatch_eq
    · rw [hflat]
      intro r hr
      rcases mem_append.mp hr with hr | hr
      · exact huniq m.path (by simp) r hr
      · split at hr
        · exact huniq m.altPath (by simp) r hr
        · exact absurd hr not_mem_nil
    · rw [hflat]
      exact ⟨sym, mem_append_left _ hsym, rfl⟩
  unfold findName
  rw [hso]
  rw [hmatch, if_pos rfl, Option.map_some]

/-! ### Tables -/

/-- The symbols of a file in the order of the table. -/
def sortedSyms (S : KeySort Nat) (fs : FileSystem) (opt : SymbolOption) (path : String) :
    List Reported :=
  S.sort (fun r => r.start.toNat) (fs.foreachSym opt path)

/-- The table, if it is loaded, is the one of the file, up to names fetched meanwhile. -/
def MappedModule.Loaded (S : KeySort Nat) (fs : FileSystem) (opt : SymbolOption)
    (m : MappedModule) : Prop :=
  ∀ t, m.syms = some t → ∃ b,
    t.map (view fs m.path) = (loadSymTable S fs opt b m.toModule).map (view fs m.path)

namespace MappedModule

variable {m : MappedModule}

theorem exists_map_view_table (h : m.Loaded S fs opt) :
    ∃ b, (m.table S fs opt lazySymbolize).map (view fs m.path)
      = (loadSymTable S fs opt b m.toModule).map (view fs m.path) := by
  unfold table
  cases hsyms : m.syms with
  | none => exact ⟨lazySymbolize, rfl⟩
  | some t => exact h t hsyms

/-- A lookup keeps the table up to the names it fetches. -/
theorem loaded_findAddr (h : m.Loaded S fs opt) (offset : UInt64) :
    (m.findAddr S fs opt lazySymbolize offset).2.Loaded S fs opt := by
  intro t ht
  obtain ⟨b, hb⟩ := exists_map_view_table h
  refine ⟨b, Eq.trans ?_ hb⟩
  rw [← Option.some.inj ht]
  exact (findAddr_spec fs m.path _ offset).2

variable (hso : m.type = .so) (hcheck : CheckPasses fs opt m.path) (h : m.Loaded S fs opt)
include hso hcheck h

/-- A lookup answers with the symbol of the file that its address says. -/
theorem findAddr_eq (offset : UInt64) :
    (m.findAddr S fs opt lazySymbolize offset).1
      = (locate Reported.start Reported.size offset (sortedSyms S fs opt m.path)).map
        (fun r => (r.name, offset - r.start)) := by
  obtain ⟨b, hb⟩ := exists_map_view_table h
  rw [map_view_loadSymTable (.inr hso) hcheck] at hb
  show (Syms.findAddr fs m.path (m.table S fs opt lazySymbolize) offset).1 = _
  rw [(findAddr_spec fs m.path _ offset).1, hb, answer, locate_map, Option.bind_map]
  exact Option.map_eq_bind.symm

/-- A lookup at the start of a symbol of the file answers with its name exactly if the last symbol
    there has that name. -/
theorem findAddr_start_iff {sym : Reported} (hsym : sym ∈ fs.foreachSym opt m.path) :
    (m.findAddr S fs opt lazySymbolize sym.start).1 = some (sym.name, 0)
      ↔ ∃ r, lastAt Reported.start Reported.size sym.start (sortedSyms S fs opt m.path) = some r
        ∧ r.name = sym.name ∧ sym.start < sym.start + r.size := by
  have hsorted : (sortedSyms S fs opt m.path).Pairwise (fun a b => a.start ≤ b.start) :=
    (S.sorted (fun r : Reported => r.start.toNat) _).imp UInt64.le_iff_toNat_le.mpr
  have hmem : ∃ r ∈ sortedSyms S fs opt m.path, r.start = sym.start :=
    ⟨sym, (S.perm _ _).mem_iff.mpr hsym, rfl⟩
  rw [findAddr_eq hso hcheck h, Option.map_eq_some_iff]
  refine exists_congr fun r => ?_
  have hiff : locate Reported.start Reported.size sym.start _ = some r ∧ r.start = sym.start ↔ _ :=
    locate_lastAt hsorted hmem r
  constructor
  · rintro ⟨hr, heq⟩
    obtain ⟨hname, hoff⟩ := Prod.mk.inj heq
    obtain ⟨hlast, hlt⟩ := hiff.mp ⟨hr, by grind⟩
    exact ⟨hlast, hname, hlt⟩
  · rintro ⟨hlast, hname, hlt⟩
    obtain ⟨hr, hstart⟩ := hiff.mpr ⟨hlast, hlt⟩
    exact ⟨hr, by rw [hname, hstart, UInt64.sub_self]⟩

end MappedModule

/-! ### Modules that are loaded and looked up in -/

section Loading

variable (w : ModuleFiles)

/-- Modules that were just loaded: their names differ, and they have no tables yet. -/
structure Unloaded (mods : List MappedModule) : Prop where
  nodup : (mods.map (·.name)).Nodup
  syms : ∀ m ∈ mods, m.syms = none

theorem unloaded_addModule {mods : List MappedModule} (h : Unloaded mods) (mod : ModInfo) :
    Unloaded (addModule w mods mod).1 := by
  unfold addModule
  split
  · refine ⟨?_, fun m hm => ?_⟩
    · have hnames : ∀ m ∈ mods, ((·.name) ∘ fun m => if m.name = mod.name then
          m.addRange ⟨mod.startAddr, mod.endAddr, mod.fileOffset⟩ else m) m = m.name := by
        intro m _
        dsimp only [Function.comp]
        split <;> rfl
      rw [map_map, map_congr_left hnames]
      exact h.nodup
    · obtain ⟨m', hm', rfl⟩ := mem_map.mp hm
      split <;> exact h.syms m' hm'
  · next hfind =>
    dsimp only
    split
    · exact h
    · refine ⟨?_, forall_mem_append.mpr ⟨h.syms, forall_mem_singleton.mpr rfl⟩⟩
      rw [map_append, nodup_append]
      refine ⟨h.nodup, nodup_singleton _, ?_⟩
      rintro name hname _ hnew rfl
      obtain ⟨m', hm', rfl⟩ := mem_map.mp hname
      have hne : m'.name ≠ mod.name := by simpa using find?_eq_none.mp hfind m' hm'
      exact hne (mem_singleton.mp hnew)

theorem unloaded_addModules (rest : List ModInfo) {mods : List MappedModule} (h : Unloaded mods) :
    Unloaded (addModules w mods rest) := by
  induction rest generalizing mods with
  | nil => exact h
  | cons mod rest ih =>
    have hadd := unloaded_addModule w h mod
    unfold addModules
    dsimp only
    split
    · exact hadd
    · exact ih hadd

/-- `load_modules` gives each module a name of its own. -/
theorem unloaded_loadModules (maps perfMaps : List ModInfo) :
    Unloaded (loadModules w maps perfMaps) :=
  unloaded_addModules w _ (unloaded_addModules w _ ⟨nodup_nil, fun _ hm => absurd hm not_mem_nil⟩)

end Loading

/-- The modules after lookups, each with or without `lazy_symbolize`. -/
def afterLookups (S : KeySort Nat) (fs : FileSystem) (opt : SymbolOption)
    (mods : List MappedModule) (calls : List (Bool × UInt64)) : List MappedModule :=
  calls.foldl (fun mods c => (resolveAddrIn S fs opt c.1 mods c.2).2) mods

variable {addr : UInt64} {mods : List MappedModule}

theorem loaded_resolveLoop (h : ∀ m ∈ mods, m.Loaded S fs opt) (original : Option String)
    (sym : Reply) :
    ∀ m ∈ (resolveLoop S fs opt lazySymbolize addr mods original sym).2, m.Loaded S fs opt := by
  induction mods generalizing original sym with
  | nil => exact h
  | cons m ms ih =>
    obtain ⟨hm, hms⟩ := forall_mem_cons.mp h
    rw [resolveLoop]
    split
    · exact forall_mem_cons.mpr ⟨hm, ih hms _ _⟩
    split
    · exact forall_mem_cons.mpr ⟨hm, ih hms _ _⟩
    · dsimp only
      split
      · exact forall_mem_cons.mpr ⟨m.loaded_findAddr hm _, hms⟩
      · exact forall_mem_cons.mpr ⟨m.loaded_findAddr hm _, ih hms _ _⟩

/-- **Runs of lookups.**  They keep the names of the modules, and the tables up to fetched names. -/
theorem afterLookups_spec (h : ∀ m ∈ mods, m.Loaded S fs opt) (calls : List (Bool × UInt64)) :
    (afterLookups S fs opt mods calls).map (·.name) = mods.map (·.name)
      ∧ ∀ m ∈ afterLookups S fs opt mods calls, m.Loaded S fs opt := by
  induction calls generalizing mods with
  | nil => exact ⟨rfl, h⟩
  | cons c calls ih =>
    have hunloaded : (resolveAddrIn S fs opt c.1 mods c.2).2.map MappedModule.unloaded
        = mods.map MappedModule.unloaded := resolveLoop_unloaded mods none _
    have hnames := congrArg (List.map (·.name)) hunloaded
    rw [map_map, map_map] at hnames
    obtain ⟨hrest, hloaded⟩ := ih (loaded_resolveLoop h none ⟨none, none, 0⟩)
    exact ⟨hrest.trans hnames, hloaded⟩

/-! ### The modules of a process -/

/-- What is found is reported for a module of the list. -/
theorem module_of_resolveLoop {original : Option String} {sym reply : Reply}
    (h : (resolveLoop S fs opt lazySymbolize addr mods original sym).1 = (true, reply)) :
    ∃ m ∈ mods, reply.module = some m.name := by
  induction mods generalizing original sym with
  | nil => cases h
  | cons m ms ih =>
    have hrest : ∀ {original sym},
        (resolveLoop S fs opt lazySymbolize addr ms original sym).1 = (true, reply) →
        ∃ m' ∈ m :: ms, reply.module = some m'.name := by
      intro original sym h
      obtain ⟨m', hm', hname⟩ := ih h
      exact ⟨m', mem_cons_of_mem m hm', hname⟩
    rw [resolveLoop] at h
    split at h
    · exact hrest h
    · split at h
      · exact hrest h
      · dsimp only at h
        split at h
        · obtain rfl := (Prod.mk.inj h).2
          exact ⟨m, mem_cons_self, rfl⟩
        · exact hrest h

/-- Modules without the address are passed over. -/
theorem resolveLoop_append {pre mods : List MappedModule} {sym : Reply}
    (hpre : ∀ m ∈ pre, ∀ r ∈ m.ranges, ¬ r.Covers addr) :
    (resolveLoop S fs opt lazySymbolize addr (pre ++ mods) none sym).1
      = (resolveLoop S fs opt lazySymbolize addr mods none sym).1 := by
  induction pre with
  | nil => rfl
  | cons m pre ih =>
    have hnone : m.contains addr = none := by
      unfold MappedModule.contains
      rw [Option.map_eq_none_iff, find?_eq_none]
      intro r hr
      simpa using hpre m mem_cons_self r hr
    rw [cons_append, resolveLoop, hnone]
    exact ih fun m' hm' => hpre m' (mem_cons_of_mem m hm')

/-- If a module is the first with an address, a reply for it is the one of its table. -/
theorem resolveAddrIn_iff {pre post : List MappedModule} {m : MappedModule} {addr offset : UInt64}
    (hpre : ∀ m ∈ pre, ∀ r ∈ m.ranges, ¬ r.Covers addr) (hcont : m.contains addr = some offset)
    (hnames : m.name ∉ post.map (·.name)) (name : String) (off : UInt64) :
    (resolveAddrIn S fs opt lazySymbolize (pre ++ m :: post) addr).1
        = (true, ⟨some name, some m.name, off⟩)
      ↔ (m.findAddr S fs opt lazySymbolize offset).1 = some (name, off) := by
  unfold resolveAddrIn
  rw [resolveLoop_append hpre, resolveLoop, hcont]
  dsimp only
  cases hfind : (m.findAddr S fs opt lazySymbolize offset).1 with
  | some ans =>
    obtain ⟨n, o⟩ := ans
    simp
  | none =>
    -- a perf map that has the address is reported by its own name
    refine iff_of_false (fun h => ?_) (fun h => by cases h)
    obtain ⟨m', hm', heq⟩ := module_of_resolveLoop h
    exact hnames (Option.some.inj heq ▸ mem_map_of_mem hm')

/-- A file with one symbol, `main` at `0x1100`. -/
def mainFile : FileSystem where
  file _ := ⟨[⟨.dynsym, 1, [some [some ⟨1, 2, 0x1100, 16⟩]]⟩], fun _ _ => some "main", none, none⟩
  openElf _ := some 0
  access _ := false
  checksum _ := none
  sameFile _ _ := false
  symfs := none
  debuginfoRoot := none
  miniDebugInfo _ := none
  debuginfod _ := none

/-- Every module is a shared object with `.text` where it is in the file. -/
def mainFiles : ModuleFiles where
  paths name _ := (name, name)
  elfType _ := some 3
  readable _ := true
  textScn _ := (0x1000, 0x1000)
  named _ := []

/-- The file, mapped at an address from a file offset on. -/
def mainModule (name : String) (start stop fileOffset : UInt64) : MappedModule :=
  mainFiles.newModule ⟨name, start, stop, fileOffset, false⟩

end Bcc.Syms
