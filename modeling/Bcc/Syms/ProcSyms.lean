import Bcc.Syms.Lazy

namespace Bcc.Syms

open CText Elf Sorting

/-!
# Symbols — the modules of a process

* `MappedModule` — a module whose executable parts are mapped at ranges of addresses;
* `findName`, `findAddr` — from a symbol to its address, and back.
-/

/-! ### Modules -/

/-- `ProcSyms::Module::Range`. -/
structure Range where
  start : UInt64
  stop : UInt64
  fileOffset : UInt64
  deriving DecidableEq, Repr

/-- The address lies in the range. -/
def Range.Covers (r : Range) (addr : UInt64) : Prop := r.start ≤ addr ∧ addr < r.stop

instance (r : Range) (addr : UInt64) : Decidable (r.Covers addr) :=
  inferInstanceAs (Decidable (_ ∧ _))

/-- `ProcSyms::Module`.  A module is made for a mapping, so it has a range. -/
structure MappedModule extends Module where
  name : String
  altPath : String
  ranges : List Range
  mapped : ranges ≠ []
  /-- Address and file offset of the `.text` section. -/
  elfSoAddr : UInt64
  elfSoOffset : UInt64
  /-- `syms_`, once it is loaded. -/
  syms : Option (List Symbol)

/-- `__so_calc_global_addr`. -/
def soCalcGlobalAddr (modStartAddr modFileOffset elfSecStartAddr elfSecFileOffset offset : UInt64) :
    UInt64 :=
  offset + (modStartAddr - modFileOffset) - (elfSecStartAddr - elfSecFileOffset)

/-- `__so_calc_mod_offset`. -/
def soCalcModOffset (modStartAddr modFileOffset elfSecStartAddr elfSecFileOffset
    globalAddr : UInt64) : UInt64 :=
  globalAddr - (modStartAddr - modFileOffset) + (elfSecStartAddr - elfSecFileOffset)

/-- The symbols of a binary, file by file: each file is listed until a callback stops. -/
def symbolLists (fs : FileSystem) (opt : SymbolOption) (path : String) : List (List Reported) :=
  match fs.openElf path with
  | none => []
  | some e =>
    (if opt.useDebugFile then
      match fs.findDebugFile e path opt.checkDebugFileCrc with
      | none => []
      | some d => [listSymbols (fs.file d) opt true (fs.file d).sections]
    else [])
    ++ [listSymbols (fs.file e) opt false (fs.file e).sections]

/-- What the callback of `find_name` leaves after one list: its first symbol with the name. -/
def nextMatch (symname : String) (out : Option UInt64) (syms : List Reported) : Option UInt64 :=
  match syms.find? (fun r => r.name = symname) with
  | some r => some r.start
  | none => out

/-- What the callback of `find_name` leaves: of each list the first symbol with the name, and of
    these the last. -/
def lastMatch (symname : String) (lists : List (List Reported)) : Option UInt64 :=
  lists.foldl (nextMatch symname) none

namespace MappedModule

variable (m : MappedModule)

/-- `start`. -/
def start : UInt64 := (m.ranges.head m.mapped).start

/-- `contains`. -/
def contains (addr : UInt64) : Option UInt64 :=
  (m.ranges.find? (fun r => r.Covers addr)).map (fun r =>
    if m.type = .so ∨ m.type = .vdso then
      soCalcModOffset r.start r.fileOffset m.elfSoAddr m.elfSoOffset addr
    else addr)

/-- `find_name`. -/
def findName (fs : FileSystem) (opt : SymbolOption) (symname : String) : Option UInt64 :=
  let found :=
    match m.type with
    | .unknown => none
    -- the lines of a perf map are all gone through, whatever the callback returns
    | .perfMap => m.named.foldl (fun out r => if r.1 = symname then some r.2.1 else out) none
    | .vdso => (m.named.find? (fun r => r.1 = symname)).map (fun r => r.2.1)
    | .exec | .so =>
        lastMatch symname (symbolLists fs opt m.path
          ++ (if m.path ≠ m.altPath then symbolLists fs opt m.altPath else []))
  if m.type = .so then found.map (· + m.start) else found

/-- The table that `find_addr` works on. -/
def table (S : KeySort Nat) (fs : FileSystem) (opt : SymbolOption) (lazySymbolize : Bool) :
    List Symbol :=
  m.syms.getD (loadSymTable S fs opt lazySymbolize m.toModule)

/-- `find_addr`, with the module it leaves. -/
def findAddr (S : KeySort Nat) (fs : FileSystem) (opt : SymbolOption) (lazySymbolize : Bool)
    (offset : UInt64) : Answer × MappedModule :=
  let r := Syms.findAddr fs m.path (m.table S fs opt lazySymbolize) offset
  (r.1, { m with syms := some r.2 })

end MappedModule

/-! ### The modules of a process -/

/-- What `resolve_addr` reports in a `bcc_symbol`. -/
structure Reply where
  name : Option String
  module : Option String
  offset : UInt64
  deriving DecidableEq, Repr

section Resolve

variable (S : KeySort Nat) (fs : FileSystem) (opt : SymbolOption) (lazySymbolize : Bool)

/-- The loop of `resolve_addr`.  Once a module has the address but no symbol for it, only perf
    maps are asked; the module is then reported by its name. -/
def resolveLoop (addr : UInt64) : List MappedModule → Option String → Reply →
    (Bool × Reply) × List MappedModule
  | [], original, sym =>
      ((false, if original.isSome then { sym with module := original } else sym), [])
  | m :: ms, original, sym =>
    if original.isSome ∧ m.type ≠ .perfMap then
      let rest := resolveLoop addr ms original sym
      (rest.1, m :: rest.2)
    else
      match m.contains addr with
      | none =>
        let rest := resolveLoop addr ms original sym
        (rest.1, m :: rest.2)
      | some offset =>
        let found := m.findAddr S fs opt lazySymbolize offset
        match found.1 with
        | some (name, off) => ((true, ⟨some name, some m.name, off⟩), found.2 :: ms)
        | none =>
          let rest := resolveLoop addr ms
            (if m.type ≠ .perfMap then some m.name else original) ⟨none, some m.name, offset⟩
          (rest.1, found.2 :: rest.2)

/-- `resolve_addr` on the modules at hand. -/
def resolveAddrIn (mods : List MappedModule) (addr : UInt64) : (Bool × Reply) × List MappedModule :=
  resolveLoop S fs opt lazySymbolize addr mods none ⟨none, none, 0⟩

/-- `resolve_name` on the modules at hand. -/
def resolveNameIn (mods : List MappedModule) (module symname : String) : Option UInt64 :=
  (mods.find? (fun m => m.name = module)).bind (fun m => m.findName fs opt symname)

end Resolve

/-- A module without its table. -/
def MappedModule.unloaded (m : MappedModule) : MappedModule := { m with syms := none }

/-- A lookup changes nothing of the modules but their tables. -/
theorem resolveLoop_unloaded {S : KeySort Nat} {fs : FileSystem} {opt : SymbolOption}
    {lazySymbolize : Bool} {addr : UInt64} (mods : List MappedModule) (original : Option String)
    (sym : Reply) :
    (resolveLoop S fs opt lazySymbolize addr mods original sym).2.map MappedModule.unloaded
      = mods.map MappedModule.unloaded := by
  induction mods generalizing original sym with
  | nil => rfl
  | cons m ms ih =>
    rw [resolveLoop]
    split
    · exact congrArg (m.unloaded :: ·) (ih original sym)
    · split
      · exact congrArg (m.unloaded :: ·) (ih original sym)
      · dsimp only
        split
        · rfl
        · exact congrArg (m.unloaded :: ·) (ih _ _)

/-! ### Loading the modules -/

/-- `mod_info`, and whether the path is one of the process's mount namespace. -/
structure ModInfo where
  name : String
  startAddr : UInt64
  endAddr : UInt64
  fileOffset : UInt64
  enterNs : Bool
  deriving DecidableEq, Repr

/-- What is found out about the file of a module. -/
structure ModuleFiles where
  /-- `ModulePath::path` and `ModulePath::alt_path`. -/
  paths : String → Bool → String × String
  /-- `bcc_elf_get_type`, if it is not negative. -/
  elfType : String → Option Nat
  /-- `access(path, R_OK)` succeeds. -/
  readable : String → Bool
  /-- What `elf_so_addr_` and `elf_so_offset_` hold after `bcc_elf_get_text_scn_info`, which
      leaves them alone if there is no `.text` section. -/
  textScn : String → UInt64 × UInt64
  /-- The symbols of a perf map or of the vDSO. -/
  named : String → List (String × UInt64 × UInt64)

/-- `bcc_is_perf_map`: the first `.map` in the path is its end. -/
def isPerfMap (path : String) : Bool :=
  let rec go : List Char → Bool
    | [] => false
    | c :: cs => if ".map".toList.isPrefixOf (c :: cs) then cs.length = 3 else go cs
  go path.toList

/-- The type the constructor of `Module` finds. -/
def ModuleFiles.type (w : ModuleFiles) (path : String) : ModuleType :=
  match w.elfType path with
  | some 2 => .exec
  | some 3 => .so
  | some _ => .unknown
  | none =>
    if isPerfMap path ∧ w.readable path then .perfMap
    else if path = "[vdso]" then .vdso
    else .unknown

/-- A module that is made for a mapping. -/
def ModuleFiles.newModule (w : ModuleFiles) (mod : ModInfo) : MappedModule :=
  let p := w.paths mod.name mod.enterNs
  let text := if w.type p.1 = .so then w.textScn p.1 else (0, 0)
  { type := w.type p.1, path := p.1, named := w.named p.1, name := mod.name, altPath := p.2
    ranges := [⟨mod.startAddr, mod.endAddr, mod.fileOffset⟩], mapped := List.cons_ne_nil _ _
    elfSoAddr := text.1, elfSoOffset := text.2, syms := none }

/-- The range is added behind the others. -/
def MappedModule.addRange (m : MappedModule) (r : Range) : MappedModule :=
  { m with ranges := m.ranges ++ [r], mapped := List.append_ne_nil_of_left_ne_nil m.mapped _ }

/-- `_add_module`: the modules, and whether the callback stops. -/
def addModule (w : ModuleFiles) (mods : List MappedModule) (mod : ModInfo) :
    List MappedModule × Bool :=
  match mods.find? (fun m => m.name = mod.name) with
  | some m =>
      (mods.map (fun m => if m.name = mod.name then
        m.addRange ⟨mod.startAddr, mod.endAddr, mod.fileOffset⟩ else m), m.type = .perfMap)
  | none =>
      let m := w.newModule mod
      if isPerfMap m.path ∧ m.type = .unknown then (mods, false)
      else (mods ++ [m], m.type = .perfMap)

/-- The callback is called until it stops. -/
def addModules (w : ModuleFiles) : List MappedModule → List ModInfo → List MappedModule
  | mods, [] => mods
  | mods, mod :: rest =>
    let r := addModule w mods mod
    if r.2 then r.1 else addModules w r.1 rest

/-- `load_modules`: the mappings of the process, then the perf maps it may have. -/
def loadModules (w : ModuleFiles) (maps perfMaps : List ModInfo) : List MappedModule :=
  addModules w (addModules w [] maps) perfMaps

end Bcc.Syms
