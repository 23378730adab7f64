import Bcc.Text.CString

namespace Bcc.Elf

open CText List

/-!
# ELF — files, their symbols, and the search for a debug file

The symbols of a binary come from its own symbol tables and from a separate file with debug
information.

* `findDebugFile` — searches five places, of which one, the link by name, looks at a checksum, if
  it is told to;
* `foreachSym` — the symbols.
-/

/-! ### Files -/

/-- `GElf_Sym`: the offset of its name in the string table, its type, address and size. -/
structure Sym where
  name : Nat
  type : Nat
  value : UInt64
  size : UInt64
  deriving DecidableEq, Repr

/-- Whether a section holds symbols. -/
inductive SectionKind where
  | symtab | dynsym | other
  deriving DecidableEq, Repr

/-- A section, with the index of the string table it is linked to.  A block of its data is
    `none` if its size is no multiple of the size of a symbol, and a symbol of a block is `none`
    if libelf cannot read it. -/
structure Section where
  kind : SectionKind
  link : Nat
  blocks : List (Option (List (Option Sym)))
  deriving DecidableEq, Repr

/-- What is read of an ELF file. -/
structure File where
  sections : List Section
  /-- `elf_strptr`: the string at an offset of a string table. -/
  strptr : Nat → Nat → Option String
  /-- The build id, in hexadecimal. -/
  buildId : Option String
  /-- The name and the checksum in `.gnu_debuglink`. -/
  debuglink : Option (String × UInt32)

/-- The file system, and what else the code asks from outside.  An opened ELF file is known by
    a number. -/
structure FileSystem where
  file : Nat → File
  /-- `bcc_elf_file_open`. -/
  openElf : String → Option Nat
  /-- `access(path, F_OK)` succeeds. -/
  access : String → Bool
  /-- The checksum over a file, if it can be read. -/
  checksum : String → Option UInt32
  sameFile : String → String → Bool
  /-- The environment variable `BCC_SYMFS`. -/
  symfs : Option String
  /-- The environment variable `BCC_DEBUGINFO_ROOT`. -/
  debuginfoRoot : Option String
  /-- The file packed into `.gnu_debugdata`, if there is one and it can be unpacked. -/
  miniDebugInfo : Nat → Option Nat
  /-- What the debuginfod servers have for a build id. -/
  debuginfod : String → Option Nat

/-! ### Paths -/

/-- The characters without the slashes at their end. -/
def dropTrailingSlashes (cs : List Char) : List Char :=
  (cs.reverse.dropWhile (· == '/')).reverse

/-- `dirname`. -/
def dirname (path : String) : String :=
  let cs := dropTrailingSlashes path.toList
  if cs = [] then (if path = "" then "." else "/")
  else if '/' ∈ cs then
    let dir := dropTrailingSlashes (cs.reverse.dropWhile (· != '/')).reverse
    if dir = [] then "/" else String.ofList dir
  else "."

/-- The path behind a prefix that `sscanf` matches with `/proc/%*u/root/`. -/
def dropProcRoot (path : String) : String :=
  let cs := path.toList
  if "/proc/".toList.isPrefixOf cs then
    let rest := (cs.drop 6).dropWhile isspace
    let rest := if peek rest = '+' ∨ peek rest = '-' then rest.drop 1 else rest
    let tail := rest.dropWhile Char.isDigit
    if (peek rest).isDigit ∧ "/root/".toList.isPrefixOf tail then String.ofList (tail.drop 6)
    else path
  else path

namespace FileSystem

variable (fs : FileSystem)

/-! ### The search for a debug file -/

/-- `find_debug_via_symfs`: the same path under `BCC_SYMFS`; if the binary has a build id, the
    file there must have it too. -/
def findDebugViaSymfs (e : Nat) (path : String) : Option Nat :=
  match fs.symfs with
  | none => none
  | some root =>
    let fullpath := root ++ "/" ++ dropProcRoot path
    if root = "" ∨ fs.access fullpath = false then none
    else do
      let found ← fs.openElf fullpath
      match (fs.file e).buildId with
      | none => some found
      | some id => if (fs.file found).buildId = some id then some found else none

/-- `find_debug_via_buildid`. -/
def findDebugViaBuildid (e : Nat) : Option Nat := do
  let id ← (fs.file e).buildId
  let root := fs.debuginfoRoot.getD "/usr/lib/debug"
  fs.openElf (root ++ "/.build-id/" ++ String.ofList (id.toList.take 2) ++ "/"
    ++ String.ofList (id.toList.drop 2) ++ ".debug")

/-- `try_open_debuglink_candidate`. -/
def tryOpenDebuglinkCandidate (path : String) (checkCrc : Bool) (crc : UInt32) : Option Nat :=
  if fs.access path = false then none
  else if checkCrc ∧ fs.checksum path ≠ some crc then none
  else fs.openElf path

/-- `find_debug_via_debuglink`: three candidates, the first of which must not be the binary. -/
def findDebugViaDebuglink (e : Nat) (binpath : String) (checkCrc : Bool) : Option Nat := do
  let (name, crc) ← (fs.file e).debuglink
  let bindir := dirname binpath
  let beside := bindir ++ "/" ++ name
  (if fs.sameFile beside binpath then none else fs.tryOpenDebuglinkCandidate beside checkCrc crc)
    <|> fs.tryOpenDebuglinkCandidate (bindir ++ "/.debug/" ++ name) checkCrc crc
    <|> fs.tryOpenDebuglinkCandidate ("/usr/lib/debug" ++ bindir ++ "/" ++ name) checkCrc crc

/-- `find_debug_file`. -/
def findDebugFile (e : Nat) (path : String) (checkCrc : Bool) : Option Nat :=
  fs.findDebugViaSymfs e path
    <|> fs.findDebugViaBuildid e
    <|> fs.findDebugViaDebuglink e path checkCrc
    <|> fs.miniDebugInfo e
    <|> (fs.file e).buildId.bind fs.debuginfod

variable {fs}

end FileSystem

/-! ### The symbols of a binary -/

/-- `bcc_symbol_option`, but for `lazy_symbolize`. -/
structure SymbolOption where
  useDebugFile : Bool
  checkDebugFileCrc : Bool
  useSymbolType : UInt32
  deriving DecidableEq, Repr

/-- A symbol as it is reported: its name, where the name stands, its address and size, and
    whether it comes from the debug file. -/
structure Reported where
  name : String
  sectionIdx : Nat
  strTableIdx : Nat
  start : UInt64
  size : UInt64
  debugfile : Bool
  deriving DecidableEq, Repr

/-- The symbol is reported, if it has a name and an address and is of a wanted type. -/
def report (f : File) (opt : SymbolOption) (debugfile : Bool) (stridx : Nat) (sym : Sym) :
    Option Reported :=
  match f.strptr stridx sym.name with
  | none => none
  | some name =>
    if name = "" ∨ sym.value = 0 ∨ opt.useSymbolType.toNat.testBit sym.type = false then none
    else some ⟨name, stridx, sym.name, sym.value, sym.size, debugfile⟩

/-- `list_in_scn`, with a callback that never stops: what is reported, and whether the section
    could be read to its end. -/
def listInScn (f : File) (opt : SymbolOption) (debugfile : Bool) (stridx : Nat) :
    List (Option (List (Option Sym))) → List Reported × Bool
  | [] => ([], true)
  | none :: _ => ([], false)
  | some syms :: blocks =>
    let rest := listInScn f opt debugfile stridx blocks
    (syms.filterMap (fun sym => sym.bind (report f opt debugfile stridx)) ++ rest.1, rest.2)

/-- `listsymbols`: a section that cannot be read to its end is the last one. -/
def listSymbols (f : File) (opt : SymbolOption) (debugfile : Bool) : List Section → List Reported
  | [] => []
  | s :: sections =>
    if s.kind = .other then listSymbols f opt debugfile sections
    else
      let scn := listInScn f opt debugfile s.link s.blocks
      scn.1 ++ (if scn.2 then listSymbols f opt debugfile sections else [])

/-- `foreach_sym_core`: the symbols of the debug file, then those of the binary. -/
def FileSystem.foreachSym (fs : FileSystem) (opt : SymbolOption) (path : String) : List Reported :=
  match fs.openElf path with
  | none => []
  | some e =>
    (if opt.useDebugFile then
      match fs.findDebugFile e path opt.checkDebugFileCrc with
      | none => []
      | some d => listSymbols (fs.file d) opt true (fs.file d).sections
    else [])
    ++ listSymbols (fs.file e) opt false (fs.file e).sections

/-! ### Where the names stand -/

variable {opt : SymbolOption} {debugfile : Bool}

theorem report_of_mem_listInScn {f : File} {stridx : Nat}
    {blocks : List (Option (List (Option Sym)))} {r : Reported}
    (h : r ∈ (listInScn f opt debugfile stridx blocks).1) :
    ∃ sym, report f opt debugfile stridx sym = some r := by
  induction blocks with
  | nil => exact absurd h not_mem_nil
  | cons b blocks ih =>
    cases b with
    | none => exact absurd h not_mem_nil
    | some syms =>
      rcases mem_append.mp h with h | h
      · obtain ⟨o, -, ho⟩ := mem_filterMap.mp h
        obtain ⟨sym, -, hsym⟩ := Option.bind_eq_some_iff.mp ho
        exact ⟨sym, hsym⟩
      · exact ih h

/-- What a file lists is what is reported of a symbol. -/
theorem report_of_mem_listSymbols {f : File} {sections : List Section} {r : Reported}
    (h : r ∈ listSymbols f opt debugfile sections) :
    ∃ stridx sym, report f opt debugfile stridx sym = some r := by
  induction sections with
  | nil => exact absurd h not_mem_nil
  | cons s sections ih =>
    rw [listSymbols] at h
    split at h
    · exact ih h
    · rcases mem_append.mp h with h | h
      · exact ⟨s.link, report_of_mem_listInScn h⟩
      · split at h
        · exact ih h
        · exact absurd h not_mem_nil

/-- A symbol that is reported has a name in the string table and an address, and is marked with
    the file it is from. -/
theorem report_eq_some {f : File} {stridx : Nat} {sym : Sym} {r : Reported}
    (h : report f opt debugfile stridx sym = some r) :
    f.strptr r.sectionIdx r.strTableIdx = some r.name ∧ r.debugfile = debugfile
      ∧ r.start ≠ 0 := by
  unfold report at h
  split at h
  · cases h
  · next name hname =>
    split at h
    · cases h
    · next hwanted =>
      cases h
      exact ⟨hname, rfl, fun hzero => hwanted (Or.inr (Or.inl hzero))⟩

/-- **Names.**  A symbol of a binary has its name from the binary, or from the debug file that
    the search with the option's check finds. -/
theorem FileSystem.strptr_of_mem_foreachSym {fs : FileSystem} {path : String} {r : Reported}
    (h : r ∈ fs.foreachSym opt path) :
    ∃ e, fs.openElf path = some e
      ∧ ((r.debugfile = false ∧ (fs.file e).strptr r.sectionIdx r.strTableIdx = some r.name)
        ∨ ∃ d, r.debugfile = true ∧ opt.useDebugFile = true
          ∧ fs.findDebugFile e path opt.checkDebugFileCrc = some d
          ∧ (fs.file d).strptr r.sectionIdx r.strTableIdx = some r.name) := by
  unfold foreachSym at h
  split at h
  · exact absurd h not_mem_nil
  rename_i e he
  refine ⟨e, he, ?_⟩
  rcases mem_append.mp h with h | h
  · right
    split at h
    · next huse =>
      split at h
      · exact absurd h not_mem_nil
      · next d hd =>
        obtain ⟨stridx, sym, hreport⟩ := report_of_mem_listSymbols h
        obtain ⟨hname, hdbg, -⟩ := report_eq_some hreport
        exact ⟨d, hdbg, huse, hd, hname⟩
    · exact absurd h not_mem_nil
  · obtain ⟨stridx, sym, hreport⟩ := report_of_mem_listSymbols h
    obtain ⟨hname, hdbg, -⟩ := report_eq_some hreport
    exact .inl ⟨hdbg, hname⟩

end Bcc.Elf
