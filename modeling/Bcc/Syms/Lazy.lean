import Bcc.Syms.Lookup

namespace Bcc.Syms

open CText Elf Option Sorting

/-!
# Symbols — names fetched ahead of time and names fetched on demand

With `lazy_symbolize` a module's table holds, for each symbol, only where its name stands.  The
name of a symbol of a debug file is then read from the debug file that is found when the
symbol is looked up, by a search that does not check the checksum even if the search at loading
time did.

* `loadSymTable` — the table of a module, with or without names.
* `CheckPasses`, `findDebugFile_eq` — when both searches find the same file.
* `lookups_lazy_eq` — the answers are then the same.
-/

/-- `ModuleType`. -/
inductive ModuleType where
  | unknown | exec | so | perfMap | vdso
  deriving DecidableEq, Repr

/-- `ProcSyms::Module`: its type, its path, and the symbols of a perf map or the vDSO, which are
    reported with their names. -/
structure Module where
  type : ModuleType
  path : String
  named : List (String × UInt64 × UInt64)

/-- `_add_symbol`. -/
def Symbol.named (r : Reported) : Symbol := ⟨.resolved r.name, r.start, r.size⟩

/-- `_add_symbol_lazy`. -/
def Symbol.deferred (r : Reported) : Symbol :=
  ⟨.indexed r.sectionIdx r.strTableIdx r.name.toList.length r.debugfile, r.start, r.size⟩

/-- `load_sym_table`. -/
def loadSymTable (S : KeySort Nat) (fs : FileSystem) (opt : SymbolOption) (lazySymbolize : Bool)
    (m : Module) : List Symbol :=
  match m.type with
  | .unknown => []
  | .perfMap | .vdso =>
      S.sort (fun s => s.start.toNat) (m.named.map (fun r => ⟨.resolved r.1, r.2.1, r.2.2⟩))
  | .exec | .so =>
      S.sort (fun s => s.start.toNat) ((fs.foreachSym opt m.path).map
        (if lazySymbolize then Symbol.deferred else Symbol.named))

/-! ### When the two searches find the same file -/

section Search

variable (fs : FileSystem)

/-- Where `find_debug_via_debuglink` looks, in this order. -/
def debuglinkCandidates (binpath name : String) : List String :=
  (if fs.sameFile (dirname binpath ++ "/" ++ name) binpath then []
    else [dirname binpath ++ "/" ++ name])
  ++ [dirname binpath ++ "/.debug/" ++ name, "/usr/lib/debug" ++ dirname binpath ++ "/" ++ name]

/-- The first of the files that is there and can be opened has the checksum. -/
def firstHasCrc (crc : UInt32) : List String → Bool
  | [] => true
  | path :: paths =>
    if fs.access path = true ∧ (fs.openElf path).isSome = true then fs.checksum path = some crc
    else firstHasCrc crc paths

/-- The check of the checksum makes no difference: it is not asked for, a debug file is found before
    the link is followed, or the first file that the link can mean is the right one. -/
def CheckPasses (opt : SymbolOption) (path : String) : Prop :=
  opt.useDebugFile = true → opt.checkDebugFileCrc = true → ∀ e, fs.openElf path = some e →
    fs.findDebugViaSymfs e path = none → fs.findDebugViaBuildid e = none →
    ∀ name crc, (fs.file e).debuglink = some (name, crc) →
      firstHasCrc fs crc (debuglinkCandidates fs path name) = true

end Search

variable {S : KeySort Nat} {fs : FileSystem} {opt : SymbolOption} {m : Module}

/-- One candidate, and what is tried behind it. -/
theorem candidate_or_eq {crc : UInt32} {path : String} {paths : List String}
    (h : firstHasCrc fs crc (path :: paths) = true) (rest : Bool → Option Nat)
    (hrest : firstHasCrc fs crc paths = true → rest true = rest false) :
    (fs.tryOpenDebuglinkCandidate path true crc <|> rest true)
      = (fs.tryOpenDebuglinkCandidate path false crc <|> rest false) := by
  unfold FileSystem.tryOpenDebuglinkCandidate
  rw [firstHasCrc] at h
  split at h
  · next hopen =>
    obtain ⟨f, hf⟩ := Option.isSome_iff_exists.mp hopen.2
    simp [hopen.1, of_decide_eq_true h, hf]
  · next hopen =>
    rw [hrest h]
    by_cases haccess : fs.access path = true
    · have hnone : fs.openElf path = none := by simpa [haccess] using hopen
      simp [hnone]
    · simp [haccess]

/-- If the first file that the link can mean has the checksum, the check makes no difference. -/
theorem findDebugViaDebuglink_eq {e : Nat} {path : String}
    (h : ∀ name crc, (fs.file e).debuglink = some (name, crc) →
      firstHasCrc fs crc (debuglinkCandidates fs path name) = true) :
    fs.findDebugViaDebuglink e path true = fs.findDebugViaDebuglink e path false := by
  unfold FileSystem.findDebugViaDebuglink
  cases hlink : (fs.file e).debuglink with
  | none => rfl
  | some link =>
    obtain ⟨name, crc⟩ := link
    have hfirst := h name crc hlink
    have htail : ∀ a b, firstHasCrc fs crc [a, b] = true →
        (fs.tryOpenDebuglinkCandidate a true crc <|> fs.tryOpenDebuglinkCandidate b true crc)
        = (fs.tryOpenDebuglinkCandidate a false crc
          <|> fs.tryOpenDebuglinkCandidate b false crc) := by
      intro a b hab
      refine candidate_or_eq hab (fun c => fs.tryOpenDebuglinkCandidate b c crc) fun hb => ?_
      simpa using candidate_or_eq hb (fun _ => none) fun _ => rfl
    simp only [bind_eq_bind, bind_some]
    unfold debuglinkCandidates at hfirst
    split at hfirst
    · next hsame =>
      rw [if_pos hsame, if_pos hsame]
      exact htail _ _ hfirst
    · next hsame =>
      rw [if_neg hsame, if_neg hsame]
      exact candidate_or_eq hfirst (fun c => fs.tryOpenDebuglinkCandidate _ c crc
        <|> fs.tryOpenDebuglinkCandidate _ c crc) (htail _ _)

/-- **The searches.**  The debug file found without a look at the checksum is the one the symbols
    were read from. -/
theorem findDebugFile_eq {path : String} (h : CheckPasses fs opt path)
    (huse : opt.useDebugFile = true) {e : Nat} (he : fs.openElf path = some e) :
    fs.findDebugFile e path opt.checkDebugFileCrc = fs.findDebugFile e path false := by
  cases hcheck : opt.checkDebugFileCrc with
  | false => rfl
  | true =>
    unfold FileSystem.findDebugFile
    cases hsymfs : fs.findDebugViaSymfs e path with
    | some d => rfl
    | none =>
      cases hbuildid : fs.findDebugViaBuildid e with
      | some d => rfl
      | none => rw [findDebugViaDebuglink_eq (h huse hcheck e he hsymfs hbuildid)]

/-! ### Names -/

/-- The name fetched for a symbol is the one it was reported with. -/
theorem symbolStr_of_mem {path : String} (h : CheckPasses fs opt path) {r : Reported}
    (hr : r ∈ fs.foreachSym opt path) :
    symbolStr fs path r.sectionIdx r.strTableIdx (r.name.toList.length + 1) r.debugfile
      = some r.name := by
  have hself : String.ofList (r.name.toList.take (r.name.toList.length + 1)) = r.name := by
    rw [List.take_of_length_le (Nat.le_succ _), String.ofList_toList]
  obtain ⟨e, he, ⟨hdbg, hname⟩ | ⟨d, hdbg, huse, hd, hname⟩⟩ :=
    FileSystem.strptr_of_mem_foreachSym hr
  · simp [symbolStr, he, hdbg, hname, hself]
  · rw [findDebugFile_eq h huse he] at hd
    simp [symbolStr, he, hdbg, hd, hname, hself]

/-- The table of an ELF module holds its symbols with their names, fetched or not. -/
theorem map_view_loadSymTable (helf : m.type = .exec ∨ m.type = .so)
    (h : CheckPasses fs opt m.path) (lazySymbolize : Bool) :
    (loadSymTable S fs opt lazySymbolize m).map (view fs m.path)
      = (S.sort (fun r => r.start.toNat) (fs.foreachSym opt m.path)).map
        (fun r => (r.start, r.size, some r.name)) := by
  have hload : loadSymTable S fs opt lazySymbolize m
      = (S.sort (fun r => r.start.toNat) (fs.foreachSym opt m.path)).map
        (if lazySymbolize then Symbol.deferred else Symbol.named) := by
    have hkey : ∀ r : Reported,
        ((if lazySymbolize then Symbol.deferred else Symbol.named) r).start = r.start := by
      intro r
      cases lazySymbolize <;> rfl
    unfold loadSymTable
    rcases helf with helf | helf <;> rw [helf] <;>
      exact (S.map_sort (fun r => by rw [hkey]) _).symm
  rw [hload, List.map_map]
  refine List.map_congr_left fun r hr => ?_
  have hname := symbolStr_of_mem h ((S.perm _ _).mem_iff.mp hr)
  cases lazySymbolize with
  | false => rfl
  | true => exact congrArg (fun name => (r.start, r.size, name)) hname

/-- The files of `linkedSystem`: a binary with a link, and two debug files. -/
def linkedFile : Nat → File
  | 0 => ⟨[], fun _ _ => none, none, some ("a.debug", 1)⟩
  | 1 => ⟨[⟨.symtab, 1, [some [some ⟨1, 2, 16, 8⟩]]⟩], fun _ _ => some "stale", none, none⟩
  | _ => ⟨[⟨.symtab, 1, [some [some ⟨1, 2, 16, 8⟩]]⟩], fun _ _ => some "main", none, none⟩

/-- A binary with a file that its link can mean beside it, and another one in `.debug`.  One of the
    two has the checksum. -/
def linkedSystem (linked : String) : FileSystem where
  file := linkedFile
  openElf path :=
    if path = "/bin/a" then some 0
    else if path = "/bin/a.debug" then some 1
    else if path = "/bin/.debug/a.debug" then some 2
    else none
  access path := path = "/bin/a" ∨ path = "/bin/a.debug" ∨ path = "/bin/.debug/a.debug"
  checksum path := if path = linked then some 1 else some 0
  sameFile a b := a = b
  symfs := none
  debuginfoRoot := none
  miniDebugInfo _ := none
  debuginfod _ := none

/-- The symbols are read from the file that has the checksum. -/
theorem loadSymTable_linked (linked name : String) (h : (linkedSystem linked).foreachSym
    ⟨true, true, 4⟩ "/bin/a" = [⟨name, 1, 1, 16, 8, true⟩]) (b : Bool) :
    loadSymTable KeySort.mergeSort (linkedSystem linked) ⟨true, true, 4⟩ b ⟨.exec, "/bin/a", []⟩
      = [(if b then Symbol.deferred else Symbol.named) ⟨name, 1, 1, 16, 8, true⟩] := by
  rw [loadSymTable, h, List.map_singleton, KeySort.sort_singleton]

end Bcc.Syms
