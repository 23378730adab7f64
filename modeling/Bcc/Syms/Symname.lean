import Bcc.Syms.FirstMatch

namespace Bcc.Syms

open Callback Elf List

/-!
# Symbols — the search of `bcc_resolve_symname`

A symbol is looked for in the symbol tables of a file.  The search is the one of `find_name`, but it
also fails if the tables of the file itself cannot be read, whatever the debug file has.

* `findSym`, `symAddress` — the callback, and the search;
* `symAddress_eq` — what it finds;
* `stops_and_finds_first_iff` — when a callback is stopped, and when the first symbol is found.
-/

/-! ### The code -/

/-- `_find_sym` -/
def findSym (symname : String) (offset : UInt64) (r : Reported) : UInt64 × Int :=
  if r.name = symname then (r.start, -1) else (offset, 0)

/-- The search for a name: the address, unless it is given up. -/
def symAddress (fs : FileSystem) (opt : SymbolOption) (path symname : String) : Option UInt64 :=
  let run := fs.foreachSymWith opt (findSym symname) path 0
  if run.2 < 0 then none
  else if run.1.payload = 0 then none
  else some run.1.payload

/-! ### What the search finds -/

section Search

variable {fs : FileSystem} {opt : SymbolOption} {path symname : String} {e : Nat}

/-- The symbols of a path in the order they are listed, file by file. -/
def fileLists (fs : FileSystem) (opt : SymbolOption) (path : String) :
    List (List (String × UInt64)) :=
  (symbolLists fs opt path).map fun l => l.map entry

theorem each_findSym (offset : UInt64) (l : List Reported) :
    (each (findSym symname) offset l).payload = (firstOf symname (l.map entry)).getD offset
      ∧ (each (findSym symname) offset l).stopped = (firstOf symname (l.map entry)).isSome := by
  induction l generalizing offset with
  | nil => exact ⟨rfl, rfl⟩
  | cons r l ih =>
    by_cases hr : r.name = symname
    · simp [each, findSym, firstOf, entry, hr]
    · simpa [each, findSym, firstOf, entry, hr] using ih offset

theorem start_ne_zero_of_mem {f : File} {debugfile : Bool} {sections : List Section} {r : Reported}
    (h : r ∈ listSymbols f opt debugfile sections) : r.start ≠ 0 := by
  obtain ⟨stridx, sym, hreport⟩ := report_of_mem_listSymbols h
  exact (report_eq_some hreport).2.2

theorem firstOf_ne_zero {l : List Reported} (hl : ∀ r ∈ l, r.start ≠ 0) :
    firstOf symname (l.map entry) ≠ some 0 := by
  intro h
  obtain ⟨p, hp, hzero⟩ := Option.map_eq_some_iff.mp h
  obtain ⟨r, hr, rfl⟩ := mem_map.mp (mem_of_find?_eq_some hp)
  exact hl r hr hzero

theorem debugSymbols_start_ne_zero {r : Reported} (h : r ∈ fs.debugSymbols opt path e) :
    r.start ≠ 0 := by
  unfold FileSystem.debugSymbols at h
  split_ifs at h
  · cases hfind : fs.findDebugFile e path opt.checkDebugFileCrc with
    | none =>
      rw [hfind] at h
      exact absurd h not_mem_nil
    | some d =>
      rw [hfind] at h
      exact start_ne_zero_of_mem h
  · exact absurd h not_mem_nil

/-- The lists of a path: the one of the debug file, if there is one, and the one of the file. -/
theorem fileLists_of_some (opt : SymbolOption) (hopen : fs.openElf path = some e) :
    fileLists fs opt path = [(fs.ownSymbols opt e).map entry]
        ∧ fs.debugSymbols opt path e = []
      ∨ fileLists fs opt path
        = [(fs.debugSymbols opt path e).map entry, (fs.ownSymbols opt e).map entry] := by
  unfold fileLists symbolLists FileSystem.debugSymbols
  rw [hopen]
  by_cases huse : opt.useDebugFile = true
  · simp only [if_pos huse]
    cases fs.findDebugFile e path opt.checkDebugFileCrc with
    | none => exact Or.inl ⟨rfl, rfl⟩
    | some d => exact Or.inr rfl
  · simp only [if_neg huse]
    exact Or.inl ⟨rfl, trivial⟩

theorem lastOf_fileLists (hopen : fs.openElf path = some e) :
    lastOf symname (fileLists fs opt path)
      = (firstOf symname ((fs.ownSymbols opt e).map entry)).or
        (firstOf symname ((fs.debugSymbols opt path e).map entry)) := by
  obtain ⟨hlists, hdebug⟩ | hlists := fileLists_of_some opt hopen
  · simp [hlists, hdebug, lastOf, firstOf]
  · rw [hlists, lastOf, reverse_cons, reverse_singleton, singleton_append, findSome?_cons]
    cases firstOf symname ((fs.ownSymbols opt e).map entry) with
    | none => simp
    | some a => rfl

/-- The search takes what the file itself has, else what the debug file has; but it is given up if
    a table of the file cannot be read and the name was not found there before. -/
theorem symAddress_eq (hopen : fs.openElf path = some e) :
    symAddress fs opt path symname
      = if firstOf symname ((fs.ownSymbols opt e).map entry) = none
          ∧ readable (fs.file e).sections = false then none
        else lastOf symname (fileLists fs opt path) := by
  have hown := @firstOf_ne_zero symname (fs.ownSymbols opt e) fun r hr => start_ne_zero_of_mem hr
  have hdebug := @firstOf_ne_zero symname (fs.debugSymbols opt path e)
    fun r hr => debugSymbols_start_ne_zero hr
  obtain ⟨hcalls, hrc⟩ := @FileSystem.foreachSymWith_of_some _ opt (findSym symname) _ _ _ hopen 0
  rw [symAddress, hcalls, hrc, lastOf_fileLists hopen]
  simp only [each_findSym]
  generalize firstOf symname ((fs.ownSymbols opt e).map entry) = own at *
  generalize firstOf symname ((fs.debugSymbols opt path e).map entry) = debug at *
  cases own with
  | none =>
    cases hread : readable (fs.file e).sections with
    | false => simp
    | true =>
      cases debug with
      | none => simp
      | some a => simpa using hdebug
  | some a => simpa using hown

/-- A table of the file cannot be read, the name was not found in it before, and it is a name of
    the debug file. -/
def GivenUp (fs : FileSystem) (opt : SymbolOption) (path symname : String) : Prop :=
  ∃ e, fs.openElf path = some e ∧ readable (fs.file e).sections = false
    ∧ firstOf symname ((fs.ownSymbols opt e).map entry) = none
    ∧ firstOf symname ((fs.debugSymbols opt path e).map entry) ≠ none

theorem symAddress_eq_firstOf_iff :
    symAddress fs opt path symname = firstOf symname (fileLists fs opt path).flatten
      ↔ ¬ GivenUp fs opt path symname ∧ AddressKept symname (fileLists fs opt path) := by
  cases hopen : fs.openElf path with
  | none =>
    have hlists : fileLists fs opt path = [] := by simp [fileLists, symbolLists, hopen]
    have haddress : symAddress fs opt path symname = none := by
      rw [symAddress, FileSystem.foreachSymWith_of_none hopen]
      rfl
    rw [hlists, haddress, ← lastOf_eq_firstOf_iff]
    refine iff_of_true rfl ⟨?_, rfl⟩
    rintro ⟨e, he, -⟩
    exact absurd (hopen.symm.trans he) (by simp)
  | some e =>
    rw [symAddress_eq hopen, ← lastOf_eq_firstOf_iff]
    by_cases hlost : firstOf symname ((fs.ownSymbols opt e).map entry) = none
        ∧ readable (fs.file e).sections = false
    · rw [if_pos hlost]
      -- only the debug file can have the name
      have hlast := @lastOf_fileLists fs opt path symname e hopen
      rw [hlost.1, Option.none_or] at hlast
      have hnone : firstOf symname (fileLists fs opt path).flatten = none
          ↔ firstOf symname ((fs.debugSymbols opt path e).map entry) = none := by
        rw [firstOf_flatten_eq_none_iff, ← lastOf_eq_none_iff, hlast]
      constructor
      · intro h
        have hdebug := hnone.mp h.symm
        refine ⟨?_, by rw [hlast, hdebug, ← h]⟩
        rintro ⟨e', he', -, -, hne⟩
        cases hopen.symm.trans he'
        exact hne hdebug
      · rintro ⟨hnot, -⟩
        refine (hnone.mpr ?_).symm
        by_contra hne
        exact hnot ⟨e, hopen, hlost.2, hlost.1, hne⟩
    · rw [if_neg hlost, and_iff_right]
      rintro ⟨e', he', hread, hown, -⟩
      cases hopen.symm.trans he'
      exact hlost ⟨hown, hread⟩

end Search

/-- **Stopping at the first symbol.**  A callback is not called behind a negative result exactly if
    it returns none for a symbol of the debug file or the file itself lists no symbol; in a perf
    map, if it returns none but for the last line.  `find_name` finds the first symbol of a name
    exactly if the last file (of a perf map, the last line) that has the name has it at the address
    of the first one; so does `bcc_resolve_symname`, unless it gives up. -/
theorem stops_and_finds_first_iff (fs : FileSystem) (opt : SymbolOption) (path symname : String) :
    (∀ (σ : Type) (cb : σ → Reported → σ × Int) (payload : σ),
      StopsAtOnce (fs.foreachSymWith opt cb path payload).1.returned
        ↔ ∀ e, fs.openElf path = some e →
          Continues cb payload (fs.debugSymbols opt path e) ∨ fs.ownSymbols opt e = [])
    ∧ (∀ (σ : Type) (cb : σ → String × UInt64 × UInt64 → σ × Int) (payload : σ)
        (symbols : List (String × UInt64 × UInt64)),
      StopsAtOnce (perfMapForeachSym cb payload symbols).returned
        ↔ Continues cb payload symbols.dropLast)
    ∧ (∀ m : MappedModule, m.findName fs opt symname = m.firstName fs opt symname
      ↔ AddressKept symname (m.listing fs opt))
    ∧ (symAddress fs opt path symname = firstOf symname (fileLists fs opt path).flatten
      ↔ ¬ GivenUp fs opt path symname ∧ AddressKept symname (fileLists fs opt path)) := by
  refine ⟨fun σ cb payload => ?_, fun σ cb payload symbols => ?_, fun m => ?_, ?_⟩
  · exact FileSystem.stopsAtOnce_foreachSymWith_iff
  · exact stopsAtOnce_every_iff
  · exact m.findName_eq_firstName_iff
  · exact symAddress_eq_firstOf_iff

/-- A file with a symbol `f` at an address. -/
def fileWithF (address : UInt64) : File where
  sections := [⟨.symtab, 0, [some [some ⟨1, 2, address, 16⟩]]⟩]
  strptr _ off := if off = 1 then some "f" else none
  buildId := none
  debuglink := none

/-- A binary that has `f` at `0x1000`, and the debug information in it has it at `0x2000`. -/
def twoSymbols : FileSystem where
  file n := if n = 0 then fileWithF 0x1000 else fileWithF 0x2000
  openElf path := if path = "bin" then some 0 else none
  access _ := false
  checksum _ := none
  sameFile _ _ := false
  symfs := none
  debuginfoRoot := none
  miniDebugInfo n := if n = 0 then some 1 else none
  debuginfod _ := none

/-- The callback is called again, and the later symbol is the one that is found. -/
theorem symAddress_takes_second :
    firstOf "f" (fileLists twoSymbols ⟨true, true, 0xffffffff⟩ "bin").flatten = some 0x2000
      ∧ symAddress twoSymbols ⟨true, true, 0xffffffff⟩ "bin" "f" = some 0x1000
      ∧ (twoSymbols.foreachSymWith ⟨true, true, 0xffffffff⟩ (findSym "f") "bin" 0).1.returned
        = [-1, -1] := by
  decide

end Bcc.Syms
