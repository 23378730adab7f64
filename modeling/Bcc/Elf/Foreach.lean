import Bcc.Elf.File
import Bcc.Run.Callback

namespace Bcc.Elf

open Callback

/-!
# ELF — symbols and a callback that can stop

`bcc_elf_foreach_sym` calls a callback for each symbol, through loops over files, sections, blocks
of data and symbols.

* `stopsAtOnce_foreachSymWith_iff` — a negative result ends the loops over one file only.
-/

variable {σ : Type} (f : File) (opt : SymbolOption) (debugfile : Bool)
  (cb : σ → Reported → σ × Int)

/-! ### The loops -/

/-- The loop over the symbols of a block. -/
def listBlockWith (stridx : Nat) : σ → List (Option Sym) → Calls σ
  | s, [] => ⟨s, [], false⟩
  | s, sym :: syms =>
    match sym.bind (report f opt debugfile stridx) with
    | none => listBlockWith stridx s syms
    | some r =>
      let ret := cb s r
      if ret.2 < 0 then ⟨ret.1, [ret.2], true⟩
      else
        let rest := listBlockWith stridx ret.1 syms
        ⟨rest.payload, ret.2 :: rest.returned, rest.stopped⟩

/-- `list_in_scn`: the calls, and 1 if the callback stops or -1 if a block cannot be read. -/
def listInScnWith (stridx : Nat) : σ → List (Option (List (Option Sym))) → Calls σ × Int
  | s, [] => (⟨s, [], false⟩, 0)
  | s, none :: _ => (⟨s, [], false⟩, -1)
  | s, some syms :: blocks =>
    let block := listBlockWith f opt debugfile cb stridx s syms
    if block.stopped then (block, 1)
    else
      let rest := listInScnWith stridx block.payload blocks
      (⟨rest.1.payload, block.returned ++ rest.1.returned, rest.1.stopped⟩, rest.2)

/-- `listsymbols`: the calls, and the result, which does not tell whether the callback stops. -/
def listSymbolsWith : σ → List Section → Calls σ × Int
  | s, [] => (⟨s, [], false⟩, 0)
  | s, scn :: sections =>
    if scn.kind = .other then listSymbolsWith s sections
    else
      let rc := listInScnWith f opt debugfile cb scn.link s scn.blocks
      if rc.2 = 1 then (rc.1, 0)
      else if rc.2 < 0 then rc
      else
        let rest := listSymbolsWith rc.1.payload sections
        (⟨rest.1.payload, rc.1.returned ++ rest.1.returned, rest.1.stopped⟩, rest.2)

/-- `foreach_sym_core`: the debug file, then the file itself. -/
def FileSystem.foreachSymWith (fs : FileSystem) (path : String) (payload : σ) : Calls σ × Int :=
  match fs.openElf path with
  | none => (⟨payload, [], false⟩, -1)
  | some e =>
    let debug : Calls σ :=
      if opt.useDebugFile then
        match fs.findDebugFile e path opt.checkDebugFileCrc with
        | none => ⟨payload, [], false⟩
        | some d => (listSymbolsWith (fs.file d) opt true cb payload (fs.file d).sections).1
      else ⟨payload, [], false⟩
    let own := listSymbolsWith (fs.file e) opt false cb debug.payload (fs.file e).sections
    (⟨own.1.payload, debug.returned ++ own.1.returned, own.1.stopped⟩, own.2)

/-! ### One file -/

/-- The blocks of the sections with symbols can be read. -/
def readable (sections : List Section) : Bool :=
  sections.all fun scn => decide (scn.kind = .other) || scn.blocks.all Option.isSome

variable {f opt debugfile cb}

theorem listBlockWith_eq (stridx : Nat) (s : σ) (syms : List (Option Sym)) :
    listBlockWith f opt debugfile cb stridx s syms
      = each cb s (syms.filterMap fun sym => sym.bind (report f opt debugfile stridx)) := by
  induction syms generalizing s with
  | nil => rfl
  | cons sym syms ih =>
    rw [listBlockWith, List.filterMap_cons]
    cases hsym : sym.bind (report f opt debugfile stridx) with
    | none => exact ih s
    | some r =>
      dsimp only [each]
      rw [ih]

theorem listInScnWith_eq (stridx : Nat) (s : σ) (blocks : List (Option (List (Option Sym)))) :
    listInScnWith f opt debugfile cb stridx s blocks
      = (each cb s (listInScn f opt debugfile stridx blocks).1,
        if (each cb s (listInScn f opt debugfile stridx blocks).1).stopped then 1
        else if blocks.all Option.isSome then 0 else -1) := by
  induction blocks generalizing s with
  | nil => rfl
  | cons block blocks ih =>
    cases block with
    | none => rfl
    | some syms =>
      rw [listInScnWith, listInScn, listBlockWith_eq]
      rw [each_append, ih]
      by_cases hblock : (each cb s (syms.filterMap fun sym =>
          sym.bind (report f opt debugfile stridx))).stopped = true
      · simp [hblock]
      · simp [hblock]

theorem listInScn_snd (stridx : Nat) (blocks : List (Option (List (Option Sym)))) :
    (listInScn f opt debugfile stridx blocks).2 = blocks.all Option.isSome := by
  induction blocks with
  | nil => rfl
  | cons block blocks ih =>
    cases block with
    | none => rfl
    | some syms =>
      exact ih

/-- **One file.**  The loops over a file are an iteration over its symbols. -/
theorem listSymbolsWith_eq (s : σ) (sections : List Section) :
    listSymbolsWith f opt debugfile cb s sections
      = (each cb s (listSymbols f opt debugfile sections),
        if (each cb s (listSymbols f opt debugfile sections)).stopped then 0
        else if readable sections then 0 else -1) := by
  induction sections generalizing s with
  | nil => rfl
  | cons scn sections ih =>
    rw [listSymbolsWith, listSymbols]
    by_cases hkind : scn.kind = .other
    · rw [ih]
      simp [readable, hkind]
    have hreadable : readable (scn :: sections)
        = (scn.blocks.all Option.isSome && readable sections) := by
      simp [readable, hkind]
    rw [if_neg hkind, if_neg hkind, listInScnWith_eq, hreadable]
    simp only [listInScn_snd, ih]
    by_cases hstopped : (each cb s (listInScn f opt debugfile scn.link scn.blocks).1).stopped
    · rw [each_append]
      simp [hstopped]
    · by_cases hblocks : scn.blocks.all Option.isSome = true
      · simp only [each_append]
        simp [hstopped, hblocks]
      · simp [hstopped, hblocks]

/-! ### Both files -/

namespace FileSystem

variable {fs : FileSystem} {path : String}

/-- The symbols that the debug file lists, if there is one. -/
def debugSymbols (fs : FileSystem) (opt : SymbolOption) (path : String) (e : Nat) : List Reported :=
  if opt.useDebugFile then
    match fs.findDebugFile e path opt.checkDebugFileCrc with
    | none => []
    | some d => listSymbols (fs.file d) opt true (fs.file d).sections
  else []

/-- The symbols that the file itself lists. -/
def ownSymbols (fs : FileSystem) (opt : SymbolOption) (e : Nat) : List Reported :=
  listSymbols (fs.file e) opt false (fs.file e).sections

theorem foreachSymWith_of_none (h : fs.openElf path = none) (payload : σ) :
    fs.foreachSymWith opt cb path payload = (⟨payload, [], false⟩, -1) := by
  rw [foreachSymWith, h]

/-- The iteration over the file itself follows the one over the debug file in any case. -/
theorem foreachSymWith_of_some {e : Nat} (h : fs.openElf path = some e) (payload : σ) :
    (fs.foreachSymWith opt cb path payload).1 =
      ⟨(each cb (each cb payload (fs.debugSymbols opt path e)).payload
          (fs.ownSymbols opt e)).payload,
        (each cb payload (fs.debugSymbols opt path e)).returned
          ++ (each cb (each cb payload (fs.debugSymbols opt path e)).payload
            (fs.ownSymbols opt e)).returned,
        (each cb (each cb payload (fs.debugSymbols opt path e)).payload
          (fs.ownSymbols opt e)).stopped⟩
    ∧ (fs.foreachSymWith opt cb path payload).2 =
      if (each cb (each cb payload (fs.debugSymbols opt path e)).payload
          (fs.ownSymbols opt e)).stopped then 0
      else if readable (fs.file e).sections then 0 else -1 := by
  have hdebug : (if opt.useDebugFile then
      match fs.findDebugFile e path opt.checkDebugFileCrc with
      | none => ⟨payload, [], false⟩
      | some d => (listSymbolsWith (fs.file d) opt true cb payload (fs.file d).sections).1
    else ⟨payload, [], false⟩) = each cb payload (fs.debugSymbols opt path e) := by
    unfold debugSymbols
    by_cases huse : opt.useDebugFile = true
    · rw [if_pos huse, if_pos huse]
      cases fs.findDebugFile e path opt.checkDebugFileCrc with
      | none => rfl
      | some d =>
        dsimp only
        rw [listSymbolsWith_eq]
    · rw [if_neg huse, if_neg huse]
      rfl
  rw [foreachSymWith, h]
  dsimp only
  rw [hdebug, listSymbolsWith_eq]
  exact ⟨rfl, rfl⟩

/-- **Stopping.**  The callback is not called behind a negative result exactly if it returns none
    for a symbol of the debug file, or the file itself lists no symbol. -/
theorem stopsAtOnce_foreachSymWith_iff {payload : σ} :
    StopsAtOnce (fs.foreachSymWith opt cb path payload).1.returned
      ↔ ∀ e, fs.openElf path = some e →
        Continues cb payload (fs.debugSymbols opt path e) ∨ fs.ownSymbols opt e = [] := by
  cases hopen : fs.openElf path with
  | none =>
    rw [foreachSymWith_of_none hopen]
    exact iff_of_true stopsAtOnce_nil fun e he => absurd he (by simp)
  | some e =>
    rw [(foreachSymWith_of_some hopen payload).1, stopsAtOnce_each_append, returned_eq_nil_iff,
      and_iff_left (stopsAtOnce_each _ _)]
    exact ⟨fun h e' he' => Option.some.inj he' ▸ h, fun h => h e rfl⟩

end FileSystem

end Bcc.Elf
