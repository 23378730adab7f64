import Bcc.Elf.Foreach
import Bcc.Syms.ProcSyms

namespace Bcc.Syms

open Callback Elf
open List hiding after

/-!
# Symbols — the first symbol of a name

* `MappedModule.findName_eq_firstName_iff` — the callback of `Module::find_name` stops at the symbol
  of a name.  What it asks for has an effect within one file only, and none in a perf map, so a
  later file, or line, can take the place of what was found.
-/

/-! ### Names in several lists -/

/-- The address of the first symbol of the name. -/
def firstOf (symname : String) (l : List (String × UInt64)) : Option UInt64 :=
  (l.find? fun r => r.1 = symname).map Prod.snd

/-- The address of the first symbol of the name in the last list that has one. -/
def lastOf (symname : String) (lists : List (List (String × UInt64))) : Option UInt64 :=
  lists.reverse.findSome? (firstOf symname)

/-- The last list with the name has it first at the address where all of them together do. -/
def AddressKept (symname : String) (lists : List (List (String × UInt64))) : Prop :=
  ∀ before l after a b, lists = before ++ l :: after → firstOf symname l = some a →
    (∀ l' ∈ after, firstOf symname l' = none) → firstOf symname lists.flatten = some b → a = b

section Lists

variable {symname : String} {lists : List (List (String × UInt64))}

theorem firstOf_flatten (lists : List (List (String × UInt64))) :
    firstOf symname lists.flatten = lists.findSome? (firstOf symname) := by
  induction lists with
  | nil => rfl
  | cons l lists ih =>
    cases hfind : l.find? fun r => r.1 = symname with
    | none => simpa [firstOf, hfind] using ih
    | some r => simp [firstOf, hfind]

theorem lastOf_eq_none_iff :
    lastOf symname lists = none ↔ ∀ l ∈ lists, firstOf symname l = none := by
  simp [lastOf]

theorem firstOf_flatten_eq_none_iff :
    firstOf symname lists.flatten = none ↔ ∀ l ∈ lists, firstOf symname l = none := by
  rw [firstOf_flatten, findSome?_eq_none_iff]

theorem lastOf_eq_some_iff {a : UInt64} :
    lastOf symname lists = some a ↔ ∃ before l after, lists = before ++ l :: after
      ∧ firstOf symname l = some a ∧ ∀ l' ∈ after, firstOf symname l' = none := by
  rw [lastOf, findSome?_eq_some_iff]
  constructor
  · rintro ⟨after, l, before, hlists, hl, hafter⟩
    refine ⟨before.reverse, l, after.reverse, ?_, hl, by simpa using hafter⟩
    rw [← reverse_reverse lists, hlists]
    simp
  · rintro ⟨before, l, after, rfl, hl, hafter⟩
    exact ⟨after.reverse, l, before.reverse, by simp, hl, by simpa using hafter⟩

theorem lastOf_eq_firstOf_iff :
    lastOf symname lists = firstOf symname lists.flatten ↔ AddressKept symname lists := by
  constructor
  · intro heq before l after a b hlists hl hafter hb
    have ha : lastOf symname lists = some a := lastOf_eq_some_iff.mpr ⟨before, l, after, hlists, hl,
      hafter⟩
    exact Option.some.inj (ha.symm.trans (heq.trans hb))
  · intro hkept
    cases hlast : lastOf symname lists with
    | none => exact (firstOf_flatten_eq_none_iff.mpr (lastOf_eq_none_iff.mp hlast)).symm
    | some a =>
      obtain ⟨before, l, after, hlists, hl, hafter⟩ := lastOf_eq_some_iff.mp hlast
      cases hfirst : firstOf symname lists.flatten with
      | none =>
        have hnone := firstOf_flatten_eq_none_iff.mp hfirst l (by simp [hlists])
        exact absurd (hnone.symm.trans hl) (by simp)
      | some b => rw [hkept before l after a b hlists hl hafter hfirst]

end Lists

/-! ### `find_name` -/

/-- The name and the address of a symbol. -/
def entry (r : Reported) : String × UInt64 := (r.name, r.start)

/-- The callback of `find_name`. -/
def findNameCb (symname : String) (out : Option UInt64) (r : Reported) : Option UInt64 × Int :=
  if r.name = symname then (some r.start, -1) else (out, 0)

/-- The same for a line of a perf map. -/
def findLineCb (symname : String) (out : Option UInt64) (r : String × UInt64 × UInt64) :
    Option UInt64 × Int :=
  if r.1 = symname then (some r.2.1, -1) else (out, 0)

/-- `bcc_perf_map_foreach_sym`, for the lines that can be read: the result of the callback is not
    looked at. -/
def perfMapForeachSym {σ : Type} (cb : σ → String × UInt64 × UInt64 → σ × Int) (payload : σ)
    (symbols : List (String × UInt64 × UInt64)) : Calls σ :=
  every cb payload symbols

/-- What is left in the payload of `find_name`. -/
def MappedModule.findNamePayload (m : MappedModule) (fs : FileSystem) (opt : SymbolOption)
    (symname : String) : Option UInt64 :=
  match m.type with
  | .unknown => none
  | .perfMap => (perfMapForeachSym (findLineCb symname) none m.named).payload
  | .vdso => (each (findLineCb symname) none m.named).payload
  | .exec | .so =>
    let out := (fs.foreachSymWith opt (findNameCb symname) m.path none).1.payload
    if m.path ≠ m.altPath then
      (fs.foreachSymWith opt (findNameCb symname) m.altPath out).1.payload
    else out

section FindName

variable {fs : FileSystem} {opt : SymbolOption} {symname : String}

variable (out : Option UInt64)

theorem each_findNameCb_payload (l : List Reported) :
    (each (findNameCb symname) out l).payload = nextMatch symname out l := by
  induction l generalizing out with
  | nil => rfl
  | cons r l ih =>
    by_cases hr : r.name = symname
    · simp [each, findNameCb, nextMatch, hr]
    · simpa [each, findNameCb, nextMatch, hr] using ih out

/-- A call for one path leaves what the lists of its files leave one after the other. -/
theorem foreachSymWith_findNameCb (path : String) (out : Option UInt64) :
    (fs.foreachSymWith opt (findNameCb symname) path out).1.payload
      = (symbolLists fs opt path).foldl (nextMatch symname) out := by
  cases hopen : fs.openElf path with
  | none => simp [FileSystem.foreachSymWith_of_none hopen, symbolLists, hopen]
  | some e =>
    rw [(FileSystem.foreachSymWith_of_some hopen out).1]
    simp only [each_findNameCb_payload, symbolLists, hopen, FileSystem.debugSymbols]
    by_cases huse : opt.useDebugFile = true
    · simp only [if_pos huse]
      cases fs.findDebugFile e path opt.checkDebugFileCrc with
      | none => rfl
      | some d => rfl
    · simp only [if_neg huse]
      rfl

theorem each_findLineCb_payload (l : List (String × UInt64 × UInt64)) :
    (each (findLineCb symname) out l).payload
      = ((l.find? fun r => r.1 = symname).map fun r => r.2.1).or out := by
  induction l generalizing out with
  | nil => rfl
  | cons r l ih =>
    by_cases hr : r.1 = symname
    · simp [each, findLineCb, hr]
    · simpa [each, findLineCb, hr] using ih out

theorem every_findLineCb_payload (l : List (String × UInt64 × UInt64)) :
    (every (findLineCb symname) out l).payload
      = l.foldl (fun out r => if r.1 = symname then some r.2.1 else out) out := by
  induction l generalizing out with
  | nil => rfl
  | cons r l ih =>
    rw [foldl_cons, ← ih, every]
    unfold findLineCb
    split_ifs <;> rfl

variable (m : MappedModule)

/-- The calls for the two paths of a module. -/
theorem foreachSymWith_both :
    (if m.path ≠ m.altPath then
      (fs.foreachSymWith opt (findNameCb symname) m.altPath
        (fs.foreachSymWith opt (findNameCb symname) m.path none).1.payload).1.payload
    else (fs.foreachSymWith opt (findNameCb symname) m.path none).1.payload)
      = lastMatch symname (symbolLists fs opt m.path
          ++ if m.path ≠ m.altPath then symbolLists fs opt m.altPath else []) := by
  simp only [foreachSymWith_findNameCb, lastMatch, foldl_append]
  split_ifs <;> rfl

/-- `find_name` returns what the loops leave. -/
theorem MappedModule.findName_eq_payload :
    m.findName fs opt symname
      = if m.type = .so then (m.findNamePayload fs opt symname).map (· + m.start)
        else m.findNamePayload fs opt symname := by
  have helf := @foreachSymWith_both fs opt symname m
  unfold MappedModule.findName MappedModule.findNamePayload
  cases htype : m.type with
  | unknown => rfl
  | perfMap => simp [perfMapForeachSym, every_findLineCb_payload]
  | vdso => simp [each_findLineCb_payload]
  | exec | so => simp [helf]

/-! ### What is found, and what is first -/

/-- The symbols of a module in the order they are listed, file by file; of a perf map, line by
    line. -/
def MappedModule.listing (m : MappedModule) (fs : FileSystem) (opt : SymbolOption) :
    List (List (String × UInt64)) :=
  match m.type with
  | .unknown => []
  | .perfMap => m.named.map fun r => [(r.1, r.2.1)]
  | .vdso => [m.named.map fun r => (r.1, r.2.1)]
  | .exec | .so => (symbolLists fs opt m.path
      ++ if m.path ≠ m.altPath then symbolLists fs opt m.altPath else []).map fun l => l.map entry

/-- The address of the first symbol of the name. -/
def MappedModule.firstName (m : MappedModule) (fs : FileSystem) (opt : SymbolOption)
    (symname : String) : Option UInt64 :=
  let first := firstOf symname (m.listing fs opt).flatten
  if m.type = .so then first.map (· + m.start) else first

theorem nextMatch_eq (l : List Reported) :
    nextMatch symname out l = (firstOf symname (l.map entry)).or out := by
  rw [nextMatch, firstOf, find?_map]
  show _ = ((l.find? fun r => r.name = symname).map entry |>.map Prod.snd).or out
  cases l.find? fun r => r.name = symname with
  | none => rfl
  | some r => rfl

theorem foldl_or_eq {α : Type} (f : α → Option UInt64) (out : Option UInt64) (l : List α) :
    l.foldl (fun out x => (f x).or out) out = (l.reverse.findSome? f).or out := by
  induction l generalizing out with
  | nil => rfl
  | cons x l ih =>
    rw [foldl_cons, ih]
    cases h : f x <;> simp [h]

theorem lastMatch_eq_lastOf (lists : List (List Reported)) :
    lastMatch symname lists = lastOf symname (lists.map fun l => l.map entry) := by
  have hnext : nextMatch symname = fun out l => (firstOf symname (l.map entry)).or out := by
    funext out l
    exact nextMatch_eq out l
  rw [lastMatch, hnext, foldl_or_eq, Option.or_none, lastOf, ← map_reverse, findSome?_map]
  rfl

theorem MappedModule.findNamePayload_eq :
    m.findNamePayload fs opt symname = lastOf symname (m.listing fs opt) := by
  have helf := @foreachSymWith_both fs opt symname m
  unfold MappedModule.findNamePayload MappedModule.listing
  cases htype : m.type with
  | unknown => rfl
  | perfMap =>
    have hline : (fun (out : Option UInt64) (r : String × UInt64 × UInt64) =>
        if r.1 = symname then some r.2.1 else out)
          = fun out r => (firstOf symname [(r.1, r.2.1)]).or out := by
      funext out r
      by_cases hr : r.1 = symname
      · simp [firstOf, hr]
      · simp [firstOf, hr]
    simp only [perfMapForeachSym, every_findLineCb_payload, hline, foldl_or_eq, Option.or_none]
    rw [lastOf, ← map_reverse, findSome?_map]
    rfl
  | vdso =>
    simp only [each_findLineCb_payload, Option.or_none, lastOf, reverse_singleton,
      findSome?_singleton, firstOf, find?_map, Option.map_map]
    rfl
  | exec | so => simp [helf, lastMatch_eq_lastOf]

/-- **The first symbol of the name.** -/
theorem MappedModule.findName_eq_firstName_iff :
    m.findName fs opt symname = m.firstName fs opt symname
      ↔ AddressKept symname (m.listing fs opt) := by
  rw [m.findName_eq_payload, m.findNamePayload_eq, ← lastOf_eq_firstOf_iff, firstName]
  by_cases hso : m.type = .so
  · have hinj : Function.Injective (fun a : UInt64 => a + m.start) :=
      fun a b h => (UInt64.add_left_inj m.start).mp h
    simp only [if_pos hso]
    exact (Option.map_injective hinj).eq_iff
  · simp [if_neg hso]

end FindName

end Bcc.Syms
