import Bcc.Syms.ProcSyms

namespace Bcc.Tools

open List Syms

/-!
# libbpf-tools — the shared object at an address

* `findDso_agrees_iff` — `syms__find_dso` goes through the ranges of a process as
  `ProcSyms::Module::contains` does, but leaves out the first address of each.
-/

/-! ### The code -/

inductive DsoType where
  | exec | dyn | perfMap | vdso | unknown
  deriving DecidableEq, Repr

/-- `struct dso`, without its symbols. -/
structure Dso where
  name : String
  ranges : List Range
  type : DsoType
  shAddr : UInt64
  shOffset : UInt64
  deriving DecidableEq, Repr

/-- The offset that is reported for an address in a range. -/
def Dso.offset (dso : Dso) (range : Range) (addr : UInt64) : UInt64 :=
  if dso.type = .dyn ∨ dso.type = .vdso then
    addr - range.start + range.fileOffset + (dso.shAddr - dso.shOffset)
  else addr

/-- The loop body goes on with the next range. -/
def Skips (addr : UInt64) (range : Range) : Prop := addr ≤ range.start ∨ addr ≥ range.stop

instance (addr : UInt64) (range : Range) : Decidable (Skips addr range) :=
  inferInstanceAs (Decidable (_ ∨ _))

/-- The loops of `syms__find_dso`: the object and the range where they stop. -/
def findMapping : List Dso → UInt64 → Option (Dso × Range)
  | [], _ => none
  | dso :: dsos, addr =>
    match dso.ranges.find? (fun range => ¬ Skips addr range) with
    | some range => some (dso, range)
    | none => findMapping dsos addr

/-- `syms__find_dso`. -/
def findDso (dsos : List Dso) (addr : UInt64) : Option (Dso × UInt64) :=
  (findMapping dsos addr).map fun p => (p.1, p.1.offset p.2 addr)

/-! ### All ranges -/

/-- The ranges of all objects, in order. -/
def mappings (dsos : List Dso) : List (Dso × Range) :=
  dsos.flatMap fun dso => dso.ranges.map fun range => (dso, range)

theorem mem_mappings {dsos : List Dso} {p : Dso × Range} :
    p ∈ mappings dsos ↔ p.1 ∈ dsos ∧ p.2 ∈ p.1.ranges := by
  simp only [mappings, mem_flatMap, mem_map]
  constructor
  · rintro ⟨dso, hdso, range, hrange, rfl⟩
    exact ⟨hdso, hrange⟩
  · rintro ⟨hdso, hrange⟩
    exact ⟨p.1, hdso, p.2, hrange, rfl⟩

/-- The search in the ranges of one object. -/
theorem find?_ranges (dso : Dso) (q : Range → Bool) :
    (dso.ranges.map fun range => (dso, range)).find? (fun p => q p.2)
      = (dso.ranges.find? q).map fun range => (dso, range) := by
  rw [find?_map]
  rfl

theorem findMapping_eq (dsos : List Dso) (addr : UInt64) :
    findMapping dsos addr = (mappings dsos).find? fun p => ¬ Skips addr p.2 := by
  induction dsos with
  | nil => rfl
  | cons dso dsos ih =>
    rw [findMapping, mappings, flatMap_cons, find?_append,
      find?_ranges dso fun range => ¬ Skips addr range]
    cases dso.ranges.find? fun range => ¬ Skips addr range with
    | some range => rfl
    | none => exact ih

/-! ### Modules -/

/-- The object as a module of a `ProcSyms`. -/
structure Counterpart (dso : Dso) (m : MappedModule) : Prop where
  ranges : m.ranges = dso.ranges
  addr : m.elfSoAddr = dso.shAddr
  offset : m.elfSoOffset = dso.shOffset
  type : m.type = .so ∨ m.type = .vdso ↔ dso.type = .dyn ∨ dso.type = .vdso

/-- The range in which modules have an address, in the order of `resolve_addr`. -/
def containing (mods : List MappedModule) (addr : UInt64) : Option Range :=
  mods.findSome? fun m => m.ranges.find? fun range => range.Covers addr

/-- **Both find the same.** -/
structure Agrees (dsos : List Dso) (mods : List MappedModule) (addr : UInt64) : Prop where
  found : (findDso dsos addr).isSome = true ↔ ∃ dso ∈ dsos, ∃ range ∈ dso.ranges, range.Covers addr
  offset : ∀ dso off, findDso dsos addr = some (dso, off) → dso.type = .dyn →
    ∃ range ∈ dso.ranges, range.Covers addr
      ∧ off = addr - range.start + range.fileOffset + dso.shAddr - dso.shOffset
  mapping : (findMapping dsos addr).map Prod.snd = containing mods addr
  same : (findDso dsos addr).map Prod.snd = mods.findSome? fun m => m.contains addr

/-- The two ways of writing the offset. -/
theorem Counterpart.contains {dso : Dso} {m : MappedModule} (h : Counterpart dso m)
    (addr : UInt64) : m.contains addr
      = (dso.ranges.find? fun range => range.Covers addr).map
        fun range => dso.offset range addr := by
  rw [MappedModule.contains, h.ranges]
  congr 1
  funext range
  unfold Dso.offset
  by_cases htype : dso.type = .dyn ∨ dso.type = .vdso
  · rw [if_pos htype, if_pos (h.type.mpr htype), soCalcModOffset, h.addr, h.offset]
    congr 1
    rw [UInt64.sub_eq_add_neg, UInt64.neg_sub, UInt64.sub_eq_add_neg, UInt64.sub_eq_add_neg,
      UInt64.add_assoc, UInt64.add_comm range.fileOffset]
  · rw [if_neg htype, if_neg fun hm => htype (h.type.mp hm)]

section Modules

variable {dsos : List Dso} {mods : List MappedModule} {addr : UInt64}

/-- What the modules find, in terms of the objects. -/
theorem containing_eq (h : List.Forall₂ Counterpart dsos mods) :
    containing mods addr = ((mappings dsos).find? fun p => p.2.Covers addr).map Prod.snd
      ∧ (mods.findSome? fun m => m.contains addr)
        = ((mappings dsos).find? fun p => p.2.Covers addr).map fun p => p.1.offset p.2 addr := by
  induction h with
  | nil => exact ⟨rfl, rfl⟩
  | cons hm _ ih =>
    rename_i dso m dsos mods _
    obtain ⟨ih₁, ih₂⟩ := ih
    rw [containing, findSome?_cons, findSome?_cons, hm.ranges, hm.contains, mappings,
      flatMap_cons, find?_append, find?_ranges dso fun range => range.Covers addr]
    cases dso.ranges.find? fun range => range.Covers addr with
    | some range => exact ⟨rfl, rfl⟩
    | none => exact ⟨ih₁, ih₂⟩

/-- A range that is not skipped has the address. -/
theorem covers_of_not_skips {range : Range} (h : ¬ Skips addr range) : range.Covers addr := by
  rw [Skips, not_or, UInt64.not_le, UInt64.not_le] at h
  exact ⟨UInt64.le_of_lt h.1, h.2⟩

theorem skips_iff_of_covers {range : Range} (h : range.Covers addr) :
    Skips addr range ↔ range.start = addr := by
  constructor
  · rintro (hle | hge)
    · exact UInt64.le_antisymm h.1 hle
    · exact absurd hge (UInt64.not_le.mpr h.2)
  · rintro rfl
    exact .inl (UInt64.le_refl _)

/-- The loops stop at the first range that has the address, unless it starts there. -/
theorem findMapping_eq_iff :
    findMapping dsos addr = (mappings dsos).find? (fun p => p.2.Covers addr)
      ↔ ∀ p ∈ (mappings dsos).find? (fun p => p.2.Covers addr), p.2.start ≠ addr := by
  rw [findMapping_eq]
  constructor
  · intro heq p hp hstart
    have hcovers : p.2.Covers addr := by simpa using find?_some hp
    have hskips : ¬ Skips addr p.2 := by simpa using find?_some (heq.trans hp)
    exact hskips ((skips_iff_of_covers hcovers).mpr hstart)
  · intro hstart
    cases hfind : (mappings dsos).find? fun p => p.2.Covers addr with
    | none =>
      rw [find?_eq_none] at hfind ⊢
      intro p hp hskips
      exact hfind p hp (by simpa using covers_of_not_skips (by simpa using hskips))
    | some p =>
      obtain ⟨hcovers, before, after, heq, hbefore⟩ := find?_eq_some_iff_append.mp hfind
      have hcovers : p.2.Covers addr := by simpa using hcovers
      refine find?_eq_some_iff_append.mpr ⟨?_, before, after, heq, fun a ha => ?_⟩
      · simpa using fun h => hstart p hfind ((skips_iff_of_covers hcovers).mp h)
      · have hnot : ¬ a.2.Covers addr := by simpa using hbefore a ha
        simpa using fun h => hnot (covers_of_not_skips h)

end Modules

/-! ### Agreement -/

/-- **Agreement.**  `syms__find_dso` finds what the modules of a `ProcSyms` contain, exactly if
    the first range with the address does not start with it. -/
theorem findDso_agrees_iff {dsos : List Dso} {mods : List MappedModule}
    (h : List.Forall₂ Counterpart dsos mods) (addr : UInt64) :
    Agrees dsos mods addr
      ↔ ∀ p ∈ (mappings dsos).find? (fun p => p.2.Covers addr), p.2.start ≠ addr := by
  obtain ⟨hcontaining, hcontains⟩ := @containing_eq dsos mods addr h
  constructor
  · rintro ⟨-, -, hmapping, -⟩ p hp hstart
    rw [hcontaining, hp, Option.map_some, Option.map_eq_some_iff] at hmapping
    obtain ⟨q, hq, hqp⟩ := hmapping
    -- the loops stopped at a range that starts with the address
    rw [findMapping_eq] at hq
    have hskips : ¬ Skips addr q.2 := by simpa using find?_some hq
    rw [hqp] at hskips
    exact hskips (.inl (hstart ▸ UInt64.le_refl _))
  · intro hstart
    have hfind := findMapping_eq_iff.mpr hstart
    have hdso : findDso dsos addr = ((mappings dsos).find? fun p => p.2.Covers addr).map
        fun p => (p.1, p.1.offset p.2 addr) := by
      rw [findDso, hfind]
    refine ⟨?_, fun dso off hoff htype => ?_, ?_, ?_⟩
    · rw [hdso, Option.isSome_map, find?_isSome]
      constructor
      · rintro ⟨p, hp, hcovers⟩
        exact ⟨p.1, (mem_mappings.mp hp).1, p.2, (mem_mappings.mp hp).2, by simpa using hcovers⟩
      · rintro ⟨dso, hdso, range, hrange, hcovers⟩
        exact ⟨(dso, range), mem_mappings.mpr ⟨hdso, hrange⟩, by simpa using hcovers⟩
    · rw [hdso, Option.map_eq_some_iff] at hoff
      obtain ⟨p, hp, heq⟩ := hoff
      cases heq
      refine ⟨p.2, (mem_mappings.mp (mem_of_find?_eq_some hp)).2,
        by simpa using find?_some hp, ?_⟩
      rw [Dso.offset, if_pos (.inl htype), UInt64.sub_eq_add_neg p.1.shAddr,
        UInt64.sub_eq_add_neg _ p.1.shOffset, UInt64.add_assoc _ p.1.shAddr]
    · rw [hfind, hcontaining]
    · rw [hdso, hcontains, Option.map_map]
      rfl

/-- An object as a module of a type. -/
def Dso.asModule (dso : Dso) (type : ModuleType) (h : dso.ranges ≠ []) : MappedModule where
  type := type
  path := dso.name
  named := []
  name := dso.name
  altPath := dso.name
  ranges := dso.ranges
  mapped := h
  elfSoAddr := dso.shAddr
  elfSoOffset := dso.shOffset
  syms := none

/-- A shared object with one range. -/
def oneRange : Dso := ⟨"libc.so", [⟨0x1000, 0x2000, 0⟩], .dyn, 0x500, 0x500⟩

def oneRangeModule : MappedModule := oneRange.asModule .so (cons_ne_nil _ _)

/-- A shared object with two ranges. -/
def twoRanges : Dso :=
  ⟨"libm.so", [⟨0x3000, 0x4000, 0⟩, ⟨0x5000, 0x7000, 0x1000⟩], .dyn, 0x600, 0x400⟩

/-- The program itself. -/
def program : Dso := ⟨"a.out", [⟨0x400000, 0x401000, 0⟩], .exec, 0x400400, 0x400⟩

/-- An address in the second range of the last object. -/
theorem findDso_agrees_inside :
    Agrees [program, oneRange, twoRanges] [program.asModule .exec (cons_ne_nil _ _), oneRangeModule,
      twoRanges.asModule .so (cons_ne_nil _ _)] 0x6000 := by
  have hsame : List.Forall₂ Counterpart [program, oneRange, twoRanges] [program.asModule .exec
      (cons_ne_nil _ _), oneRangeModule, twoRanges.asModule .so (cons_ne_nil _ _)] :=
    .cons ⟨rfl, rfl, rfl, by decide⟩ (.cons ⟨rfl, rfl, rfl, by decide⟩
      (.cons ⟨rfl, rfl, rfl, by decide⟩ .nil))
  exact (findDso_agrees_iff hsame 0x6000).mpr (by decide)

/-- The first address of the range is not found. -/
theorem findDso_misses_start : findDso [oneRange] 0x1000 = none
    ∧ oneRangeModule.contains 0x1000 = some 0 ∧ ¬ Agrees [oneRange] [oneRangeModule] 0x1000 := by
  have hnone : findDso [oneRange] 0x1000 = none := by decide
  have hcontains : oneRangeModule.contains 0x1000 = some 0 := by decide
  refine ⟨hnone, hcontains, fun h => ?_⟩
  have hsame := h.same
  cases hsame

end Bcc.Tools
