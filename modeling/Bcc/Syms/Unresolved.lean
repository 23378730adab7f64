import Bcc.Syms.Innermost
import Bcc.Syms.ProcSyms

namespace Bcc.Syms

open CText Elf List Sorting

/-!
# Symbols — addresses without a symbol

If the module that has an address has no symbol for it, `resolve_addr` asks the perf maps, and
reports the module in the end.  A perf map that has no symbol either leaves its own offset.

* `resolveLoop_original` — the perf maps behind the module;
* `resolveAddrIn_unresolved_iff` — when the module and the offset that are reported belong together.
-/

variable {S : KeySort Nat} {fs : FileSystem} {opt : SymbolOption} {lazySymbolize : Bool}
  {addr : UInt64}

/-- A perf map has addresses for offsets. -/
theorem MappedModule.contains_perfMap {m : MappedModule} (h : m.type = .perfMap) {offset : UInt64}
    (hoffset : m.contains addr = some offset) : offset = addr := by
  obtain ⟨r, -, hr⟩ := Option.map_eq_some_iff.mp hoffset
  simpa [h] using hr.symm

/-- One of the modules is a perf map that has the address. -/
def perfMapHas (addr : UInt64) (mods : List MappedModule) : Prop :=
  ∃ p ∈ mods, p.type = .perfMap ∧ p.contains addr ≠ none

theorem perfMapHas_cons {m : MappedModule} {ms : List MappedModule} :
    perfMapHas addr (m :: ms)
      ↔ (m.type = .perfMap ∧ m.contains addr ≠ none) ∨ perfMapHas addr ms := by
  simp [perfMapHas]

/-- Behind the module, only perf maps are asked, and each that has the address leaves it as the
    offset. -/
theorem resolveLoop_original (mods : List MappedModule) (original : String) (sym : Reply)
    (h : (resolveLoop S fs opt lazySymbolize addr mods (some original) sym).1.1 = false) :
    (resolveLoop S fs opt lazySymbolize addr mods (some original) sym).1.2.module = some original
      ∧ (perfMapHas addr mods →
        (resolveLoop S fs opt lazySymbolize addr mods (some original) sym).1.2.offset = addr)
      ∧ (¬ perfMapHas addr mods →
        (resolveLoop S fs opt lazySymbolize addr mods (some original) sym).1.2.offset
          = sym.offset) := by
  induction mods generalizing sym with
  | nil => exact ⟨rfl, fun hhas => absurd hhas (by simp [perfMapHas]), fun _ => rfl⟩
  | cons m ms ih =>
    rw [resolveLoop] at h ⊢
    rw [perfMapHas_cons]
    by_cases htype : m.type = .perfMap
    · rw [if_neg (by simp [htype])] at h ⊢
      cases hcontains : m.contains addr with
      | none =>
        rw [hcontains] at h
        simpa [hcontains] using ih sym h
      | some offset =>
        obtain rfl := m.contains_perfMap htype hcontains
        rw [hcontains] at h
        cases hfound : (m.findAddr S fs opt lazySymbolize offset).1 with
        | some answer => simp [hfound] at h
        | none =>
          simp only [hfound, htype] at h ⊢
          obtain ⟨hmodule, hhas, hnot⟩ := ih ⟨none, some m.name, offset⟩ h
          refine ⟨hmodule, fun _ => ?_, fun hno => absurd (.inl ⟨trivial, by simp⟩) hno⟩
          -- Whether or not another one has the address, the offset is the same.
          by_cases hms : perfMapHas offset ms
          · exact hhas hms
          · exact hnot hms
    · rw [if_pos (by simp [htype])] at h ⊢
      simpa [htype] using ih sym h

/-- In front of the module, there are modules that do not have the address, and perf maps. -/
theorem resolveLoop_front {front : List MappedModule}
    (hfront : ∀ m ∈ front, m.type ≠ .perfMap → m.contains addr = none) (mods : List MappedModule)
    (sym : Reply)
    (h : (resolveLoop S fs opt lazySymbolize addr (front ++ mods) none sym).1.1 = false) :
    ∃ sym', (resolveLoop S fs opt lazySymbolize addr (front ++ mods) none sym).1
      = (resolveLoop S fs opt lazySymbolize addr mods none sym').1 := by
  induction front generalizing sym with
  | nil => exact ⟨sym, rfl⟩
  | cons m front ih =>
    obtain ⟨hm, hfront⟩ := forall_mem_cons.mp hfront
    rw [cons_append, resolveLoop] at h ⊢
    cases hcontains : m.contains addr with
    | none =>
      rw [hcontains] at h
      exact ih hfront sym h
    | some offset =>
      have htype : m.type = .perfMap := by
        by_contra htype
        exact absurd ((hm htype).symm.trans hcontains) (by simp)
      rw [hcontains] at h
      cases hfound : (m.findAddr S fs opt lazySymbolize offset).1 with
      | some answer => simp [hfound] at h
      | none =>
        simp only [hfound, htype] at h ⊢
        exact ih hfront _ h

/-- **Addresses without a symbol.**  The module that is reported is the first one that has the
    address and is not a perf map.  The offset is the one in this module exactly if no perf map
    behind it has the address, or the offset is the address. -/
theorem resolveAddrIn_unresolved_iff {front back : List MappedModule} {m : MappedModule}
    (hfront : ∀ m' ∈ front, m'.type ≠ .perfMap → m'.contains addr = none) (hm : m.type ≠ .perfMap)
    {offset : UInt64} (hoffset : m.contains addr = some offset)
    (h : (resolveAddrIn S fs opt lazySymbolize (front ++ m :: back) addr).1.1 = false) :
    (resolveAddrIn S fs opt lazySymbolize (front ++ m :: back) addr).1.2.module = some m.name
      ∧ ((resolveAddrIn S fs opt lazySymbolize (front ++ m :: back) addr).1.2.offset = offset
        ↔ offset = addr ∨ ∀ p ∈ back, p.type = .perfMap → p.contains addr = none) := by
  unfold resolveAddrIn at h ⊢
  obtain ⟨sym, hloop⟩ := resolveLoop_front hfront (m :: back) _ h
  rw [hloop] at h ⊢
  rw [resolveLoop, if_neg (by simp), hoffset] at h ⊢
  cases hfound : (m.findAddr S fs opt lazySymbolize offset).1 with
  | some answer => simp [hfound] at h
  | none =>
    simp only [hfound, hm, ne_eq, not_false_eq_true, if_true] at h ⊢
    obtain ⟨hmodule, hhas, hnot⟩ := resolveLoop_original back m.name ⟨none, some m.name, offset⟩ h
    refine ⟨hmodule, ?_⟩
    by_cases hperf : perfMapHas addr back
    · rw [hhas hperf, eq_comm]
      obtain ⟨p, hp, htype, hcontains⟩ := hperf
      exact ⟨.inl, fun hor => hor.elim id fun hall => absurd (hall p hp htype) hcontains⟩
    · refine iff_of_true (hnot hperf) (.inr fun p hp htype => ?_)
      by_contra hcontains
      exact hperf ⟨p, hp, htype, hcontains⟩

/-- A shared object without symbols, mapped at `0x10000`. -/
def strippedObject : MappedModule where
  type := .so
  path := "/lib/a.so"
  named := []
  name := "/lib/a.so"
  altPath := "/lib/a.so"
  ranges := [⟨0x10000, 0x20000, 0⟩]
  mapped := cons_ne_nil _ _
  elfSoAddr := 0x1000
  elfSoOffset := 0x1000
  syms := some []

/-- A perf map without symbols, which is for all addresses. -/
def emptyPerfMap : MappedModule where
  type := .perfMap
  path := "/tmp/perf-1.map"
  named := []
  name := "/tmp/perf-1.map"
  altPath := "/tmp/perf-1.map"
  ranges := [⟨0, 0xffffffffffffffff, 0⟩]
  mapped := cons_ne_nil _ _
  elfSoAddr := 0
  elfSoOffset := 0
  syms := some []

/-- Without a perf map, the offset in the object is reported. -/
theorem unresolved_offset_of_object :
    (resolveAddrIn KeySort.mergeSort noFiles ⟨false, false, 4⟩ false [strippedObject]
        0x10100).1.2.offset = 0x100 :=
  ((@resolveAddrIn_unresolved_iff KeySort.mergeSort noFiles ⟨false, false, 4⟩ false 0x10100 [] []
    strippedObject (forall_mem_nil _) (by decide) 0x100 (by decide) (by decide)).2).mpr
    (.inr (forall_mem_nil _))

/-- With an empty perf map, the address is reported as the offset in the object. -/
theorem unresolved_offset_of_perfMap :
    strippedObject.contains 0x10100 = some 0x100
      ∧ (resolveAddrIn KeySort.mergeSort noFiles ⟨false, false, 4⟩ false
        [strippedObject, emptyPerfMap] 0x10100).1 = (false, ⟨none, some "/lib/a.so", 0x10100⟩) := by
  decide

end Bcc.Syms
