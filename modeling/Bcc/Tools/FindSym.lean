import Bcc.Order.Bisect
import Bcc.Syms.Innermost
import Mathlib.Data.String.Basic

namespace Bcc.Tools

open CText List

/-!
# libbpf-tools — the symbol at an offset of an object

* `Loaded` — the symbols of an object are sorted by their start, those with one start by their name;
* `findSym_spec` — the search finds the last one that starts up to an offset;
* `findSym_covers_iff` — it is looked at whether that one reaches so far, and at no other.
-/

/-! ### The table -/

/-- `struct sym`, with its name in place. -/
structure Sym where
  name : String
  start : UInt64
  size : UInt64
  offset : UInt64
  deriving DecidableEq, Repr

/-- The symbol that `dso__add_syms` adds for an entry of a symbol table, if it adds one. -/
def symOf (f : Elf.File) (stridx : Nat) (sym : Elf.Sym) : Option Sym :=
  match f.strptr stridx sym.name with
  | none => none
  | some name =>
    if name = "" then none else if sym.value = 0 then none else some ⟨name, sym.value, sym.size, 0⟩

/-- `dso__add_syms` on the blocks of a section; `none` if it gives up. -/
def addSyms (f : Elf.File) (stridx : Nat) :
    List (Option (List (Option Elf.Sym))) → Option (List Sym)
  | [] => some []
  | none :: _ => none
  | some syms :: blocks => do
    let rest ← addSyms f stridx blocks
    return syms.filterMap (fun sym => sym.bind (symOf f stridx)) ++ rest

/-- The loop of `dso__load_sym_table_from_elf` over the sections. -/
def loadSyms (f : Elf.File) : List Elf.Section → Option (List Sym)
  | [] => some []
  | scn :: sections =>
    if scn.kind ≠ .symtab ∧ scn.kind ≠ .dynsym then loadSyms f sections
    else do
      let syms ← addSyms f scn.link scn.blocks
      let rest ← loadSyms f sections
      return syms ++ rest

/-- `sym_cmp`, up to the number it returns for "less" and "greater". -/
def symCmp (s₁ s₂ : Sym) : Ordering :=
  if s₁.start = s₂.start then compare s₁.name s₂.name
  else if s₁.start < s₂.start then .lt else .gt

/-- **Loaded tables.**  `qsort` leaves the symbols in an order that `sym_cmp` does not
    contradict; which of two equal ones comes first is left open. -/
structure Loaded (f : Elf.File) (syms : List Sym) : Prop where
  perm : ∃ read, loadSyms f f.sections = some read ∧ syms.Perm read
  sorted : syms.Pairwise (fun s₁ s₂ => symCmp s₁ s₂ ≠ .gt)

/-! ### The lookup -/

/-- `dso->syms[i]`. -/
def symAt (syms : List Sym) (i : Int) : Res Sym :=
  if i < 0 then .error .outOfBounds
  else
    match syms[i.toNat]? with
    | some s => .ok s
    | none => .error .outOfBounds

/-- The comparison in the loop. -/
def startsUpTo (syms : List Sym) (offset : UInt64) (mid : Int) : Res Bool := do
  return decide ((← symAt syms mid).start ≤ offset)

/-- `dso__find_sym` on a loaded table: the place of the symbol, and the table with the offset
    noted in it.  The loop halves an interval of the table, so as many turns as there are symbols
    are enough. -/
def findSym (syms : List Sym) (offset : UInt64) : Res (Option Nat × List Sym) := do
  let ends ← Bisect.last (startsUpTo syms offset) syms.length 0 (syms.length - 1)
  if ends.1 = ends.2 then
    let s ← symAt syms ends.1
    if s.start ≤ offset ∧ offset < s.start + s.size then
      return (some ends.1.toNat, syms.set ends.1.toNat { s with offset := offset - s.start })
    else return (none, syms)
  else return (none, syms)

/-- The table after some lookups. -/
def lookups : List Sym → List UInt64 → Res (List Sym)
  | syms, [] => .ok syms
  | syms, offset :: offsets => do
    let r ← findSym syms offset
    lookups r.2 offsets

/-! ### What is looked at -/

/-- The last symbol that starts up to an offset. -/
structure LastUpTo (syms : List Sym) (offset : UInt64) (i : Nat) (s : Sym) : Prop where
  place : syms[i]? = some s
  start_le : s.start ≤ offset
  behind : ∀ j t, i < j → syms[j]? = some t → offset < t.start

theorem symAt_eq {syms : List Sym} {i : Int} {s : Sym} (hi : 0 ≤ i)
    (h : syms[i.toNat]? = some s) : symAt syms i = .ok s := by
  rw [symAt, if_neg (Int.not_lt.mpr hi), h]

/-- `sym_cmp` compares the starts first. -/
theorem start_le_of_symCmp {s₁ s₂ : Sym} (h : symCmp s₁ s₂ ≠ .gt) : s₁.start ≤ s₂.start := by
  unfold symCmp at h
  split at h
  · next heq => exact heq ▸ UInt64.le_refl _
  · split at h
    · next hlt => exact UInt64.le_of_lt hlt
    · exact absurd rfl h

/-- What the comparison in the loop says of a place of the table. -/
def upTo (syms : List Sym) (offset : UInt64) (i : Int) : Bool :=
  (syms[i.toNat]?).any (fun s => s.start ≤ offset)

section Table

variable {syms : List Sym} {offset : UInt64}

theorem upTo_eq {i : Int} {s : Sym} (h : syms[i.toNat]? = some s) :
    upTo syms offset i = decide (s.start ≤ offset) := by
  rw [upTo, h, Option.any_some]

theorem startsUpTo_eq {i : Int} (hlo : 0 ≤ i) (hhi : i ≤ syms.length - 1) :
    startsUpTo syms offset i = .ok (upTo syms offset i) := by
  have hget := getElem?_eq_getElem (l := syms) (i := i.toNat) (by omega)
  rw [startsUpTo, symAt_eq hlo hget, upTo_eq hget, ok_bind, pure_eq_ok]

section

variable (hsort : syms.Pairwise (fun s₁ s₂ => s₁.start ≤ s₂.start))
include hsort

theorem upTo_of_le {i j : Int} (hij : i ≤ j) (h : upTo syms offset j = true) :
    upTo syms offset i = true := by
  rw [upTo, Option.any_eq_true] at h
  obtain ⟨t, ht, hle⟩ := h
  obtain ⟨hj, rfl⟩ := List.getElem?_eq_some_iff.mp ht
  have hget := getElem?_eq_getElem (l := syms) (i := i.toNat) (by omega)
  rw [upTo_eq hget, decide_eq_true_eq]
  rcases Nat.lt_or_eq_of_le (show i.toNat ≤ j.toNat by omega) with hlt | heq
  · exact UInt64.le_trans (pairwise_iff_getElem.mp hsort _ _ _ hj hlt) (of_decide_eq_true hle)
  · simpa [heq] using hle

/-- The loop ends at a place behind which every symbol starts behind the offset. -/
theorem bisect_syms (hne : syms ≠ []) :
    ∃ i s, Bisect.last (startsUpTo syms offset) syms.length 0 (syms.length - 1) = .ok (i, i)
      ∧ 0 ≤ i ∧ syms[i.toNat]? = some s ∧ (i = 0 ∨ s.start ≤ offset)
      ∧ ∀ j t, i.toNat < j → syms[j]? = some t → offset < t.start := by
  have hpos : 0 < syms.length := length_pos_iff.mpr hne
  obtain ⟨i, hlast, hlo, hhi, hbehind, hi⟩ := @Bisect.last_spec (startsUpTo syms offset)
    (upTo syms offset) syms.length 0 (syms.length - 1) (by omega) (by omega)
    (fun i hlo hhi => startsUpTo_eq hlo hhi) (fun i j _ hij _ => upTo_of_le hsort hij)
  have hget := getElem?_eq_getElem (l := syms) (i := i.toNat) (by omega)
  refine ⟨i, _, hlast, hlo, hget, hi.imp_right ?_, fun j t hij ht => ?_⟩
  · intro h
    rwa [upTo_eq hget, decide_eq_true_eq] at h
  · have hj : j < syms.length := (List.getElem?_eq_some_iff.mp ht).1
    have h := hbehind j (by omega) (by omega)
    rw [upTo_eq ht, decide_eq_false_iff_not, UInt64.not_le] at h
    exact h

/-- **The lookup.**  The last symbol that starts up to the offset is found, if it ends behind it;
    no other one is, and nothing is read outside of the table. -/
theorem findSym_spec :
    (∃ i s, findSym syms offset
        = .ok (some i, syms.set i { s with offset := offset - s.start })
      ∧ LastUpTo syms offset i s ∧ offset < s.start + s.size)
    ∨ (findSym syms offset = .ok (none, syms)
      ∧ ∀ i s, LastUpTo syms offset i s → ¬ offset < s.start + s.size) := by
  by_cases hne : syms = []
  · subst hne
    exact .inr ⟨rfl, fun i s h => absurd h.place (by simp)⟩
  obtain ⟨i, s, hlast, hi, hget, hfirst, hbehind⟩ := @bisect_syms syms offset hsort hne
  have hfind : findSym syms offset = if s.start ≤ offset ∧ offset < s.start + s.size then
      .ok (some i.toNat, syms.set i.toNat { s with offset := offset - s.start })
      else .ok (none, syms) := by
    rw [findSym, hlast, ok_bind, if_pos rfl, symAt_eq hi hget]
    rfl
  rw [hfind]
  split
  · next hcover => exact .inl ⟨i.toNat, s, rfl, ⟨hget, hcover.1, hbehind⟩, hcover.2⟩
  rename_i hcover
  refine .inr ⟨rfl, fun k t hlast' hlt => hcover ?_⟩
  -- there is only one last symbol, and the loop ended at it
  obtain heq : k = i.toNat := by
    rcases Nat.lt_trichotomy k i.toNat with hki | rfl | hik
    · have hs : s.start ≤ offset := hfirst.resolve_left (by omega)
      exact absurd (hlast'.behind _ _ hki hget) (UInt64.not_lt.mpr hs)
    · rfl
    · exact absurd (hbehind _ _ hik hlast'.place) (UInt64.not_lt.mpr hlast'.start_le)
  subst heq
  cases hget.symm.trans hlast'.place
  exact ⟨hlast'.start_le, hlt⟩

end

/-! ### Lookups one after the other -/

/-- The symbols, apart from the offset that the last lookup noted. -/
def entries (syms : List Sym) : List Sym := syms.map fun s => { s with offset := 0 }

/-- A lookup changes no more than the offset that is noted in a symbol. -/
theorem entries_findSym (hsort : syms.Pairwise (fun s₁ s₂ => s₁.start ≤ s₂.start)) :
    ∃ r, findSym syms offset = .ok r ∧ entries r.2 = entries syms := by
  rcases @findSym_spec syms offset hsort with ⟨i, s, hfind, hlast, -⟩ | ⟨hfind, -⟩
  · refine ⟨_, hfind, ?_⟩
    obtain ⟨hi, rfl⟩ := List.getElem?_eq_some_iff.mp hlast.place
    apply ext_getElem?
    intro j
    simp only [entries, getElem?_map, getElem?_set]
    split
    · next h =>
      subst h
      simp [hi]
    · rfl
  · exact ⟨_, hfind, rfl⟩

/-- The starts are those of the entries. -/
theorem sorted_entries_iff : syms.Pairwise (fun s₁ s₂ => s₁.start ≤ s₂.start)
    ↔ (entries syms).Pairwise (fun s₁ s₂ => s₁.start ≤ s₂.start) := by
  rw [entries, pairwise_map]

/-- Any number of lookups. -/
theorem entries_lookups (hsort : syms.Pairwise (fun s₁ s₂ => s₁.start ≤ s₂.start))
    (offsets : List UInt64) : ∃ t, lookups syms offsets = .ok t ∧ entries t = entries syms := by
  induction offsets generalizing syms with
  | nil => exact ⟨syms, rfl, rfl⟩
  | cons offset offsets ih =>
    obtain ⟨r, hfind, hr⟩ := @entries_findSym syms offset hsort
    have hsort' : r.2.Pairwise (fun s₁ s₂ => s₁.start ≤ s₂.start) := by
      rw [sorted_entries_iff, hr, ← sorted_entries_iff]
      exact hsort
    obtain ⟨t, ht, hentries⟩ := ih hsort'
    refine ⟨t, ?_, hentries.trans hr⟩
    rw [lookups, hfind, ok_bind, ht]

end Table

/-! ### Covered offsets -/

/-- The symbol covers the offset. -/
def Sym.Covers (offset : UInt64) (s : Sym) : Prop := Syms.Covers Sym.start Sym.size offset s

/-- The last symbol of the table that starts up to the offset covers it, and its end is not behind
    the last address. -/
def LastCovers (syms : List Sym) (offset : UInt64) : Prop :=
  ∃ front s back, syms = front ++ s :: back ∧ s.Covers offset
    ∧ s.start.toNat + s.size.toNat < 2 ^ 64 ∧ ∀ t ∈ back, offset < t.start

/-- **A symbol that covers the offset is found.** -/
def FindsCovering (syms : List Sym) (offset : UInt64) : Prop :=
  ∃ i s t, findSym syms offset = .ok (some i, t) ∧ t[i]? = some s ∧ s.Covers offset
    ∧ s.offset = offset - s.start

section Covered

variable {syms : List Sym} {offset : UInt64}

theorem lastCovers_iff : LastCovers syms offset
    ↔ ∃ i s, LastUpTo syms offset i s ∧ offset < s.start + s.size := by
  constructor
  · rintro ⟨front, s, back, rfl, hcovers, hstop, hbehind⟩
    refine ⟨front.length, s, ⟨by simp, hcovers.1, fun j t hj ht => ?_⟩,
      (Syms.lt_add_size_iff hcovers.1).mpr ⟨hcovers.2, hstop⟩⟩
    rw [getElem?_append_right hj.le, getElem?_cons, if_neg (by omega)] at ht
    exact hbehind t (mem_of_getElem? ht)
  · rintro ⟨i, s, hlast, hlt⟩
    obtain ⟨hi, rfl⟩ := List.getElem?_eq_some_iff.mp hlast.place
    obtain ⟨hcovers, hstop⟩ := (Syms.lt_add_size_iff hlast.start_le).mp hlt
    refine ⟨syms.take i, syms[i], syms.drop (i + 1), ?_, ⟨hlast.start_le, hcovers⟩, hstop, ?_⟩
    · rw [getElem_cons_drop, take_append_drop]
    · intro t ht
      obtain ⟨k, hk⟩ := mem_iff_getElem?.mp ht
      rw [getElem?_drop] at hk
      exact hlast.behind _ t (by omega) hk

theorem findsCovering_iff (hsort : syms.Pairwise (fun s₁ s₂ => s₁.start ≤ s₂.start)) :
    FindsCovering syms offset ↔ LastCovers syms offset := by
  rw [lastCovers_iff]
  rcases @findSym_spec syms offset hsort with ⟨i, s, hfind, hlast, hlt⟩ | ⟨hfind, hnone⟩
  · refine iff_of_true ⟨i, { s with offset := offset - s.start }, _, hfind, ?_,
      ⟨hlast.start_le, ?_⟩, rfl⟩ ⟨i, s, hlast, hlt⟩
    · exact getElem?_set_self (List.getElem?_eq_some_iff.mp hlast.place).1
    · exact ((Syms.lt_add_size_iff hlast.start_le).mp hlt).1
  · refine iff_of_false ?_ fun ⟨i, s, hlast, hlt⟩ => hnone i s hlast hlt
    rintro ⟨i, s, t, hfind', -⟩
    rw [hfind] at hfind'
    cases hfind'

/-- The offsets that are noted do not matter. -/
theorem lastCovers_entries : LastCovers (entries syms) offset ↔ LastCovers syms offset := by
  constructor
  · rintro ⟨front, s, back, heq, hcovers, hstop, hbehind⟩
    obtain ⟨front', rest, rfl, -, hrest⟩ := map_eq_append_iff.mp heq
    obtain ⟨s', back', rfl, rfl, rfl⟩ := map_eq_cons_iff.mp hrest
    exact ⟨front', s', back', rfl, hcovers, hstop,
      fun t ht => hbehind { t with offset := 0 } (mem_map.mpr ⟨t, ht, rfl⟩)⟩
  · rintro ⟨front, s, back, rfl, hcovers, hstop, hbehind⟩
    exact ⟨entries front, { s with offset := 0 }, entries back, by simp [entries], hcovers, hstop,
      forall_mem_map.mpr fun t ht => hbehind t ht⟩

end Covered

/-- **Covered offsets.**  In the table of an object, after any lookups, a symbol that covers an
    offset is found exactly if the last symbol that starts up to it does: with several symbols at
    one start the one with the last name, and with nested symbols the inner one. -/
theorem findSym_covers_iff {f : Elf.File} {syms : List Sym} (hload : Loaded f syms)
    (earlier : List UInt64) (offset : UInt64) :
    ∃ t, lookups syms earlier = .ok t ∧ (FindsCovering t offset ↔ LastCovers syms offset) := by
  have hsort : syms.Pairwise (fun s₁ s₂ => s₁.start ≤ s₂.start) :=
    hload.sorted.imp start_le_of_symCmp
  obtain ⟨t, hrun, hentries⟩ := entries_lookups hsort earlier
  have hsort' : t.Pairwise (fun s₁ s₂ => s₁.start ≤ s₂.start) := by
    rw [sorted_entries_iff, hentries, ← sorted_entries_iff]
    exact hsort
  refine ⟨t, hrun, ?_⟩
  rw [findsCovering_iff hsort', ← lastCovers_entries, hentries, lastCovers_entries]

/-- A file with a function that has another one inside. -/
def nestedFile : Elf.File where
  sections := [⟨.symtab, 1, [some [some ⟨1, 2, 0x1010, 8⟩, some ⟨7, 2, 0x1000, 0x100⟩]]⟩]
  strptr _ name := if name = 1 then some "inner" else if name = 7 then some "outer" else none
  buildId := none
  debuglink := none

/-- Its table. -/
def nestedSyms : List Sym := [⟨"outer", 0x1000, 0x100, 0⟩, ⟨"inner", 0x1010, 8, 0⟩]

theorem nestedSyms_loaded : Loaded nestedFile nestedSyms where
  perm := ⟨[⟨"inner", 0x1010, 8, 0⟩, ⟨"outer", 0x1000, 0x100, 0⟩], by decide, .swap _ _ _⟩
  sorted := by decide

theorem findSym_covers_inner : ∃ t, lookups nestedSyms [0x1050] = .ok t
    ∧ FindsCovering t 0x1012 := by
  obtain ⟨t, hrun, hiff⟩ := findSym_covers_iff nestedSyms_loaded [0x1050] 0x1012
  exact ⟨t, hrun, hiff.mpr ⟨[_], _, [], rfl, ⟨by decide, by decide⟩, by decide, by simp⟩⟩

/-- Behind the inner function, the outer one is not found. -/
theorem findSym_misses_outer : Loaded nestedFile nestedSyms
    ∧ (∃ s ∈ nestedSyms, s.Covers 0x1050)
    ∧ findSym nestedSyms 0x1050 = .ok (none, nestedSyms) := by
  exact ⟨nestedSyms_loaded, ⟨_, mem_cons_self, by decide, by decide⟩, by decide⟩

end Bcc.Tools
