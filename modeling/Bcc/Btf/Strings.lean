import Bcc.Bytes.Records
import Mathlib.Data.List.TakeWhile

namespace Bcc.Btf

open Bytes CText List

/-!
# BTF — strings and lines of sources

Lines of sources are put into a table of strings, which is later written behind those of a section.

* `StringTable.addString` — puts a string there once;
* `writeStrings_laid`, `lineCache_eq` — the table in the section, the lines of a source.
-/

/-! ### Strings in a section -/

/-- The string at an offset, up to its NUL. -/
def cstringAt (b : List UInt8) (off : Nat) : Res (List UInt8) :=
  if 0 ∈ b.drop off then .ok ((b.drop off).takeWhile (· != 0)) else .error .outOfBounds

/-- What C takes for the string. -/
def cstr (s : List UInt8) : List UInt8 := s.takeWhile (· != 0)

variable {s : List UInt8}

theorem ne_zero_of_mem_cstr {x : UInt8} (h : x ∈ cstr s) : (x != 0) = true := by
  have hx := mem_takeWhile_imp h
  exact hx

theorem not_mem_cstr (s : List UInt8) : 0 ∉ cstr s := by
  intro h
  exact absurd (ne_zero_of_mem_cstr h) (by decide)

theorem cstr_eq_self (h : 0 ∉ s) : cstr s = s := by
  apply takeWhile_eq_self_iff.mpr
  intro x hx
  exact bne_iff_ne.mpr (fun heq => h (heq ▸ hx))

theorem takeWhile_cstr (s rest : List UInt8) :
    (cstr s ++ 0 :: rest).takeWhile (· != 0) = cstr s := by
  rw [takeWhile_append_of_pos (fun x hx => ne_zero_of_mem_cstr hx),
    takeWhile_cons_of_neg (by decide), append_nil]

/-- The string that was written at a place is found there. -/
theorem cstringAt_behind (pre s rest : List UInt8) :
    cstringAt (pre ++ (cstr s ++ 0 :: rest)) pre.length = .ok (cstr s) := by
  unfold cstringAt
  rw [drop_left, if_pos (mem_append_right _ mem_cons_self), takeWhile_cstr]

/-- Strings that end in their section stay what they are when something is added behind. -/
theorem cstringAt_append {b : List UInt8} (hlast : b.getLast? = some 0) (x : List UInt8) {off : Nat}
    (h : off < b.length) : cstringAt (b ++ x) off = cstringAt b off := by
  have hmem : (0 : UInt8) ∈ b.drop off := by
    have hdrop : (b.drop off).getLast? = some 0 := by
      rw [getLast?_drop, if_neg (by omega), hlast]
    exact mem_of_getLast? hdrop
  have hcut : ¬ ((b.drop off).takeWhile (· != 0)).length = (b.drop off).length := by
    intro hlen
    have hall := takeWhile_eq_self_iff.mp ((List.takeWhile_prefix _).eq_of_length hlen)
    exact absurd (hall 0 hmem) (by decide)
  unfold cstringAt
  rw [drop_append_of_le_length (by omega), if_pos (mem_append_left _ hmem), if_pos hmem,
    takeWhile_append, if_neg hcut]

/-! ### The table -/

/-- `BTFStringTable`: the strings with their offsets, in their order. -/
structure StringTable where
  size : Nat
  origTblLen : Nat
  entries : List (Nat × List UInt8)
  deriving DecidableEq, Repr

/-- `BTFStringTable(TblLen)`. -/
def StringTable.new (tblLen : Nat) : StringTable := ⟨0, tblLen, []⟩

/-- `addString`, with the table after it.  `none` is for -1; `0x00ffffff` is
    `BTF_MAX_NAME_OFFSET`. -/
def StringTable.addString (t : StringTable) (s : List UInt8) : Option (Nat × StringTable) :=
  match t.entries.find? (fun e => e.2 = s) with
  | some e => some (e.1, t)
  | none =>
    if 0x00ffffff ≤ (t.origTblLen + t.size) % 2 ^ 32 + s.length + 1 then none
    else some (t.size,
      ⟨(t.size + s.length + 1) % 2 ^ 32, t.origTblLen, t.entries ++ [(t.size, s)]⟩)

/-- The loop that puts the strings of a table into memory, from a place on: `strcpy` writes a
    string up to its first NUL, and the next one starts behind its whole length. -/
def writeStrings : List (Nat × List UInt8) → List UInt8 → Nat → Res (List UInt8)
  | [], mem, _ => .ok mem
  | e :: es, mem, pos =>
    if mem.length < pos + (cstr e.2).length + 1 then .error .outOfBounds
    else writeStrings es (patch mem pos (cstr e.2 ++ [0])) (pos + e.2.length + 1)

/-- Entries stand behind each other from one offset to another. -/
def Laid : Nat → List (Nat × List UInt8) → Nat → Prop
  | first, [], last => first = last
  | first, e :: es, last => e.1 = first ∧ Laid (first + e.2.length + 1) es last

/-- The strings stand behind each other, and with them the section is not too long. -/
structure StringTable.Valid (t : StringTable) : Prop where
  laid : Laid 0 t.entries t.size
  bound : t.entries ≠ [] → t.origTblLen + t.size < 0x00ffffff

variable {first last : Nat} {es : List (Nat × List UInt8)}

theorem laid_append {mid : Nat} {es' : List (Nat × List UInt8)} (h : Laid first es mid)
    (h' : Laid mid es' last) : Laid first (es ++ es') last := by
  induction es generalizing first with
  | nil =>
    obtain rfl : first = mid := h
    exact h'
  | cons e es ih => exact ⟨h.1, ih h.2⟩

theorem Laid.le (h : Laid first es last) : first ≤ last := by
  induction es generalizing first with
  | nil => exact Nat.le_of_eq h
  | cons e es ih =>
    have hrest := ih h.2
    omega

theorem Laid.mem_lt (h : Laid first es last) {e : Nat × List UInt8} (he : e ∈ es) : e.1 < last := by
  induction es generalizing first with
  | nil => exact absurd he not_mem_nil
  | cons d es ih =>
    rcases mem_cons.mp he with rfl | he
    · have hfirst := h.1
      have hrest := h.2.le
      omega
    · exact ih h.2 he

theorem StringTable.valid_new (tblLen : Nat) : (StringTable.new tblLen).Valid :=
  ⟨rfl, fun h => absurd rfl h⟩

theorem StringTable.Valid.sum_lt {t : StringTable} (ht : t.Valid) (horig : t.origTblLen < 2 ^ 32) :
    t.origTblLen + t.size < 2 ^ 32 := by
  by_cases hempty : t.entries = []
  · have hzero : 0 = t.size := by
      have hlaid := ht.laid
      rw [hempty] at hlaid
      exact hlaid
    omega
  · have hbound := ht.bound hempty
    omega

/-- **Adding a string.**  It is in the table at its offset, with the strings that were there. -/
theorem StringTable.Valid.addString {t t' : StringTable} {off : Nat} (ht : t.Valid)
    (horig : t.origTblLen < 2 ^ 32) (h : t.addString s = some (off, t')) :
    t'.Valid ∧ t'.origTblLen = t.origTblLen ∧ (off, s) ∈ t'.entries
      ∧ ∀ e ∈ t.entries, e ∈ t'.entries := by
  unfold StringTable.addString at h
  split at h
  · next e he =>
    cases h
    have hs : e.2 = s := by
      have hfound := find?_some he
      exact of_decide_eq_true hfound
    refine ⟨ht, rfl, ?_, fun e he => he⟩
    rw [← hs]
    exact mem_of_find?_eq_some he
  · split at h
    · cases h
    · next hfit =>
      cases h
      -- the sum of the check does not wrap
      have hsum := ht.sum_lt horig
      rw [Nat.mod_eq_of_lt hsum] at hfit
      have hsize : (t.size + s.length + 1) % 2 ^ 32 = t.size + s.length + 1 :=
        Nat.mod_eq_of_lt (by omega)
      refine ⟨⟨laid_append ht.laid ⟨rfl, hsize.symm⟩, fun _ => ?_⟩, rfl,
        mem_append_right _ mem_cons_self, fun e he => mem_append_left _ he⟩
      show t.origTblLen + (t.size + s.length + 1) % 2 ^ 32 < _
      omega

/-- The front of memory, up to a place, tells what is found there. -/
theorem cstringAt_of_take {mem pre rest : List UInt8} {n : Nat}
    (h : mem.take n = pre ++ (cstr s ++ 0 :: rest)) : cstringAt mem pre.length = .ok (cstr s) := by
  rw [← take_append_drop n mem, h, append_assoc, append_assoc]
  exact cstringAt_behind _ _ _

/-- **Strings in memory.**  Behind a place, with room for all of them, the strings of a table are
    found at their offsets, and what is before it stays. -/
theorem writeStrings_laid {base : Nat} (h : Laid first es last) {mem : List UInt8}
    (hroom : base + last ≤ mem.length) :
    ∃ mem', writeStrings es mem (base + first) = .ok mem' ∧ mem'.length = mem.length
      ∧ mem'.take (base + first) = mem.take (base + first)
      ∧ ∀ e ∈ es, cstringAt mem' (base + e.1) = .ok (cstr e.2) := by
  induction es generalizing first mem with
  | nil => exact ⟨mem, rfl, rfl, rfl, fun e he => absurd he not_mem_nil⟩
  | cons e es ih =>
    obtain ⟨hfirst, hrest⟩ := h
    have hle : (cstr e.2).length ≤ e.2.length := (List.takeWhile_prefix _).length_le
    have hlast := hrest.le
    have hlen : (cstr e.2 ++ [0]).length = (cstr e.2).length + 1 := by
      rw [length_append, length_singleton]
    have hpatch : (patch mem (base + first) (cstr e.2 ++ [0])).length = mem.length :=
      length_patch (by omega)
    obtain ⟨mem', hrun, hsame, hfront, hfound⟩ :=
      ih hrest (show base + last ≤ (patch mem (base + first) (cstr e.2 ++ [0])).length by omega)
    refine ⟨mem', ?_, hsame.trans hpatch, ?_, ?_⟩
    · rw [writeStrings, if_neg (by omega), ← hrun]
      congr 1
      omega
    · have htake := congrArg (List.take (base + first)) hfront
      rwa [take_take, take_take, Nat.min_eq_left (by omega), take_patch (by omega)] at htake
    · intro e' he'
      rcases mem_cons.mp he' with rfl | he'
      · -- the strings behind it leave this one as it was written
        have hpre : (mem.take (base + first)).length = base + first :=
          length_take_of_le (by omega)
        have hend : base + (first + e'.2.length + 1) = base + first + (cstr e'.2 ++ [0]).length
            + (e'.2.length - (cstr e'.2).length) := by
          omega
        rw [hend, take_patch_add (by omega), append_assoc] at hfront
        rw [hfirst, ← hpre]
        exact cstringAt_of_take hfront
      · exact hfound e' he'

/-! ### Lines of sources -/

/-- The loop over a source that fills a `LineCache`, from a character on, with the line that is
    being read backwards.  The last character ends a line whatever it is. -/
def splitLoop : List UInt8 → List UInt8 → List (List UInt8)
  | _, [] => []
  | cur, [_] => [cur.reverse]
  | cur, c :: d :: cs =>
    if c = 10 then cur.reverse :: splitLoop [] (d :: cs)
    else if c = 13 ∧ d = 10 then cur.reverse :: splitLoop [] cs
    else splitLoop (c :: cur) (d :: cs)

/-- The `LineCache` of a source.  A `uint32_t` does not get to the end of one with more than
    `2 ^ 32 - 1` characters. -/
def lineCache (src : List UInt8) : Res (List (List UInt8)) :=
  if 2 ^ 32 ≤ src.length then .error .outOfFuel else .ok (splitLoop [] src)

/-- A line of a source, and whether something ends it. -/
structure SourceLine where
  text : List UInt8
  terminated : Bool
  deriving DecidableEq, Repr

/-- What is before a line feed, read backwards: a carriage return belongs to the end of the line. -/
def endedLine : List UInt8 → SourceLine
  | 13 :: cur => ⟨cur.reverse, true⟩
  | cur => ⟨cur.reverse, true⟩

/-- The lines of a source from a character on.  A line ends with LF or CR LF, or with the source. -/
def linesBehind : List UInt8 → List UInt8 → List SourceLine
  | cur, [] => if cur = [] then [] else [⟨cur.reverse, false⟩]
  | cur, c :: cs => if c = 10 then endedLine cur :: linesBehind [] cs else linesBehind (c :: cur) cs

/-- The lines of a source. -/
def sourceLines (src : List UInt8) : List SourceLine := linesBehind [] src

/-- What the cache has of a line: of one that nothing ends, the last character is missing. -/
def SourceLine.cached (l : SourceLine) : List UInt8 :=
  if l.terminated then l.text else l.text.dropLast

variable {cur : List UInt8}

theorem cached_endedLine (h : cur.head? ≠ some 13) : (endedLine cur).cached = cur.reverse := by
  unfold endedLine
  split
  · exact absurd rfl h
  · rfl

/-- The cache has the lines, but for the last characters of those that nothing ends.  A carriage
    return is not yet read when the line feed behind it is. -/
theorem splitLoop_eq {t : List UInt8} (hcur : t ≠ [] ∨ cur = [])
    (hcr : cur.head? = some 13 → t.head? ≠ some 10) :
    splitLoop cur t = (linesBehind cur t).map SourceLine.cached := by
  have hnotcr : t.head? = some 10 → cur.head? ≠ some 13 := fun h h' => hcr h' h
  fun_induction splitLoop cur t with
  | case1 cur =>
    obtain rfl := hcur.resolve_left (fun h => h rfl)
    rfl
  | case2 cur c =>
    by_cases hc : c = 10
    · subst hc
      show _ = [(endedLine cur).cached]
      rw [cached_endedLine (hnotcr rfl)]
    · have hlines : linesBehind cur [c] = [⟨(c :: cur).reverse, false⟩] := if_neg hc
      rw [hlines]
      show _ = [(c :: cur).reverse.dropLast]
      rw [reverse_cons, dropLast_concat]
  | case3 cur d cs ih =>
    rw [ih (Or.inr rfl) (fun h => by cases h) (fun _ h => by cases h)]
    show _ = (endedLine cur).cached :: _
    rw [cached_endedLine (hnotcr rfl)]
  | case4 cur c d cs hc hcrlf ih =>
    obtain ⟨rfl, rfl⟩ := hcrlf
    rw [ih (Or.inr rfl) (fun h => by cases h) (fun _ h => by cases h)]
    rfl
  | case5 cur c d cs hc hcrlf ih =>
    have hnext : (c :: cur).head? = some 13 → (d :: cs).head? ≠ some 10 := by
      intro h13 h10
      exact hcrlf ⟨Option.some.inj h13, Option.some.inj h10⟩
    rw [ih (Or.inl (cons_ne_nil _ _)) hnext (fun h h' => hnext h' h)]
    have hlines : linesBehind cur (c :: d :: cs) = linesBehind (c :: cur) (d :: cs) := if_neg hc
    rw [hlines]

/-- **The cache** of a source that is not too long. -/
theorem lineCache_eq {src : List UInt8} (h : src.length < 2 ^ 32) :
    lineCache src = .ok ((sourceLines src).map SourceLine.cached) := by
  unfold lineCache
  rw [if_neg (by omega), splitLoop_eq (Or.inr rfl) (fun h => by cases h)]
  rfl

/-- Lines that nothing ends are not empty. -/
theorem text_ne_nil_of_mem {t : List UInt8} {l : SourceLine} (h : l ∈ linesBehind cur t)
    (hl : l.terminated = false) : l.text ≠ [] := by
  induction t generalizing cur with
  | nil =>
    rw [linesBehind] at h
    split at h
    · exact absurd h not_mem_nil
    · next hne =>
      obtain rfl := mem_singleton.mp h
      exact fun hnil => hne (reverse_eq_nil_iff.mp hnil)
  | cons c cs ih =>
    rw [linesBehind] at h
    split at h
    · rcases mem_cons.mp h with rfl | h
      · unfold endedLine at hl
        split at hl
        · cases hl
        · cases hl
      · exact ih h
    · exact ih h

/-- The string that is found for a line is the line exactly if something ends it and it has no
    NUL. -/
theorem cstr_cached_eq_iff {src : List UInt8} {l : SourceLine} (h : l ∈ sourceLines src) :
    cstr l.cached = l.text ↔ l.terminated = true ∧ 0 ∉ l.text := by
  constructor
  · intro heq
    have hnul : 0 ∉ l.text := heq ▸ not_mem_cstr _
    refine ⟨?_, hnul⟩
    by_contra hterm
    rw [Bool.not_eq_true] at hterm
    have hne := text_ne_nil_of_mem h hterm
    have hlen := congrArg List.length heq
    have hle : (cstr l.cached).length ≤ l.cached.length := (List.takeWhile_prefix _).length_le
    have hcached : l.cached = l.text.dropLast := by
      rw [SourceLine.cached, hterm, if_neg Bool.false_ne_true]
    have hpos := length_pos_iff.mpr hne
    rw [hcached] at hlen
    rw [hcached, length_dropLast] at hle
    omega
  · rintro ⟨hterm, hnul⟩
    rw [SourceLine.cached, hterm, if_pos rfl, cstr_eq_self hnul]

end Bcc.Btf
