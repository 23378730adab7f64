import Bcc.Btf.Adjust
import Bcc.Btf.Fixup

namespace Bcc.Btf

open Bytes CText List

/-!
# BTF — the lines that were added

Every record that stands for a line of a source gets a text in the strings of `.BTF`, the line as it
was cached, and nothing else changes but the types that are sanitized.

* `LinePair` — a pair of sections that belong together;
* `adjustLines_eq`, `adjust_extended` — what `BTF::adjust` makes of it.
-/

/-! ### Pairs of sections -/

/-- A section `.BTF`, whose strings are last, and a section `.BTF.ext` with line info. -/
structure LinePair where
  btf : List UInt8
  ext : List UInt8
  header : BtfHeader
  types : List TypeRec
  start : Nat
  len : Nat
  recSize : Nat
  blocks : List Block
  header_eq : readHeader btf = .ok header
  header_ge : 24 ≤ header.hdrLen
  types_eq : slice btf header.types header.typeLen = encodeTypes types
  types_before : header.typeOff + header.typeLen ≤ header.strOff
  strings_last : header.strings + header.strLen = btf.length
  strings_ne : header.strLen ≠ 0
  strings_end : btf.getLast? = some 0
  info : LineInfo ext start len recSize blocks
  names : ∀ b ∈ blocks, ∀ r ∈ b.recs, fileNameOff r < header.strLen

/-- The string at an offset. -/
def LinePair.string (p : LinePair) (off : Nat) : List UInt8 :=
  cstr (p.btf.drop (p.header.strings + off))

/-- The section `.BTF` with its types sanitized. -/
def LinePair.fixed (p : LinePair) : List UInt8 :=
  patch p.btf p.header.types (encodeTypes (fixTypes p.types))

/-- The section `.BTF.ext` with other blocks of line records. -/
def LinePair.extWith (p : LinePair) (bs : List Block) : List UInt8 :=
  p.ext.take p.start ++ (le 4 p.recSize ++ (encodeBlocks bs ++ p.ext.drop (p.start + p.len)))

/-- What the walk does to the blocks. -/
def LinePair.walk (p : LinePair) (sources : Sources) : BlocksEnd :=
  walkBlocks p.string p.header.strLen sources.caches p.blocks (StringTable.new p.header.strLen)

variable {p : LinePair} {sources : Sources}

theorem readHeader_strLen_lt {btf : List UInt8} {h : BtfHeader} (hread : readHeader btf = .ok h) :
    24 ≤ btf.length ∧ readLE btf 20 4 = .ok h.strLen ∧ h.strLen < 2 ^ 32 := by
  have hstr := (readHeader_eq_ok_iff.mp hread).2.2.2.2
  refine ⟨?_, hstr, readLE_lt hstr⟩
  unfold readLE at hstr
  split at hstr
  · next hle => exact hle
  · cases hstr

/-- The header is before everything that is written behind it. -/
theorem readHeader_patch {btf x : List UInt8} {off : Nat} (h : off + x.length ≤ btf.length)
    (hoff : 24 ≤ off) : readHeader (patch btf off x) = readHeader btf := by
  unfold readHeader
  rw [readLE_patch_before h (by omega), readLE_patch_before h (by omega),
    readLE_patch_before h (by omega), readLE_patch_before h (by omega),
    readLE_patch_before h (by omega)]

/-- The types are where they were. -/
theorem LinePair.types_inside (p : LinePair) :
    p.header.types + (encodeTypes (fixTypes p.types)).length ≤ p.header.strings
      ∧ (encodeTypes (fixTypes p.types)).length = p.header.typeLen := by
  have hbefore := p.types_before
  have hlast := p.strings_last
  have hlen : (encodeTypes (fixTypes p.types)).length = p.header.typeLen := by
    rw [length_encodeTypes_fixTypes, ← p.types_eq]
    apply length_slice
    unfold BtfHeader.types
    unfold BtfHeader.strings at hlast
    omega
  unfold BtfHeader.types BtfHeader.strings
  omega

theorem LinePair.length_fixed (p : LinePair) : p.fixed.length = p.btf.length := by
  have hin := p.types_inside.1
  have hlast := p.strings_last
  exact length_patch (by omega)

/-- The strings are not changed with the types. -/
theorem LinePair.drop_fixed (p : LinePair) {n : Nat} (h : p.header.strings ≤ n) :
    p.fixed.drop n = p.btf.drop n := by
  have hin := p.types_inside.1
  have hlast := p.strings_last
  exact drop_patch (by omega) (by omega)

theorem LinePair.readHeader_fixed (p : LinePair) : readHeader p.fixed = .ok p.header := by
  have hin := p.types_inside.1
  have hlast := p.strings_last
  have hge := p.header_ge
  rw [LinePair.fixed, readHeader_patch (by omega) (by unfold BtfHeader.types; omega)]
  exact p.header_eq

/-- Offsets below the length of the strings are strings. -/
theorem LinePair.cstringAt_string (p : LinePair) {off : Nat} (h : off < p.header.strLen) :
    cstringAt p.btf (p.header.strings + off) = .ok (p.string off) := by
  have hlast := p.strings_last
  have hdrop : (p.btf.drop (p.header.strings + off)).getLast? = some 0 := by
    rw [getLast?_drop, if_neg (by omega)]
    exact p.strings_end
  unfold cstringAt
  rw [if_pos (mem_of_getLast? hdrop)]
  rfl

/-- **The walk over the line records** of a pair, if no source is too long. -/
theorem adjustLines_eq (p : LinePair) (hshort : ∀ f ∈ sources.files, f.2.length < 2 ^ 32) :
    adjustLines p.btf p.ext sources = .ok ⟨p.fixed, p.extWith (p.walk sources).blocks, p.header,
      (p.walk sources).table, (p.walk sources).overflow⟩ := by
  have hin := p.types_inside
  have hlast := p.strings_last
  have hname : ∀ b ∈ p.blocks, ∀ r ∈ b.recs,
      (fun off => cstringAt p.fixed (p.header.strings + off)) (fileNameOff r)
        = .ok (p.string (fileNameOff r)) := by
    intro b hb r hr
    rw [← p.cstringAt_string (p.names b hb r hr)]
    dsimp only
    unfold cstringAt
    rw [p.drop_fixed (by omega)]
  have hext : p.ext.drop p.start = slice p.ext p.start p.len ++ p.ext.drop (p.start + p.len) := by
    rw [slice, ← drop_drop, take_append_drop]
  unfold adjustLines
  rw [lineCaches_eq hshort, ok_bind, p.header_eq, ok_bind, readBytes_eq (by omega), ok_bind,
    p.types_eq, fixupBtf_encode, ok_bind]
  dsimp only
  have hfixed : patch p.btf p.header.types (encodeTypes (fixTypes p.types)) = p.fixed := rfl
  rw [hfixed, p.readHeader_fixed, ok_bind, p.info.place, ok_bind, hext,
    lineWalk_lineInfo p.info _ p.string hname]
  rfl

/-! ### The new section -/

/-- The section `.BTF` with its types sanitized and `n` bytes more of strings announced. -/
def LinePair.front (p : LinePair) (n : Nat) : List UInt8 :=
  patch p.fixed 20 (le 4 (p.header.strLen + n))

theorem LinePair.length_front (p : LinePair) (n : Nat) : (p.front n).length = p.btf.length := by
  have hlen := p.length_fixed
  have hhdr := (readHeader_strLen_lt p.header_eq).1
  rw [LinePair.front, length_patch (by rw [length_le]; omega), hlen]

theorem LinePair.front_zero (p : LinePair) : p.front 0 = p.fixed := by
  obtain ⟨hhdr, hread, -⟩ := readHeader_strLen_lt p.readHeader_fixed
  apply patch_self
  rw [readLE_eq hhdr] at hread
  rw [length_le, Nat.add_zero, ← Except.ok.inj hread, le_leNat_slice hhdr]

/-- What `.BTF` is to become: `n` bytes more, in which the strings of a table are found. -/
structure Extended (p : LinePair) (t : StringTable) (btf : List UInt8) : Prop where
  length : btf.length = p.btf.length + t.size
  front : btf.take p.btf.length = p.front t.size
  found : ∀ e ∈ t.entries,
    cstringAt btf (p.header.strings + (p.header.strLen + e.1)) = .ok (cstr e.2)

/-- **The new section** is the old one with the strings of the table behind it. -/
theorem newSection_extended (fresh : Nat → UInt8) {t : StringTable} (ht : t.Valid)
    (hroom : p.btf.length + t.size < 2 ^ 32) (ext : List UInt8) (overflow : Bool) :
    ∃ btf, newSection fresh ⟨p.fixed, ext, p.header, t, overflow⟩ = .ok btf ∧ Extended p t btf := by
  have hlast := p.strings_last
  have hlen := p.length_fixed
  have hhdr := (readHeader_strLen_lt p.header_eq).1
  obtain ⟨tail, htail⟩ : ∃ tail, tail = (List.range t.size).map fresh := ⟨_, rfl⟩
  have htailLen : tail.length = t.size := by rw [htail, length_map, length_range]
  -- the header is written in the part that was copied
  have hmem : patch (p.fixed ++ tail) 20 (le 4 (p.header.strLen + t.size))
      = p.front t.size ++ tail := patch_append (by rw [length_le]; omega)
  have hmemLen : (p.front t.size ++ tail).length = p.btf.length + t.size := by
    rw [length_append, p.length_front, htailLen]
  obtain ⟨btf, hwrite, hsame, hfront, hfound⟩ := writeStrings_laid ht.laid
    (show p.header.strings + p.header.strLen + t.size ≤ (p.front t.size ++ tail).length by omega)
  refine ⟨btf, ?_, hsame.trans hmemLen, ?_, ?_⟩
  · have hsize : (p.fixed.length + t.size) % 2 ^ 32 = p.btf.length + t.size := by
      rw [hlen, Nat.mod_eq_of_lt hroom]
    unfold newSection
    dsimp only
    rw [hsize, if_neg (by omega), hlen, Nat.add_sub_cancel_left, ← htail, hmem]
    exact hwrite
  · rw [Nat.add_zero, hlast] at hfront
    rw [hfront]
    exact take_left' (p.length_front _)
  · intro e he
    rw [← Nat.add_assoc]
    exact hfound e he

/-- With nothing in the table the section is only sanitized. -/
theorem extended_fixed {t : StringTable} (ht : t.Valid) (hsize : t.size = 0) :
    Extended p t p.fixed := by
  refine ⟨?_, ?_, fun e he => ?_⟩
  · rw [hsize, p.length_fixed]
    rfl
  · rw [hsize, p.front_zero, ← p.length_fixed, take_length]
  · have hlt := ht.laid.mem_lt he
    omega

/-- **`adjust`**, with the table that the walk leaves. -/
theorem adjust_extended (fresh : Nat → UInt8) (p : LinePair)
    (hshort : ∀ f ∈ sources.files, f.2.length < 2 ^ 32) (ht : (p.walk sources).table.Valid)
    (hroom : 0 < (p.walk sources).table.size →
      p.btf.length + (p.walk sources).table.size < 2 ^ 32) :
    ∃ btf, adjust fresh p.btf p.ext sources = .ok ⟨btf, p.extWith (p.walk sources).blocks⟩
      ∧ Extended p (p.walk sources).table btf := by
  unfold adjust
  rw [adjustLines_eq p hshort, ok_bind]
  by_cases hpos : 0 < (p.walk sources).table.size
  · obtain ⟨btf, hnew, hext⟩ := newSection_extended fresh ht (hroom hpos)
      (p.extWith (p.walk sources).blocks) (p.walk sources).overflow
    refine ⟨btf, ?_, hext⟩
    rw [if_pos hpos, hnew]
    rfl
  · refine ⟨p.fixed, ?_, extended_fixed ht (Nat.eq_zero_of_not_pos hpos)⟩
    rw [if_neg hpos]
    rfl

end Bcc.Btf
