import Bcc.Btf.AddedLines

namespace Bcc.Btf

open Bytes CText List

/-!
# BTF — texts of line records

* `adjust_iff` — when the records that stand for lines of sources have texts after `BTF::adjust`.
-/

variable {p : LinePair} {sources : Sources} {text text' : SourceLine → List UInt8}

/-- A record that stands for a line gets the offset of its text, and is otherwise as it was; other
    records stay. -/
structure RecordAdjusted (text : SourceLine → List UInt8) (p : LinePair) (sources : Sources)
    (btf r r' : List UInt8) : Prop where
  stands : ∀ l, Stands p.string sources r l → r' = patch r 8 (le 4 (lineOff r'))
    ∧ p.header.strings + lineOff r' < btf.length
    ∧ cstringAt btf (p.header.strings + lineOff r') = .ok (text l)
  other : (∀ l, ¬ Stands p.string sources r l) → r' = r

/-- Records of a block and what they are to be. -/
def RecordsAdjusted (text : SourceLine → List UInt8) (p : LinePair) (sources : Sources)
    (btf : List UInt8) (b b' : Block) : Prop :=
  b'.nameOff = b.nameOff ∧ List.Forall₂ (RecordAdjusted text p sources btf) b.recs b'.recs

/-- What the sections are to be, with a text for each line: records have their texts, strings stay
    where they were, types are only sanitized, and the section and its strings are longer by as
    many bytes. -/
structure Adjusts (text : SourceLine → List UInt8) (p : LinePair) (sources : Sources)
    (a : Adjusted) : Prop where
  lines : ∃ bs : List Block, (∀ b ∈ bs, b.Fits p.recSize) ∧ a.ext = p.extWith bs
    ∧ List.Forall₂ (RecordsAdjusted text p sources a.btf) p.blocks bs
  strings : ∀ off < p.header.strLen,
    cstringAt a.btf (p.header.strings + off) = .ok (p.string off)
  types : slice a.btf p.header.types p.header.typeLen = encodeTypes (fixTypes p.types)
  grown : ∃ n, a.btf.length = p.btf.length + n ∧ a.btf.take p.btf.length = p.front n
    ∧ readHeader a.btf = .ok { p.header with strLen := p.header.strLen + n }

/-! ### Sections that are extended -/

variable {r : List UInt8}

theorem lineOff_patch (hr : 16 ≤ r.length) {v : Nat} (hv : v < 2 ^ 32) :
    lineOff (patch r 8 (le 4 v)) = v := by
  have hslice : slice (patch r 8 (le 4 v)) 8 4 = le 4 v := by
    have hself : slice (patch r 8 (le 4 v)) 8 (le 4 v).length = le 4 v :=
      slice_patch_self (by omega)
    rwa [length_le] at hself
  rw [lineOff, hslice, leNat_le]
  exact Nat.mod_eq_of_lt hv

/-- The strings are not changed by what is written before them. -/
theorem LinePair.drop_front (p : LinePair) (n : Nat) {k : Nat} (h : p.header.strings ≤ k) :
    (p.front n).drop k = p.btf.drop k := by
  have hlen := p.length_fixed
  have hhdr := (readHeader_strLen_lt p.header_eq).1
  have hge := p.header_ge
  have hstr : p.header.hdrLen ≤ p.header.strings := Nat.le_add_right _ _
  rw [LinePair.front, drop_patch (by rw [length_le]; omega) (by rw [length_le]; omega),
    p.drop_fixed h]

theorem LinePair.slice_front_types (p : LinePair) (n : Nat) :
    slice (p.front n) p.header.types p.header.typeLen = encodeTypes (fixTypes p.types) := by
  obtain ⟨hin, hlenTypes⟩ := p.types_inside
  have hlen := p.length_fixed
  have hlast := p.strings_last
  have hhdr := (readHeader_strLen_lt p.header_eq).1
  have hge := p.header_ge
  have htypes : p.header.hdrLen ≤ p.header.types := Nat.le_add_right _ _
  rw [LinePair.front, slice_patch_behind (by rw [length_le]; omega) (by rw [length_le]; omega),
    ← hlenTypes]
  exact slice_patch_self (by omega)

theorem LinePair.readHeader_front (p : LinePair) {n : Nat} (hn : p.header.strLen + n < 2 ^ 32)
    (x : List UInt8) :
    readHeader (p.front n ++ x) = .ok { p.header with strLen := p.header.strLen + n } := by
  have hlen := p.length_fixed
  have hhdr := (readHeader_strLen_lt p.header_eq).1
  have hin : 20 + (le 4 (p.header.strLen + n)).length ≤ p.fixed.length := by
    rw [length_le]
    omega
  have hbefore : ∀ off v, off + 4 ≤ 20 → readLE p.fixed off 4 = .ok v →
      readLE (p.front n ++ x) off 4 = .ok v := by
    intro off v hoff hread
    apply readLE_append_of_ok
    rw [LinePair.front, readLE_patch_before hin hoff]
    exact hread
  have hself : readLE (p.front n) 20 4 = .ok (p.header.strLen + n) := by
    have hat : At (p.front n) 20 (le 4 (p.header.strLen + n)) := by
      have hslice : slice (p.front n) 20 (le 4 (p.header.strLen + n)).length
          = le 4 (p.header.strLen + n) := slice_patch_self (by omega)
      rw [← hslice]
      exact at_slice _ _ _
    exact hat.readLE (by decide) hn
  obtain ⟨h4, h8, h12, h16, -⟩ := readHeader_eq_ok_iff.mp p.readHeader_fixed
  exact readHeader_eq_ok_iff.mpr ⟨hbefore 4 _ (by decide) h4, hbefore 8 _ (by decide) h8,
    hbefore 12 _ (by decide) h12, hbefore 16 _ (by decide) h16, readLE_append_of_ok hself⟩

variable {btf : List UInt8}

/-- A section that is extended has its front, and something behind it. -/
theorem Extended.eq_append {t : StringTable} (h : Extended p t btf) :
    btf = p.front t.size ++ btf.drop p.btf.length := by
  rw [← h.front, take_append_drop]

/-- Strings stay where they were. -/
theorem Extended.cstringAt_string {t : StringTable} (h : Extended p t btf) {off : Nat}
    (hoff : off < p.header.strLen) :
    cstringAt btf (p.header.strings + off) = .ok (p.string off) := by
  have hlast := p.strings_last
  have hlen := p.length_front t.size
  have hend : (p.front t.size).getLast? = some 0 := by
    have hdrop : ((p.front t.size).drop p.header.strings).getLast? = some 0 := by
      rw [p.drop_front _ (Nat.le_refl _), getLast?_drop, if_neg (by omega)]
      exact p.strings_end
    rwa [getLast?_drop, if_neg (by omega)] at hdrop
  rw [h.eq_append, cstringAt_append hend _ (by omega), ← p.cstringAt_string hoff]
  unfold cstringAt
  rw [p.drop_front _ (Nat.le_add_right _ _)]

/-- The text of a record is what the cache has of the line. -/
theorem recordAdjusted_of_done {t : StringTable} {r' : List UInt8} (h : Extended p t btf)
    (ht : t.Valid) (horig : t.origTblLen = p.header.strLen) (hr : 16 ≤ r.length)
    (hdone : RecordDone p.header.strLen t (requests p.string sources.caches r) r r') :
    RecordAdjusted (fun l => cstr l.cached) p sources btf r r' := by
  have hlast := p.strings_last
  refine ⟨fun l hl => ?_, fun hno => hdone.unasked (requests_of_not_stands hno)⟩
  obtain ⟨off, hmem, rfl⟩ := hdone.asked _ (requests_of_stands hl)
  have hlt := ht.laid.mem_lt hmem
  have hsum := ht.sum_lt (by rw [horig]; exact (readHeader_strLen_lt p.header_eq).2.2)
  have hlen := h.length
  rw [lineOff_patch hr (by omega)]
  exact ⟨rfl, by omega, h.found _ hmem⟩

/-! ### The whole of it -/

/-- The size of `.BTF` with the lines behind it is a number of 32 bits. -/
def LinePair.HasRoom (p : LinePair) (sources : Sources) : Prop :=
  ∀ t, addAll (linesOf p.string sources.caches p.blocks) (StringTable.new p.header.strLen)
      = some t →
    0 < t.size → p.btf.length + t.size < 2 ^ 32

/-- The walk over the pair, if the table of strings does not get full. -/
theorem LinePair.walk_done (p : LinePair) (hover : (p.walk sources).overflow = false) :
    Grows p.header.strLen (StringTable.new p.header.strLen) (p.walk sources).table
      ∧ List.Forall₂ (fun b b' => b'.nameOff = b.nameOff
          ∧ RecordsDone p.string sources.caches p.header.strLen (p.walk sources).table b.recs
            b'.recs)
        p.blocks (p.walk sources).blocks :=
  walkBlocks_done (readHeader_strLen_lt p.header_eq).2.2
    ⟨StringTable.valid_new _, rfl, fun _ he => he⟩ hover

theorem LinePair.walk_fits (p : LinePair) (sources : Sources) :
    ∀ b ∈ (p.walk sources).blocks, b.Fits p.recSize :=
  walkBlocks_fits _ _ _ p.info.size_ge p.info.fits _

theorem LinePair.addAll_lines (p : LinePair) (hover : (p.walk sources).overflow = false) :
    addAll (linesOf p.string sources.caches p.blocks) (StringTable.new p.header.strLen)
      = some (p.walk sources).table := by
  rw [addAll_walkBlocks p.header.strLen]
  exact if_neg (by rw [← LinePair.walk, hover]; exact Bool.false_ne_true)

/-- **What `adjust` does.**  If no source is too long, the table of strings does not get full and
    there is room, the texts are what the cache has of the lines. -/
theorem adjusts_cached (fresh : Nat → UInt8) (p : LinePair)
    (hshort : ∀ f ∈ sources.files, f.2.length < 2 ^ 32)
    (hover : (p.walk sources).overflow = false) (hroom : p.HasRoom sources) :
    ∃ a, adjust fresh p.btf p.ext sources = .ok a
      ∧ Adjusts (fun l => cstr l.cached) p sources a := by
  obtain ⟨hg, hdone⟩ := p.walk_done hover
  obtain ⟨btf, hadjust, hext⟩ :=
    adjust_extended fresh p hshort hg.valid (hroom _ (p.addAll_lines hover))
  have hsum := hg.valid.sum_lt (by rw [hg.orig_eq]; exact (readHeader_strLen_lt p.header_eq).2.2)
  refine ⟨_, hadjust, ⟨(p.walk sources).blocks, p.walk_fits sources, rfl, ?_⟩,
    fun off hoff => hext.cstringAt_string hoff, ?_,
    ⟨(p.walk sources).table.size, hext.length, hext.front, ?_⟩⟩
  · have hblocks := (forall₂_and_left _ _).mpr ⟨p.info.fits, hdone⟩
    apply hblocks.imp
    rintro b b' ⟨hb, hname, hrecs⟩
    have hsized := (forall₂_and_left _ _).mpr ⟨hb.size, hrecs⟩
    refine ⟨hname, hsized.imp ?_⟩
    rintro r r' ⟨hr, hrdone⟩
    exact recordAdjusted_of_done hext hg.valid hg.orig_eq (by rw [hr]; exact p.info.size_ge) hrdone
  · have hin := p.types_inside
    have hlast := p.strings_last
    have hlen := p.length_front (p.walk sources).table.size
    rw [hext.eq_append, slice_append_left (by omega), p.slice_front_types]
  · rw [hext.eq_append]
    rw [hg.orig_eq] at hsum
    exact p.readHeader_front hsum _

/-! ### Texts of lines -/

/-- The sections tell the texts. -/
theorem Adjusts.text_eq {a : Adjusted} (h : Adjusts text p sources a)
    (h' : Adjusts text' p sources a) {b : Block} (hb : b ∈ p.blocks) (hr : r ∈ b.recs)
    {l : SourceLine} (hl : Stands p.string sources r l) : text l = text' l := by
  obtain ⟨bs, hbs, hext, hlines⟩ := h.lines
  obtain ⟨bs', hbs', hext', hlines'⟩ := h'.lines
  have heq : bs = bs' := by
    have happ := append_cancel_left (hext.symm.trans hext')
    exact encodeBlocks_injective hbs hbs' (append_cancel_right (append_cancel_left happ))
  subst heq
  obtain ⟨b', -, ⟨-, hrecs⟩, -, hrecs'⟩ := exists_of_forall₂ (forall₂_and hlines hlines') hb
  obtain ⟨r', -, hadj, hadj'⟩ := exists_of_forall₂ (forall₂_and hrecs hrecs') hr
  have htext := (hadj.stands l hl).2.2.symm.trans (hadj'.stands l hl).2.2
  exact Except.ok.inj htext

/-- Only the texts of lines that records stand for matter. -/
theorem Adjusts.congr {a : Adjusted} (h : Adjusts text p sources a)
    (heq : ∀ b ∈ p.blocks, ∀ r ∈ b.recs, ∀ l, Stands p.string sources r l → text l = text' l) :
    Adjusts text' p sources a := by
  obtain ⟨bs, hbs, hext, hlines⟩ := h.lines
  refine { h with lines := ⟨bs, hbs, hext, ?_⟩ }
  have hblocks := (forall₂_and_left _ _).mpr ⟨heq, hlines⟩
  apply hblocks.imp
  rintro b b' ⟨heq, hname, hrecs⟩
  have hboth := (forall₂_and_left _ _).mpr ⟨heq, hrecs⟩
  refine ⟨hname, hboth.imp ?_⟩
  rintro r r' ⟨heq, hadj⟩
  refine ⟨fun l hl => ?_, hadj.other⟩
  rw [← heq l hl]
  exact hadj.stands l hl

theorem cstr_cached_of_stands {l : SourceLine} (h : Stands p.string sources r l) :
    cstr l.cached = l.text ↔ l.terminated = true ∧ 0 ∉ l.text := by
  obtain ⟨-, -, f, -, -, hline⟩ := h
  exact cstr_cached_eq_iff (mem_of_getElem? hline)

/-! ### When the texts are the lines -/

theorem length_lt_of_adjust {fresh : Nat → UInt8} {ext : List UInt8} {a : Adjusted}
    (h : adjust fresh btf ext sources = .ok a) : ∀ f ∈ sources.files, f.2.length < 2 ^ 32 := by
  obtain ⟨w, hw, -⟩ := bind_eq_ok_iff.mp h
  obtain ⟨caches, hcaches, -⟩ := bind_eq_ok_iff.mp hw
  exact length_lt_of_lineCaches hcaches

/-- Without room the copy of the section is longer than the memory for it. -/
theorem hasRoom_of_adjust {fresh : Nat → UInt8} {a : Adjusted}
    (hover : (p.walk sources).overflow = false) (h : adjust fresh p.btf p.ext sources = .ok a) :
    p.HasRoom sources := by
  intro t ht hpos
  rw [p.addAll_lines hover] at ht
  cases ht
  obtain ⟨hg, -⟩ := p.walk_done hover
  have hsum := hg.valid.sum_lt (by rw [hg.orig_eq]; exact (readHeader_strLen_lt p.header_eq).2.2)
  have hlen := p.length_fixed
  unfold adjust at h
  rw [adjustLines_eq p (length_lt_of_adjust h), ok_bind] at h
  rw [if_pos hpos] at h
  obtain ⟨btf, hnew, -⟩ := bind_eq_ok_iff.mp h
  unfold newSection at hnew
  dsimp only at hnew
  split at hnew
  · cases hnew
  · next hfit => omega

/-- **Lines in `.BTF`.**  Unless the table of strings gets full, the sections are what they are to
    be, with every line as its text, exactly if no source has 2 ^ 32 characters, there is room for
    the lines, and every line that a record stands for is ended by a newline and has no NUL. -/
theorem adjust_iff (fresh : Nat → UInt8) (p : LinePair) (sources : Sources)
    (hover : ∀ w, adjustLines p.btf p.ext sources = .ok w → w.overflow = false) :
    (∃ a, adjust fresh p.btf p.ext sources = .ok a ∧ Adjusts SourceLine.text p sources a)
      ↔ (∀ f ∈ sources.files, f.2.length < 2 ^ 32) ∧ p.HasRoom sources
        ∧ ∀ b ∈ p.blocks, ∀ r ∈ b.recs, ∀ l, Stands p.string sources r l →
          l.terminated = true ∧ 0 ∉ l.text := by
  constructor
  · rintro ⟨a, hadjust, hlines⟩
    have hshort := length_lt_of_adjust hadjust
    have hfull := hover _ (adjustLines_eq p hshort)
    have hroom := hasRoom_of_adjust hfull hadjust
    refine ⟨hshort, hroom, fun b hb r hr l hl => (cstr_cached_of_stands hl).mp ?_⟩
    obtain ⟨a', hadjust', hcached⟩ := adjusts_cached fresh p hshort hfull hroom
    obtain rfl : a' = a := Except.ok.inj (hadjust'.symm.trans hadjust)
    exact hcached.text_eq hlines hb hr hl
  · rintro ⟨hshort, hroom, hended⟩
    have hfull := hover _ (adjustLines_eq p hshort)
    obtain ⟨a, hadjust, hcached⟩ := adjusts_cached fresh p hshort hfull hroom
    refine ⟨a, hadjust, hcached.congr ?_⟩
    intro b hb r hr l hl
    exact (cstr_cached_of_stands hl).mpr (hended b hb r hr l hl)

/-- A section without types, with the strings `f.c` and `s`. -/
def smallBtf : List UInt8 :=
  [0x9f, 0xeb, 1, 0] ++ (le 4 24 ++ (le 4 0 ++ (le 4 0 ++ (le 4 0 ++ (le 4 7
    ++ [0, 102, 46, 99, 0, 115, 0])))))

/-- The record of the third line of `f.c`. -/
def smallRecord : List UInt8 := le 4 16 ++ (le 4 1 ++ (le 4 0 ++ le 4 3072))

/-- Sections with one line record. -/
def smallPair : LinePair where
  btf := smallBtf
  ext := smallExt
  header := ⟨24, 0, 0, 0, 7⟩
  types := []
  start := 32
  len := 28
  recSize := 16
  blocks := [⟨5, [smallRecord]⟩]
  header_eq := by decide
  header_ge := by decide
  types_eq := by decide
  types_before := by decide
  strings_last := by decide
  strings_ne := by decide
  strings_end := by decide
  info :=
    { place := by decide
      len_lt := by decide
      inside := by decide
      size_ge := by decide
      size_lt := by decide
      words := by decide
      fits := fun b hb => by
        obtain rfl := mem_singleton.mp hb
        exact ⟨by decide, by decide, by decide, by decide⟩
      bytes := by decide }
  names := by
    intro b hb r hr
    obtain rfl := mem_singleton.mp hb
    obtain rfl := mem_singleton.mp hr
    decide

/-- A source of the name `f.c`. -/
def smallSources (src : List UInt8) : Sources where
  files := [(⟨[102, 46, 99], by decide⟩, src)]
  nodup := nodup_singleton _

/-- The third line of a source whose lines are all ended. -/
theorem adjust_iff_small :
    ∃ a, adjust (fun _ => 0) smallBtf smallExt (smallSources [10, 10, 97, 98, 10]) = .ok a
      ∧ Adjusts SourceLine.text smallPair (smallSources [10, 10, 97, 98, 10]) a := by
  have hshort : ∀ f ∈ (smallSources [10, 10, 97, 98, 10]).files, f.2.length < 2 ^ 32 := by decide
  have hfull : (smallPair.walk (smallSources [10, 10, 97, 98, 10])).overflow = false := by decide
  refine (adjust_iff (fun _ => 0) smallPair (smallSources [10, 10, 97, 98, 10]) ?_).mpr
    ⟨hshort, ?_, ?_⟩
  · intro w hw
    cases hw
    exact hfull
  · intro t ht hpos
    cases ht
    decide
  · rintro b hb r hr l ⟨-, -, f, hf, -, hline⟩
    obtain rfl := mem_singleton.mp hf
    have hall : ∀ l ∈ sourceLines [10, 10, 97, 98, 10], l.terminated = true ∧ 0 ∉ l.text := by
      decide
    exact hall l (mem_of_getElem? hline)

/-- Nothing ends the third line of the source, `ab`: the text of the record is `a`. -/
theorem last_line_cut :
    adjust (fun _ => 0) smallBtf smallExt (smallSources [10, 10, 97, 98])
        = .ok ⟨patch smallBtf 20 (le 4 9) ++ [97, 0], patch smallExt 52 (le 4 7)⟩
      ∧ (smallPair.walk (smallSources [10, 10, 97, 98])).overflow = false
      ∧ Stands smallPair.string (smallSources [10, 10, 97, 98]) smallRecord ⟨[97, 98], false⟩
      ∧ cstringAt (patch smallBtf 20 (le 4 9) ++ [97, 0]) (24 + 7) = .ok [97]
      ∧ ¬ ∃ a, adjust (fun _ => 0) smallBtf smallExt (smallSources [10, 10, 97, 98]) = .ok a
        ∧ Adjusts SourceLine.text smallPair (smallSources [10, 10, 97, 98]) a := by
  have hshort : ∀ f ∈ (smallSources [10, 10, 97, 98]).files, f.2.length < 2 ^ 32 := by decide
  have hfull : (smallPair.walk (smallSources [10, 10, 97, 98])).overflow = false := by decide
  have hstands : Stands smallPair.string (smallSources [10, 10, 97, 98]) smallRecord
      ⟨[97, 98], false⟩ :=
    ⟨by decide, by decide, _, mem_singleton_self _, by decide, by decide⟩
  have hrun : adjust (fun _ => 0) smallBtf smallExt (smallSources [10, 10, 97, 98])
      = .ok ⟨patch smallBtf 20 (le 4 9) ++ [97, 0], patch smallExt 52 (le 4 7)⟩ := by
    decide
  refine ⟨hrun, hfull, hstands, by decide, ?_⟩
  rintro ⟨a, hadjust, hlines⟩
  obtain ⟨a', hadjust', hcached⟩ := adjusts_cached (fun _ => 0) smallPair hshort hfull
    (hasRoom_of_adjust hfull hrun)
  obtain rfl : a' = a := Except.ok.inj (hadjust'.symm.trans hadjust)
  have htext := hcached.text_eq hlines (mem_singleton_self _) (mem_singleton_self _)
    hstands
  cases htext

end Bcc.Btf
