import Bcc.Btf.Ext

namespace Bcc.Btf

open Bytes CText List

/-!
# BTF — what was checked is what is walked

* `Block`, `exists_blocks` — a subsection that was accepted is a list of blocks, each with a name
  and records of one size;
* `relocInfo_blocks` — the walks over it, which check nothing, stay on the blocks.
-/

/-! ### Blocks -/

/-- The records for a section of the program, whose name is at an offset. -/
structure Block where
  nameOff : Nat
  recs : List (List UInt8)

/-- The bytes of a block: a `btf_ext_info_sec` and the records. -/
def encodeBlock (b : Block) : List UInt8 :=
  le 4 b.nameOff ++ (le 4 b.recs.length ++ b.recs.flatten)

def encodeBlocks (bs : List Block) : List UInt8 := bs.flatMap encodeBlock

/-- The numbers fit their fields; there are records, all of one size. -/
structure Block.Fits (recSize : Nat) (b : Block) : Prop where
  nameOff_lt : b.nameOff < 2 ^ 32
  recs_lt : b.recs.length < 2 ^ 32
  recs_ne : b.recs.length ≠ 0
  size : ∀ r ∈ b.recs, r.length = recSize

variable {recSize : Nat}

theorem length_flatten_of_size {rs : List (List UInt8)} (h : ∀ r ∈ rs, r.length = recSize) :
    rs.flatten.length = rs.length * recSize := by
  rw [length_flatten, map_eq_replicate_iff.mpr h, sum_replicate_nat]

variable {b : Block}

theorem Block.Fits.length_encode (h : b.Fits recSize) :
    (encodeBlock b).length = 8 + b.recs.length * recSize := by
  rw [encodeBlock, length_append, length_append, length_le, length_le,
    length_flatten_of_size h.size]
  omega

theorem encodeBlocks_cons (b : Block) (bs : List Block) :
    encodeBlocks (b :: bs) = encodeBlock b ++ encodeBlocks bs := flatMap_cons

variable {bs : List Block}

theorem length_encodeBlock_le (h : b ∈ bs) : (encodeBlock b).length ≤ (encodeBlocks bs).length := by
  obtain ⟨front, back, rfl⟩ := append_of_mem h
  rw [encodeBlocks, flatMap_append, flatMap_cons, length_append, length_append]
  omega

/-- Records of one size, with bytes behind them, are told by their bytes. -/
theorem flatten_injective {rs rs' : List (List UInt8)} {x y : List UInt8}
    (hrs : ∀ r ∈ rs, r.length = recSize) (hrs' : ∀ r ∈ rs', r.length = recSize)
    (hlen : rs.length = rs'.length) (h : rs.flatten ++ x = rs'.flatten ++ y) :
    rs = rs' ∧ x = y := by
  induction rs generalizing rs' with
  | nil =>
    obtain rfl := eq_nil_of_length_eq_zero hlen.symm
    exact ⟨rfl, h⟩
  | cons r rs ih =>
    cases rs' with
    | nil => cases hlen
    | cons r' rs' =>
      obtain ⟨hr, hsize⟩ := forall_mem_cons.mp hrs
      obtain ⟨hr', hsize'⟩ := forall_mem_cons.mp hrs'
      rw [flatten_cons, flatten_cons, append_assoc, append_assoc] at h
      obtain ⟨hfirst, hrest⟩ := append_inj h (hr.trans hr'.symm)
      obtain ⟨hrs, hxy⟩ := ih hsize hsize' (Nat.succ.inj hlen) hrest
      exact ⟨by rw [hfirst, hrs], hxy⟩

theorem encodeBlock_injective {b' : Block} {x y : List UInt8} (hb : b.Fits recSize)
    (hb' : b'.Fits recSize) (h : encodeBlock b ++ x = encodeBlock b' ++ y) : b = b' ∧ x = y := by
  obtain ⟨nameOff, recs⟩ := b
  simp only [encodeBlock, append_assoc] at h
  obtain ⟨hname, hbehind⟩ := append_inj h (by rw [length_le, length_le])
  obtain ⟨hcount, hrecs⟩ := append_inj hbehind (by rw [length_le, length_le])
  obtain rfl := le_injective hb.nameOff_lt hb'.nameOff_lt hname
  obtain ⟨rfl, hxy⟩ :=
    flatten_injective hb.size hb'.size (le_injective hb.recs_lt hb'.recs_lt hcount) hrecs
  exact ⟨rfl, hxy⟩

theorem encodeBlocks_eq_nil (h : (encodeBlocks bs).length = 0) : bs = [] := by
  cases bs with
  | nil => rfl
  | cons b bs =>
    rw [encodeBlocks_cons, encodeBlock, length_append, length_append, length_le] at h
    omega

/-- Blocks are told by their bytes. -/
theorem encodeBlocks_injective {bs' : List Block} (hbs : ∀ b ∈ bs, b.Fits recSize)
    (hbs' : ∀ b ∈ bs', b.Fits recSize) (h : encodeBlocks bs = encodeBlocks bs') : bs = bs' := by
  induction bs generalizing bs' with
  | nil => exact (encodeBlocks_eq_nil (congrArg List.length h.symm)).symm
  | cons b bs ih =>
    cases bs' with
    | nil => exact encodeBlocks_eq_nil (congrArg List.length h)
    | cons b' bs' =>
      obtain ⟨hb, hfits⟩ := forall_mem_cons.mp hbs
      obtain ⟨hb', hfits'⟩ := forall_mem_cons.mp hbs'
      obtain ⟨hfirst, hrest⟩ := encodeBlock_injective hb hb' h
      rw [hfirst, ih hfits hfits' hrest]

/-! ### The checks -/

variable {sinfo : Nat} {data : List UInt8}

/-- The bytes of a block that passed the checks. -/
theorem exists_block {num : Nat} (hnum : readLE data (sinfo + 4) 4 = .ok num) (hne : num ≠ 0)
    (hle : sinfo + (8 + num * recSize) ≤ data.length) :
    ∃ b : Block, b.Fits recSize ∧ b.recs.length = num
      ∧ slice data sinfo (8 + num * recSize) = encodeBlock b := by
  have hlen : (slice data (sinfo + 8) (num * recSize)).length = num * recSize :=
    length_slice (by omega)
  obtain ⟨hflat, hsize⟩ := flatten_records hlen
  have hcount := length_records recSize num (slice data (sinfo + 8) (num * recSize))
  have hnum' : le 4 num = slice data (sinfo + 4) 4 := by
    rw [readLE_eq (by omega)] at hnum
    cases hnum
    exact le_leNat_slice (by omega)
  refine ⟨⟨leNat (slice data sinfo 4),
      records recSize num (slice data (sinfo + 8) (num * recSize))⟩,
    ⟨leNat_slice_lt _ _ _, ?_, ?_, hsize⟩, hcount, ?_⟩
  · show (records _ _ _).length < 2 ^ 32
    rw [hcount]
    exact readLE_lt hnum
  · show (records _ _ _).length ≠ 0
    rwa [hcount]
  · rw [encodeBlock]
    rw [hcount, hflat, hnum', le_leNat_slice (by omega), ← slice_add, ← slice_add]
    congr 1
    omega

/-- **Checked blocks.**  The loop accepts only blocks that fill the subsection. -/
theorem exists_blocks {fuel left : Nat}
    (h : setupLoop data recSize fuel sinfo left = .ok (.ok ())) (hle : sinfo + left ≤ data.length) :
    ∃ bs : List Block, (∀ b ∈ bs, b.Fits recSize) ∧ slice data sinfo left = encodeBlocks bs := by
  induction fuel generalizing sinfo left with
  | zero => cases h
  | succ n ih =>
    obtain ⟨rfl, -⟩ | ⟨-, h⟩ := ite_eq_iff.mp h
    · exact ⟨[], fun b hb => absurd hb not_mem_nil, rfl⟩
    obtain ⟨-, ⟨⟩⟩ | ⟨-, h⟩ := ite_eq_iff.mp h
    obtain ⟨num, hnum, h⟩ := bind_eq_ok_iff.mp h
    obtain ⟨-, ⟨⟩⟩ | ⟨hne, h⟩ := ite_eq_iff.mp h
    obtain ⟨-, ⟨⟩⟩ | ⟨hfit, h⟩ := ite_eq_iff.mp h
    have hin : sinfo + (8 + num * recSize) ≤ data.length := by omega
    obtain ⟨b, hb, -, hslice⟩ := exists_block hnum hne hin
    obtain ⟨bs, hbs, hrest⟩ := ih h (by omega)
    refine ⟨b :: bs, forall_mem_cons.mpr ⟨hb, hbs⟩, ?_⟩
    have hsplit : left = 8 + num * recSize + (left - (8 + num * recSize)) := by omega
    rw [hsplit, slice_add, hslice, hrest, encodeBlocks_cons]

/-- What `btf_ext_setup_info` accepts: nothing, or blocks behind the size of their records. -/
theorem setupInfo_cases {hdrLen off len minRecSize : Nat} {info : ExtInfo}
    (h : setupInfo data hdrLen off len minRecSize = .ok (.ok info)) : (len = 0 ∧ info = ⟨0, 0, 0⟩) ∨
    (4 < len ∧ hdrLen + off + len ≤ data.length ∧ ∃ recSize,
      readLE data (hdrLen + off) 4 = .ok recSize ∧ minRecSize ≤ recSize ∧ recSize % 4 = 0
      ∧ info = ⟨hdrLen + off + 4, recSize, len - 4⟩
      ∧ ∃ bs : List Block, (∀ b ∈ bs, b.Fits recSize)
        ∧ slice data (hdrLen + off + 4) (len - 4) = encodeBlocks bs) := by
  obtain ⟨hlen, ⟨⟩⟩ | ⟨-, h⟩ := ite_eq_iff.mp h
  · exact Or.inl ⟨hlen, rfl⟩
  obtain ⟨-, ⟨⟩⟩ | ⟨-, h⟩ := ite_eq_iff.mp h
  obtain ⟨-, ⟨⟩⟩ | ⟨hin, h⟩ := ite_eq_iff.mp h
  obtain ⟨-, ⟨⟩⟩ | ⟨hfour, h⟩ := ite_eq_iff.mp h
  obtain ⟨recSize, hrec, h⟩ := bind_eq_ok_iff.mp h
  obtain ⟨-, ⟨⟩⟩ | ⟨hsize, h⟩ := ite_eq_iff.mp h
  obtain ⟨-, ⟨⟩⟩ | ⟨hrest, h⟩ := ite_eq_iff.mp h
  obtain ⟨_ | u, hr, ⟨⟩⟩ := bind_eq_ok_iff.mp h
  have hbs := exists_blocks hr (by omega)
  exact Or.inr ⟨by omega, by omega, recSize, hrec, by omega, by omega, rfl, hbs⟩

/-- What `btf_ext__new` accepts: a header and subsections that were accepted. -/
theorem btfExtNew_cases {ext : BtfExt} (h : btfExtNew data = .ok (.ok ext)) :
    ∃ hdrLen funcOff funcLen lineOff lineLen, readLE data 4 4 = .ok hdrLen ∧ 32 ≤ hdrLen
      ∧ readLE data 8 4 = .ok funcOff ∧ readLE data 12 4 = .ok funcLen
      ∧ setupInfo data hdrLen funcOff funcLen 8 = .ok (.ok ext.funcInfo)
      ∧ readLE data 16 4 = .ok lineOff ∧ readLE data 20 4 = .ok lineLen
      ∧ setupInfo data hdrLen lineOff lineLen 16 = .ok (.ok ext.lineInfo) := by
  obtain ⟨_ | u, -, h⟩ := bind_eq_ok_iff.mp h
  · cases h
  obtain ⟨hdrLen, hhdr, h⟩ := bind_eq_ok_iff.mp h
  obtain ⟨-, ⟨⟩⟩ | ⟨-, h⟩ := ite_eq_iff.mp h
  obtain ⟨_ | funcInfo, hfunc, h⟩ := bind_eq_ok_iff.mp h
  · cases h
  obtain ⟨_ | lineInfo, hline, h⟩ := bind_eq_ok_iff.mp h
  · cases h
  obtain ⟨-, ⟨⟩⟩ | ⟨hlen, h⟩ := ite_eq_iff.mp h
  obtain ⟨_ | coreReloInfo, -, ⟨⟩⟩ := bind_eq_ok_iff.mp h
  obtain ⟨funcOff, hfoff, hfunc⟩ := bind_eq_ok_iff.mp hfunc
  obtain ⟨funcLen, hflen, hfunc⟩ := bind_eq_ok_iff.mp hfunc
  obtain ⟨lineOff, hloff, hline⟩ := bind_eq_ok_iff.mp hline
  obtain ⟨lineLen, hllen, hline⟩ := bind_eq_ok_iff.mp hline
  exact ⟨hdrLen, funcOff, funcLen, lineOff, lineLen, hhdr, by omega, hfoff, hflen, hfunc, hloff,
    hllen, hline⟩

/-- The blocks of a subsection that was accepted. -/
theorem exists_blocks_of_setupInfo {hdrLen off len minRecSize : Nat} {info : ExtInfo}
    (h : setupInfo data hdrLen off len minRecSize = .ok (.ok info)) :
    info.info + info.len ≤ data.length ∧ (0 < info.len → minRecSize ≤ info.recSize) ∧
      ∃ bs : List Block, (∀ b ∈ bs, b.Fits info.recSize)
        ∧ slice data info.info info.len = encodeBlocks bs := by
  rcases setupInfo_cases h with ⟨-, rfl⟩ | ⟨hlen, hin, recSize, -, hmin, -, rfl, hbs⟩
  · exact ⟨Nat.zero_le _, fun hpos => absurd hpos (Nat.lt_irrefl 0), [],
      fun b hb => absurd hb not_mem_nil, rfl⟩
  · exact ⟨by dsimp only; omega, fun _ => hmin, hbs⟩

/-! ### The copy -/

/-- A record with its instruction counted from another place. -/
def relocateRecord (insnsCnt : Nat) (r : List UInt8) : List UInt8 :=
  le 4 (leNat (r.take 4) / 8 + insnsCnt) ++ r.drop 4

/-- The records of a block, relocated. -/
def relocated (insnsCnt : Nat) (rs : List (List UInt8)) : List UInt8 :=
  (rs.map (relocateRecord insnsCnt)).flatten

theorem adjustInsnOffs_flatten (hrec : 4 ≤ recSize) (insnsCnt : Nat) {rs : List (List UInt8)}
    (h : ∀ r ∈ rs, r.length = recSize) :
    adjustInsnOffs recSize insnsCnt rs.length rs.flatten = .ok (relocated insnsCnt rs) := by
  induction rs with
  | nil => rfl
  | cons r rs ih =>
    obtain ⟨hr, hrs⟩ := forall_mem_cons.mp h
    have hread : readLE (r ++ rs.flatten) 0 4 = .ok (leNat (r.take 4)) := by
      rw [readLE_eq (by rw [length_append]; omega), slice, drop_zero,
        take_append_of_le_length (by omega)]
    rw [length_cons, flatten_cons, adjustInsnOffs, hread, take_left' hr, drop_left' hr, ih hrs]
    rfl

/-- What stands at the place of a block. -/
theorem at_encodeBlock {rest : List UInt8} (hb : b.Fits recSize)
    (h : At data sinfo (encodeBlock b ++ rest)) :
    readLE data sinfo 4 = .ok b.nameOff ∧ readLE data (sinfo + 4) 4 = .ok b.recs.length
      ∧ At data (sinfo + 8) b.recs.flatten
      ∧ At data (sinfo + 8 + b.recs.length * recSize) rest := by
  obtain ⟨hblock, hrest⟩ := at_append.mp h
  rw [hb.length_encode, ← Nat.add_assoc] at hrest
  rw [encodeBlock, at_append, at_append] at hblock
  obtain ⟨hname, hnum, hrecs⟩ := hblock
  exact ⟨hname.readLE (by decide) hb.nameOff_lt, hnum.readLE (by decide) hb.recs_lt, hrecs, hrest⟩

/-- The records of a block are put behind those there are. -/
theorem appendRecords_block (hrec : 4 ≤ recSize) {existing : List UInt8} {cnt : Nat}
    (hexisting : existing.length = cnt * recSize) (hb : b.Fits recSize)
    (hfit : existing.length + b.recs.length * recSize < 2 ^ 32)
    (hat : At data (sinfo + 8) b.recs.flatten) (insnsCnt : Nat) :
    appendRecords data recSize sinfo b.recs.length insnsCnt existing cnt
      = .ok (existing ++ relocated insnsCnt b.recs, (cnt + b.recs.length) % 2 ^ 32) := by
  have hlen := length_flatten_of_size hb.size
  have hpos : 0 < b.recs.length * recSize :=
    Nat.mul_pos (Nat.pos_of_ne_zero hb.recs_ne) (by omega)
  have hne : b.recs.flatten ≠ [] := by
    rw [← length_pos_iff, hlen]
    exact hpos
  have hle := hat.le_length hne
  have hread : readBytes data (sinfo + 8) (b.recs.length * recSize) = .ok b.recs.flatten := by
    rw [← hlen]
    exact hat.readBytes (by omega)
  unfold appendRecords
  rw [Nat.mod_eq_of_lt (show b.recs.length * recSize < 2 ^ 32 by omega),
    Nat.mod_eq_of_lt (show cnt * recSize < 2 ^ 32 by omega)]
  rw [if_neg (by omega), hread, ok_bind,
    adjustInsnOffs_flatten hrec insnsCnt hb.size, ← hexisting, take_length]
  rfl

/-- **The first block with the name.**  From a place where blocks stand, the loop ends, and takes
    the records of the first block with the name. -/
theorem relocLoop_blocks {nameByOffset : Nat → List UInt8} (hrec : 4 ≤ recSize)
    (hsize : data.length < 2 ^ 32) {secName : List UInt8} {insnsCnt : Nat} {existing : List UInt8}
    {cnt : Nat} (hexisting : existing.length = cnt * recSize)
    (hfit : existing.length + (encodeBlocks bs).length ≤ 2 ^ 32) (hbs : ∀ b ∈ bs, b.Fits recSize)
    {fuel : Nat} (hat : At data sinfo (encodeBlocks bs)) (hfuel : (encodeBlocks bs).length < fuel) :
    relocLoop nameByOffset data recSize secName insnsCnt existing cnt fuel sinfo
        (encodeBlocks bs).length
      = .ok (match bs.find? (fun b => nameByOffset b.nameOff = secName) with
        | none => .error .enoent
        | some b =>
          .ok (existing ++ relocated insnsCnt b.recs, (cnt + b.recs.length) % 2 ^ 32)) := by
  induction bs generalizing sinfo fuel with
  | nil =>
    obtain ⟨n, rfl⟩ := Nat.exists_eq_add_of_lt hfuel
    rfl
  | cons b bs ih =>
    obtain ⟨hb, hbs⟩ := forall_mem_cons.mp hbs
    rw [encodeBlocks_cons] at hat hfuel hfit ⊢
    have hlen := hb.length_encode
    rw [length_append] at hfuel hfit ⊢
    have hin := hat.le_length (by rw [← length_pos_iff, length_append]; omega)
    rw [length_append] at hin
    obtain ⟨hname, hnum, hrecs, hrest⟩ := at_encodeBlock hb hat
    obtain ⟨n, rfl⟩ := Nat.exists_eq_add_of_lt (Nat.zero_lt_of_lt hfuel)
    rw [relocLoop, if_neg (by omega), hnum, ok_bind, hname, ok_bind, find?_cons]
    by_cases heq : nameByOffset b.nameOff = secName
    · rw [if_neg (not_not.mpr heq), appendRecords_block hrec hexisting hb (by omega) hrecs,
        decide_eq_true heq]
      rfl
    · have hmod : b.recs.length * recSize % 2 ^ 32 = b.recs.length * recSize :=
        Nat.mod_eq_of_lt (by omega)
      have hremain : ((encodeBlock b).length + (encodeBlocks bs).length + 2 ^ 64
          - (8 + b.recs.length * recSize) % 2 ^ 32) % 2 ^ 64 = (encodeBlocks bs).length := by
        omega
      rw [if_pos heq, decide_eq_false heq]
      dsimp only
      rw [hmod, hremain, ih (by omega) hbs hrest (by omega)]

/-- **Copies of checked records.**  For a section that was accepted and either of its subsections,
    the walk ends without a read outside; the lengths of records do not overflow; and what is
    returned are the records of the first block with the name, behind those there were, with only
    their instructions changed. -/
theorem relocInfo_blocks (nameByOffset : Nat → List UInt8) (data : List UInt8) (ext : BtfExt)
    (h : btfExtNew data = .ok (.ok ext)) (info : ExtInfo)
    (hinfo : info = ext.funcInfo ∨ info = ext.lineInfo) (secName : List UInt8) (insnsCnt : Nat)
    (existing : List UInt8) (cnt : Nat) (hexisting : existing.length = cnt * info.recSize)
    (hsize : data.length < 2 ^ 32) (hfit : existing.length + info.len ≤ 2 ^ 32) :
    ∃ bs : List Block, slice data info.info info.len = encodeBlocks bs
      ∧ (∀ b ∈ bs, b.Fits info.recSize ∧ b.recs.length * info.recSize < 2 ^ 32)
      ∧ relocInfo nameByOffset data info secName insnsCnt existing cnt
        = .ok (match bs.find? (fun b => nameByOffset b.nameOff = secName) with
          | none => .error .enoent
          | some b =>
            .ok (existing ++ relocated insnsCnt b.recs, (cnt + b.recs.length) % 2 ^ 32)) := by
  obtain ⟨hdrLen, funcOff, funcLen, lineOff, lineLen, -, -, -, -, hfunc, -, -, hline⟩ :=
    btfExtNew_cases h
  obtain ⟨hin, hmin, bs, hbs, hslice⟩ : info.info + info.len ≤ data.length
      ∧ (0 < info.len → 8 ≤ info.recSize) ∧ ∃ bs : List Block, (∀ b ∈ bs, b.Fits info.recSize)
        ∧ slice data info.info info.len = encodeBlocks bs := by
    rcases hinfo with rfl | rfl
    · exact exists_blocks_of_setupInfo hfunc
    · obtain ⟨hin, hmin, hbs⟩ := exists_blocks_of_setupInfo hline
      exact ⟨hin, fun hpos => Nat.le_trans (by decide) (hmin hpos), hbs⟩
  have hlen : (encodeBlocks bs).length = info.len := by
    rw [← hslice]
    exact length_slice hin
  refine ⟨bs, hslice, fun b hb => ⟨hbs b hb, ?_⟩, ?_⟩
  · have hle := length_encodeBlock_le hb
    have hblock := (hbs b hb).length_encode
    omega
  · cases bs with
    | nil =>
      have hzero : info.len = 0 := hlen.symm
      unfold relocInfo
      rw [hzero]
      rfl
    | cons b bs =>
      have hle := length_encodeBlock_le (mem_cons_self (a := b) (l := bs))
      have hblock := (hbs b mem_cons_self).length_encode
      have hat : At data info.info (encodeBlocks (b :: bs)) := hslice ▸ at_slice data _ _
      unfold relocInfo
      rw [← hlen]
      exact relocLoop_blocks (Nat.le_trans (by decide) (hmin (by omega))) hsize hexisting
        (hlen ▸ hfit) hbs hat (Nat.lt_succ_self _)

/-- A section with one line record: instruction 2, file name 1, no line text, line 3. -/
def smallExt : List UInt8 :=
  [0x9f, 0xeb, 1, 0] ++ (le 4 32 ++ (le 4 0 ++ (le 4 0 ++ (le 4 0 ++ (le 4 28 ++ (le 4 0
    ++ (le 4 0 ++ (le 4 16 ++ (le 4 5 ++ (le 4 1 ++ (le 4 16 ++ (le 4 1 ++ (le 4 0
      ++ le 4 3072)))))))))))))

/-- Line records for two sections of the program. -/
def twoBlocks : List Block :=
  [⟨5, [le 4 16 ++ (le 4 1 ++ (le 4 0 ++ le 4 3072))]⟩,
    ⟨9, [le 4 24 ++ (le 4 1 ++ (le 4 0 ++ le 4 2048))]⟩]

theorem fits_twoBlocks : ∀ b ∈ twoBlocks, b.Fits 16 :=
  forall_mem_cons.mpr ⟨⟨by decide, by decide, by decide, by decide⟩,
    forall_mem_cons.mpr ⟨⟨by decide, by decide, by decide, by decide⟩, forall_mem_nil _⟩⟩

/-- A section with them. -/
def twoBlocksExt : List UInt8 :=
  [0x9f, 0xeb, 1, 0] ++ (le 4 32 ++ (le 4 0 ++ (le 4 0 ++ (le 4 0 ++ (le 4 52 ++ (le 4 0
    ++ (le 4 0 ++ (le 4 16 ++ encodeBlocks twoBlocks))))))))

theorem btfExtNew_twoBlocksExt :
    btfExtNew twoBlocksExt = .ok (.ok ⟨twoBlocksExt, ⟨0, 0, 0⟩, ⟨36, 16, 48⟩, ⟨0, 0, 0⟩⟩) := by
  decide

theorem slice_twoBlocksExt : slice twoBlocksExt 36 48 = encodeBlocks twoBlocks := by decide

/-- The records of the second section, behind one that there is. -/
theorem relocInfo_blocks_two :
    relocInfo (fun off => if off = 5 then [0x61] else [0x62]) twoBlocksExt ⟨36, 16, 48⟩ [0x62] 7
        (List.replicate 16 0) 1
      = .ok (.ok (List.replicate 16 0
        ++ relocated 7 [le 4 24 ++ (le 4 1 ++ (le 4 0 ++ le 4 2048))], 2)) := by
  obtain ⟨bs, hslice, hfits, hreloc⟩ :=
    relocInfo_blocks (fun off => if off = 5 then [0x61] else [0x62]) twoBlocksExt _
      btfExtNew_twoBlocksExt ⟨36, 16, 48⟩ (Or.inr rfl) [0x62] 7 (List.replicate 16 0) 1 rfl
      (by decide) (by decide)
  obtain rfl : bs = twoBlocks := encodeBlocks_injective (fun b hb => (hfits b hb).1) fits_twoBlocks
    (hslice.symm.trans slice_twoBlocksExt)
  exact hreloc

end Bcc.Btf
