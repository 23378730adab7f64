import Bcc.Btf.LineWalk

namespace Bcc.Btf

open Bytes CText List

/-!
# BTF — the walk before the check

* `lineInfo_cases` — the line info of a section that is accepted is a list of blocks, if there is
  any;
* `lineWalk_iff` — the walk over it, which comes before the check, stays on them and ends with the
  last one, unless the table of strings gets full.
-/

/-! ### The lines that fit -/

section Fit

variable {name : Nat → List UInt8} {caches : Caches}

/-- Lines are put into the table; `none` if one does not fit. -/
def addAll : List (List UInt8) → StringTable → Option StringTable
  | [], t => some t
  | line :: lines, t =>
    match t.addString line with
    | none => none
    | some (_, t) => addAll lines t

theorem addAll_append (xs ys : List (List UInt8)) (t : StringTable) :
    addAll (xs ++ ys) t = (addAll xs t).bind (addAll ys) := by
  induction xs generalizing t with
  | nil => rfl
  | cons x xs ih =>
    rw [cons_append, addAll, addAll]
    cases t.addString x with
    | none => rfl
    | some y => exact ih y.2

variable (orig : Nat)

theorem addAll_record (lines : List (List UInt8)) (r : List UInt8) (t : StringTable) :
    addAll lines t = if (record orig lines r t).overflow then none
      else some (record orig lines r t).table := by
  induction lines generalizing r t with
  | nil => rfl
  | cons line lines ih =>
    rw [addAll, record]
    cases t.addString line with
    | none => rfl
    | some x => exact ih _ x.2

theorem addAll_walkRecs (rs : List (List UInt8)) (t : StringTable) :
    addAll (rs.flatMap (requests name caches)) t
      = if (walkRecs name orig caches rs t).overflow then none
        else some (walkRecs name orig caches rs t).table := by
  induction rs generalizing t with
  | nil => rfl
  | cons r rs ih =>
    rw [flatMap_cons, addAll_append, walkRecs, addAll_record orig _ r]
    cases (record orig (requests name caches r) r t).overflow with
    | true => rfl
    | false => exact ih _

/-- The lines that the records of blocks ask for. -/
def linesOf (name : Nat → List UInt8) (caches : Caches) (bs : List Block) : List (List UInt8) :=
  bs.flatMap (fun b => b.recs.flatMap (requests name caches))

theorem addAll_walkBlocks (bs : List Block) (t : StringTable) :
    addAll (linesOf name caches bs) t
      = if (walkBlocks name orig caches bs t).overflow then none
        else some (walkBlocks name orig caches bs t).table := by
  induction bs generalizing t with
  | nil => rfl
  | cons b bs ih =>
    have hlines : linesOf name caches (b :: bs)
        = b.recs.flatMap (requests name caches) ++ linesOf name caches bs := flatMap_cons
    rw [hlines, addAll_append, walkBlocks, addAll_walkRecs orig]
    cases (walkRecs name orig caches b.recs t).overflow with
    | true => rfl
    | false => exact ih _

/-- No block is left exactly if the lines for all blocks but the last one fit. -/
theorem left_eq_nil_iff (bs : List Block) (t : StringTable) :
    (walkBlocks name orig caches bs t).left = []
      ↔ (addAll (linesOf name caches bs.dropLast) t).isSome = true := by
  induction bs generalizing t with
  | nil => exact ⟨fun _ => rfl, fun _ => rfl⟩
  | cons b bs ih =>
    simp only [walkBlocks]
    cases bs with
    | nil =>
      refine ⟨fun _ => rfl, fun _ => ?_⟩
      split
      · rfl
      · rfl
    | cons b' bs =>
      have hlines : linesOf name caches (b :: b' :: bs).dropLast
          = b.recs.flatMap (requests name caches) ++ linesOf name caches (b' :: bs).dropLast :=
        flatMap_cons
      rw [hlines, addAll_append, addAll_walkRecs orig]
      cases (walkRecs name orig caches b.recs t).overflow with
      | true => exact ⟨fun h => absurd h (cons_ne_nil _ _), fun h => by cases h⟩
      | false => exact ih _

end Fit

/-! ### Line info -/

/-- The line info of a section: where it is, the size of its records, and its blocks. -/
structure LineInfo (data : List UInt8) (start len recSize : Nat) (bs : List Block) : Prop where
  place : lineInfoPlace data = .ok (start, len)
  len_lt : len < 2 ^ 32
  inside : start + len ≤ data.length
  size_ge : 16 ≤ recSize
  size_lt : recSize < 2 ^ 32
  words : recSize % 4 = 0
  fits : ∀ b ∈ bs, b.Fits recSize
  bytes : slice data start len = le 4 recSize ++ encodeBlocks bs

variable {data : List UInt8} {start len recSize : Nat} {bs : List Block}

section

variable (h : LineInfo data start len recSize bs)
include h

theorem LineInfo.length_eq : len = 4 + (encodeBlocks bs).length := by
  have hlen := congrArg List.length h.bytes
  rwa [length_slice h.inside, length_append] at hlen

/-- The line info in two parts: the size of its records, and the blocks. -/
theorem LineInfo.parts :
    slice data start 4 = le 4 recSize ∧ slice data (start + 4) (len - 4) = encodeBlocks bs := by
  have hlen := h.length_eq
  have hin := h.inside
  have hsplit : slice data start len = slice data start 4 ++ slice data (start + 4) (len - 4) := by
    rw [← slice_add]
    congr 1
    omega
  exact append_inj (hsplit.symm.trans h.bytes)
    (by rw [length_slice (by omega), length_le])

theorem LineInfo.recSize_eq : leNat (slice data start 4) = recSize := by
  rw [h.parts.1, leNat_le]
  exact Nat.mod_eq_of_lt h.size_lt

/-- Line info with any blocks that have its bytes. -/
theorem LineInfo.of_slice {bs' : List Block}
    (hfits : ∀ b ∈ bs', b.Fits (leNat (slice data start 4)))
    (hslice : slice data (start + 4) (len - 4) = encodeBlocks bs') :
    LineInfo data start len recSize bs' := by
  have hbytes : slice data start len = le 4 recSize ++ encodeBlocks bs' := by
    rw [h.bytes, ← h.parts.2, hslice]
  rw [h.recSize_eq] at hfits
  exact { h with fits := hfits, bytes := hbytes }

end

/-- **Accepted line info.**  There is none, or it is a list of blocks. -/
theorem lineInfo_cases {ext : BtfExt} (h : btfExtNew data = .ok (.ok ext)) :
    ∃ start len, lineInfoPlace data = .ok (start, len)
      ∧ (len = 0 ∨ ∃ recSize bs, LineInfo data start len recSize bs) := by
  obtain ⟨hdrLen, -, -, lineOff, lineLen, hhdr, -, -, -, -, hoff, hlen, hline⟩ := btfExtNew_cases h
  have hplace : lineInfoPlace data = .ok (hdrLen + lineOff, lineLen) := by
    unfold lineInfoPlace
    rw [hhdr, hoff, hlen]
    rfl
  refine ⟨hdrLen + lineOff, lineLen, hplace, ?_⟩
  rcases setupInfo_cases hline with
    ⟨hzero, -⟩ | ⟨hfour, hin, recSize, hrec, hmin, hwords, -, bs, hbs, hslice⟩
  · exact Or.inl hzero
  refine Or.inr ⟨recSize, bs, hplace, readLE_lt hlen, hin, hmin, readLE_lt hrec, hwords, hbs, ?_⟩
  have hrecSize : le 4 recSize = slice data (hdrLen + lineOff) 4 := by
    rw [readLE_eq (by omega)] at hrec
    cases hrec
    exact le_leNat_slice (by omega)
  rw [hrecSize, ← hslice, ← slice_add]
  congr 1
  omega

/-- **The walk** over the line info of a section, with `rest` behind it. -/
theorem lineWalk_lineInfo (h : LineInfo data start len recSize bs)
    (fileName : Nat → Res (List UInt8)) (name : Nat → List UInt8)
    (hname : ∀ b ∈ bs, ∀ r ∈ b.recs, fileName (fileNameOff r) = .ok (name (fileNameOff r)))
    (orig : Nat) (caches : Caches) (rest : List UInt8) :
    lineWalk fileName orig caches (slice data start len ++ rest) len
      = .ok ⟨le 4 recSize
          ++ (encodeBlocks (walkBlocks name orig caches bs (StringTable.new orig)).blocks ++ rest),
        (encodeBlocks (walkBlocks name orig caches bs (StringTable.new orig)).left).length,
        (walkBlocks name orig caches bs (StringTable.new orig)).table,
        (walkBlocks name orig caches bs (StringTable.new orig)).overflow⟩ := by
  rw [h.bytes]
  exact lineWalk_blocks h.size_ge h.words h.size_lt h.fits hname rest h.length_eq h.len_lt

/-! ### The end of the walk -/

/-- The walk, on the bytes of the line info alone, ends and with `linfo_len` 0: it never reads
    behind the subsection.  So the walk on the whole section does the same. -/
def WalksInside (name : Nat → List UInt8) (orig : Nat) (caches : Caches) (ext : List UInt8) :
    Prop :=
  ∃ start len w, lineInfoPlace ext = .ok (start, len)
    ∧ lineWalk (fun off => .ok (name off)) orig caches (slice ext start len) len = .ok w
    ∧ w.linfoLen = 0
    ∧ lineWalk (fun off => .ok (name off)) orig caches (ext.drop start) len
      = .ok { w with bytes := w.bytes ++ ext.drop (start + len) }

/-- **The walk before the check.**  For a section that is accepted, the walk over its line info
    ends, with `linfo_len` 0 and without a read behind the subsection, exactly if there is line
    info and the lines for all blocks but the last one fit into the table of strings. -/
theorem lineWalk_iff (name : Nat → List UInt8) (orig : Nat) (caches : Caches) (data : List UInt8)
    (ext : BtfExt) (h : btfExtNew data = .ok (.ok ext)) :
    WalksInside name orig caches data
      ↔ ∃ start len, lineInfoPlace data = .ok (start, len) ∧ len ≠ 0
        ∧ ∀ bs : List Block, (∀ b ∈ bs, b.Fits (leNat (slice data start 4))) →
          slice data (start + 4) (len - 4) = encodeBlocks bs →
          (addAll (linesOf name caches bs.dropLast) (StringTable.new orig)).isSome = true := by
  obtain ⟨start, len, hplace, hcases⟩ := lineInfo_cases h
  rcases hcases with hzero | ⟨recSize, bs, hinfo⟩
  · -- of an empty subsection not even the size of the records can be read
    constructor
    · rintro ⟨start', len', w, hp, hwalk, -⟩
      rw [hplace] at hp
      cases hp
      rw [hzero] at hwalk
      cases hwalk
    · rintro ⟨start', len', hp, hne, -⟩
      rw [hplace] at hp
      cases hp
      exact absurd hzero hne
  · have hlen := hinfo.length_eq
    have hwalk := fun bs (h : LineInfo data start len recSize bs) =>
      lineWalk_lineInfo h (fun off => .ok (name off)) name (fun b _ r _ => rfl) orig caches
    constructor
    · rintro ⟨start', len', w, hp, hrun, hend, -⟩
      rw [hplace] at hp
      cases hp
      refine ⟨start, len, hplace, by omega, fun bs' hbs' hslice => ?_⟩
      have hrun' := hwalk bs' (hinfo.of_slice hbs' hslice) []
      rw [append_nil, hrun] at hrun'
      rw [Except.ok.inj hrun'] at hend
      exact (left_eq_nil_iff orig bs' _).mp (encodeBlocks_eq_nil hend)
    · rintro ⟨start', len', hp, -, hfit⟩
      rw [hplace] at hp
      cases hp
      have hleft := (left_eq_nil_iff orig bs _).mpr
        (hfit bs (by rw [hinfo.recSize_eq]; exact hinfo.fits) hinfo.parts.2)
      have hrun := hwalk bs hinfo []
      have hrun' := hwalk bs hinfo (data.drop (start + len))
      have hwhole : slice data start len ++ data.drop (start + len) = data.drop start := by
        rw [slice, ← drop_drop, take_append_drop]
      rw [append_nil] at hrun
      rw [hwhole] at hrun'
      refine ⟨start, len, _, hplace, hrun, ?_, ?_⟩
      · show (encodeBlocks _).length = 0
        rw [hleft]
        rfl
      · rw [hrun']
        rw [append_nil, append_assoc]

/-- A source file of three lines. -/
def threeLines : Caches := [(⟨[0x6c], by decide⟩, [[0x78], [0x79], [0x7a]])]

/-- The walk over two blocks, with a line for each of them. -/
theorem lineWalk_iff_two : WalksInside (fun _ => [0x6c]) 1 threeLines twoBlocksExt := by
  apply (lineWalk_iff (fun _ => [0x6c]) 1 threeLines twoBlocksExt _ btfExtNew_twoBlocksExt).mpr
  refine ⟨32, 52, by decide, by decide, fun bs hfits hslice => ?_⟩
  obtain rfl : bs = twoBlocks :=
    encodeBlocks_injective hfits fits_twoBlocks (hslice.symm.trans slice_twoBlocksExt)
  decide

/-- A section with one function record and without line info, which would be at its end. -/
def noLineExt : List UInt8 :=
  [0x9f, 0xeb, 1, 0] ++ (le 4 32 ++ (le 4 0 ++ (le 4 20 ++ (le 4 20 ++ (le 4 0 ++ (le 4 0
    ++ (le 4 0 ++ (le 4 8 ++ (le 4 1 ++ (le 4 1 ++ (le 4 0 ++ le 4 1)))))))))))

/-- The section is accepted; but the walk reads the size of the line records behind its end. -/
theorem walk_without_line_info :
    btfExtNew noLineExt = .ok (.ok ⟨noLineExt, ⟨36, 8, 16⟩, ⟨0, 0, 0⟩, ⟨0, 0, 0⟩⟩)
      ∧ lineInfoPlace noLineExt = .ok (52, 0)
      ∧ lineWalk (fun _ => .ok []) 1 [] (noLineExt.drop 52) 0 = .error .outOfBounds
      ∧ ¬ WalksInside (fun _ => []) 1 [] noLineExt := by
  have hplace : lineInfoPlace noLineExt = .ok (52, 0) := by decide
  have hwalk : lineWalk (fun _ => .ok []) 1 [] (noLineExt.drop 52) 0 = .error .outOfBounds := by
    rfl
  refine ⟨by decide, hplace, hwalk, ?_⟩
  rintro ⟨start, len, w, hp, -, -, hrun⟩
  cases hp
  cases hrun

end Bcc.Btf
