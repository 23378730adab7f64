import Bcc.Btf.Reloc
import Bcc.Btf.Strings

namespace Bcc.Btf

open Bytes CText List

/-!
# BTF — the walk over the line records

Line records of sources that only the program knows have no text.  They are looked for in
`.BTF.ext` before the section is checked, and their lines are put into a table of strings.

* `lineWalk` — the walk, which checks nothing itself;
* `recordStep_record`, `recLoop_recs`, `blockLoop_blocks` — a record, a block, all blocks.
-/

/-! ### The walk -/

/-- The name of a file. -/
structure FileName where
  chars : List UInt8
  noNul : 0 ∉ chars
  deriving DecidableEq

/-- `LineCaches`, in the order of the names. -/
abbrev Caches := List (FileName × List (List UInt8))

/-- Bytes from a place on, the table of strings, and `overflow`. -/
structure Step where
  bytes : List UInt8
  table : StringTable
  overflow : Bool

section Model

variable (fileName : Nat → Res (List UInt8)) (orig : Nat)

/-- The loop over `LineCaches` for the record at the front: `line_off` is at offset 8 of it.
    `fileName` is the string of the section at an offset. -/
def cacheLoop : Caches → List UInt8 → StringTable → Res Step
  | [], b, t => .ok ⟨b, t, false⟩
  | (file, lines) :: caches, b, t => do
    let fileNameOff ← readLE b 4 4
    let name ← fileName fileNameOff
    if name ≠ file.chars then cacheLoop caches b t
    else
      let lineCol ← readLE b 12 4
      let lineNum := lineCol / 2 ^ 10
      if 0 < lineNum ∧ lineNum ≤ lines.length then
        let line ← element lines (lineNum - 1)
        match t.addString line with
        | none => return ⟨b, t, true⟩
        | some (off, t) => cacheLoop caches (patch b 8 (le 4 (orig + off))) t
      else cacheLoop caches b t

/-- A record: nothing is done if it has a text. -/
def recordStep (caches : Caches) (b : List UInt8) (t : StringTable) : Res Step := do
  let lineOff ← readLE b 8 4
  if lineOff = 0 then cacheLoop fileName orig caches b t else return ⟨b, t, false⟩

/-- Bytes that were passed, bytes from `linfo_s` on, the table of strings, and `overflow`. -/
structure RecEnd where
  front : List UInt8
  rest : List UInt8
  table : StringTable
  overflow : Bool

/-- The loop over the records of a block.  `linfo_s` moves by words. -/
def recLoop (caches : Caches) (lrecSize : Nat) : Nat → List UInt8 → StringTable → Res RecEnd
  | 0, b, t => .ok ⟨[], b, t, false⟩
  | n + 1, b, t => do
    let s ← recordStep fileName orig caches b t
    let words := 4 * (lrecSize / 4)
    if s.overflow then return ⟨s.bytes.take words, s.bytes.drop words, s.table, true⟩
    else
      let e ← recLoop caches lrecSize n (s.bytes.drop words) s.table
      return { e with front := s.bytes.take words ++ e.front }

/-- The bytes after the walk, `linfo_len`, the table of strings, and `overflow`. -/
structure WalkEnd where
  bytes : List UInt8
  linfoLen : Nat
  table : StringTable
  overflow : Bool

/-- The loop over the blocks.  Lengths are `unsigned`. -/
def blockLoop (caches : Caches) (lrecSize : Nat) :
    Nat → List UInt8 → Nat → StringTable → Res WalkEnd
  | 0, _, _, _ => .error .outOfFuel
  | n + 1, b, linfoLen, t =>
    if linfoLen = 0 then .ok ⟨b, 0, t, false⟩
    else do
      let numRecs ← readLE b 4 4
      let e ← recLoop fileName orig caches lrecSize numRecs (b.drop 8) t
      let linfoLen := (linfoLen + (2 ^ 32 - (8 + numRecs * lrecSize) % 2 ^ 32)) % 2 ^ 32
      if e.overflow then return ⟨b.take 8 ++ (e.front ++ e.rest), linfoLen, e.table, true⟩
      else
        let w ← blockLoop caches lrecSize n e.rest linfoLen e.table
        return { w with bytes := b.take 8 ++ (e.front ++ w.bytes) }

/-- The walk of `adjust`, over the bytes from the line info on.  Every block takes bytes, so there
    are not more blocks than bytes. -/
def lineWalk (caches : Caches) (b : List UInt8) (lineInfoLen : Nat) : Res WalkEnd := do
  let lrecSize ← readLE b 0 4
  let w ← blockLoop fileName orig caches lrecSize (b.length + 1) (b.drop 4)
    ((lineInfoLen + (2 ^ 32 - 4)) % 2 ^ 32) (StringTable.new orig)
  return { w with bytes := b.take 4 ++ w.bytes }

end Model

/-- Where the line info starts, and `line_info_len`. -/
def lineInfoPlace (ext : List UInt8) : Res (Nat × Nat) := do
  let hdrLen ← readLE ext 4 4
  let lineInfoOff ← readLE ext 16 4
  let lineInfoLen ← readLE ext 20 4
  return (hdrLen + lineInfoOff, lineInfoLen)

/-! ### What it does to records -/

/-- `file_name_off` of a record. -/
def fileNameOff (r : List UInt8) : Nat := leNat (slice r 4 4)

/-- `line_off` of a record. -/
def lineOff (r : List UInt8) : Nat := leNat (slice r 8 4)

/-- `BPF_LINE_INFO_LINE_NUM` of a record. -/
def lineNum (r : List UInt8) : Nat := leNat (slice r 12 4) / 2 ^ 10

section Records

variable (name : Nat → List UInt8) (orig : Nat) (caches : Caches)

/-- The line of a file that a record stands for. -/
def asked (r : List UInt8) (c : FileName × List (List UInt8)) : Option (List UInt8) :=
  if name (fileNameOff r) = c.1.chars ∧ 0 < lineNum r then c.2[lineNum r - 1]? else none

/-- The lines that are put into the table for a record. -/
def requests (r : List UInt8) : List (List UInt8) :=
  if lineOff r = 0 then caches.filterMap (asked name r) else []

/-- Lines are put into the table, and `line_off` is set, until the table is full. -/
def record : List (List UInt8) → List UInt8 → StringTable → Step
  | [], r, t => ⟨r, t, false⟩
  | line :: lines, r, t =>
    match t.addString line with
    | none => ⟨r, t, true⟩
    | some (off, t) => record lines (patch r 8 (le 4 (orig + off))) t

/-- Records, the table of strings, and `overflow`. -/
structure RecsEnd where
  recs : List (List UInt8)
  table : StringTable
  overflow : Bool

/-- What the walk does to the records of a block. -/
def walkRecs : List (List UInt8) → StringTable → RecsEnd
  | [], t => ⟨[], t, false⟩
  | r :: rs, t =>
    let s := record orig (requests name caches r) r t
    if s.overflow then ⟨s.bytes :: rs, s.table, true⟩
    else
      let e := walkRecs rs s.table
      ⟨s.bytes :: e.recs, e.table, e.overflow⟩

/-- Blocks, the table of strings, `overflow`, and the blocks that are left over. -/
structure BlocksEnd where
  blocks : List Block
  table : StringTable
  overflow : Bool
  left : List Block

/-- What the walk does to blocks. -/
def walkBlocks : List Block → StringTable → BlocksEnd
  | [], t => ⟨[], t, false, []⟩
  | b :: bs, t =>
    let w := walkRecs name orig caches b.recs t
    if w.overflow then ⟨⟨b.nameOff, w.recs⟩ :: bs, w.table, true, bs⟩
    else
      let e := walkBlocks bs w.table
      ⟨⟨b.nameOff, w.recs⟩ :: e.blocks, e.table, e.overflow, e.left⟩

end Records

/-! ### Steps of the walk -/

section Steps

variable {fileName : Nat → Res (List UInt8)} {name : Nat → List UInt8} {orig : Nat}
  {caches : Caches}

/-- A step with bytes behind those it is about. -/
def Step.before (s : Step) (rest : List UInt8) : Step := { s with bytes := s.bytes ++ rest }

variable {r : List UInt8}

section

variable (hr : 16 ≤ r.length)
include hr

/-- A text that is recorded changes nothing else that is read of a record. -/
theorem fields_patch (v : Nat) :
    fileNameOff (patch r 8 (le 4 v)) = fileNameOff r ∧ lineNum (patch r 8 (le 4 v)) = lineNum r
      ∧ (patch r 8 (le 4 v)).length = r.length := by
  have hin : 8 + (le 4 v).length ≤ r.length := by
    rw [length_le]
    omega
  refine ⟨?_, ?_, length_patch hin⟩
  · rw [fileNameOff, slice_patch_before hin (by decide)]
    rfl
  · rw [lineNum, slice_patch_behind hin (by rw [length_le])]
    rfl

theorem asked_patch (v : Nat) : asked name (patch r 8 (le 4 v)) = asked name r := by
  obtain ⟨hfile, hline, -⟩ := fields_patch hr v
  unfold asked
  rw [hfile, hline]

/-- The loop over the caches records the lines that are asked for. -/
theorem cacheLoop_record (hname : fileName (fileNameOff r) = .ok (name (fileNameOff r)))
    (rest : List UInt8) (t : StringTable) :
    cacheLoop fileName orig caches (r ++ rest) t
      = .ok ((record orig (caches.filterMap (asked name r)) r t).before rest) := by
  induction caches generalizing r t with
  | nil => rfl
  | cons c caches ih =>
    obtain ⟨file, lines⟩ := c
    have hread : readLE (r ++ rest) 4 4 = .ok (fileNameOff r) := readLE_append_left (by omega)
    have hcol : readLE (r ++ rest) 12 4 = .ok (leNat (slice r 12 4)) :=
      readLE_append_left (by omega)
    have hlineNum : leNat (slice r 12 4) / 2 ^ 10 = lineNum r := rfl
    rw [cacheLoop, hread, ok_bind, hname, ok_bind, filterMap_cons]
    by_cases hfile : name (fileNameOff r) = file.chars
    · rw [if_neg (not_not.mpr hfile), hcol, ok_bind]
      rw [hlineNum]
      by_cases hnum : 0 < lineNum r ∧ lineNum r ≤ lines.length
      · -- the line is in the file
        have hline : lines[lineNum r - 1]? = some (lines.get ⟨lineNum r - 1, by omega⟩) :=
          getElem?_eq_getElem _
        have hasked : asked name r (file, lines) = some (lines.get ⟨lineNum r - 1, by omega⟩) := by
          unfold asked
          rw [if_pos ⟨hfile, hnum.1⟩]
          exact hline
        rw [if_pos hnum, element_eq_ok_iff.mpr hline, ok_bind, hasked]
        rw [record]
        cases t.addString (lines.get ⟨lineNum r - 1, by omega⟩) with
        | none => rfl
        | some x =>
          obtain ⟨off, t'⟩ := x
          have hlen := (fields_patch hr (orig + off)).2.2
          have hfileOff := (fields_patch hr (orig + off)).1
          dsimp only
          rw [patch_append (by rw [length_le]; omega),
            ih (by omega) (by rw [hfileOff]; exact hname), asked_patch hr]
      · have hasked : asked name r (file, lines) = none := by
          unfold asked
          split
          · next hcond =>
            apply getElem?_eq_none
            show lines.length ≤ _
            omega
          · rfl
        rw [if_neg hnum, hasked]
        exact ih hr hname t
    · have hasked : asked name r (file, lines) = none := if_neg (fun h => hfile h.1)
      rw [if_pos hfile, hasked]
      exact ih hr hname t

/-- **A record.** -/
theorem recordStep_record (hname : fileName (fileNameOff r) = .ok (name (fileNameOff r)))
    (rest : List UInt8) (t : StringTable) :
    recordStep fileName orig caches (r ++ rest) t
      = .ok ((record orig (requests name caches r) r t).before rest) := by
  have hread : readLE (r ++ rest) 8 4 = .ok (lineOff r) := readLE_append_left (by omega)
  unfold recordStep requests
  rw [hread, ok_bind]
  split
  · exact cacheLoop_record hr hname rest t
  · rfl

end

theorem length_record (orig : Nat) (lines : List (List UInt8)) (hr : 16 ≤ r.length)
    (t : StringTable) : (record orig lines r t).bytes.length = r.length := by
  induction lines generalizing r t with
  | nil => rfl
  | cons line lines ih =>
    rw [record]
    cases t.addString line with
    | none => rfl
    | some x =>
      have hlen := (fields_patch hr (orig + x.1)).2.2
      exact (ih (by omega) x.2).trans hlen

/-! ### Runs of the walk -/

variable {recSize : Nat}

/-- **The records of a block.**  All of them are passed, unless the table of strings gets full. -/
theorem recLoop_recs (orig : Nat) (caches : Caches) (hrec : 16 ≤ recSize)
    (hwords : recSize % 4 = 0) {rs : List (List UInt8)} (hrs : ∀ r ∈ rs, r.length = recSize)
    (hname : ∀ r ∈ rs, fileName (fileNameOff r) = .ok (name (fileNameOff r))) (rest : List UInt8)
    (t : StringTable) :
    ∃ e, recLoop fileName orig caches recSize rs.length (rs.flatten ++ rest) t = .ok e
      ∧ e.front ++ e.rest = (walkRecs name orig caches rs t).recs.flatten ++ rest
      ∧ e.table = (walkRecs name orig caches rs t).table
      ∧ e.overflow = (walkRecs name orig caches rs t).overflow
      ∧ (e.overflow = false → e.rest = rest) := by
  have hstep : 4 * (recSize / 4) = recSize := by omega
  induction rs generalizing t with
  | nil => exact ⟨⟨[], rest, t, false⟩, rfl, rfl, rfl, rfl, fun _ => rfl⟩
  | cons r rs ih =>
    obtain ⟨hr, hrs⟩ := forall_mem_cons.mp hrs
    obtain ⟨hrname, hname⟩ := forall_mem_cons.mp hname
    have hlong : 16 ≤ r.length := by omega
    rw [length_cons, flatten_cons, append_assoc, recLoop, recordStep_record hlong hrname, ok_bind]
    simp only [walkRecs]
    have hlen := length_record orig (requests name caches r) hlong t
    generalize record orig (requests name caches r) r t = s at hlen ⊢
    have htake : (s.before (rs.flatten ++ rest)).bytes.take recSize = s.bytes :=
      take_left' (hlen.trans hr)
    have hdrop : (s.before (rs.flatten ++ rest)).bytes.drop recSize = rs.flatten ++ rest :=
      drop_left' (hlen.trans hr)
    have htable : (s.before (rs.flatten ++ rest)).table = s.table := rfl
    have hover : (s.before (rs.flatten ++ rest)).overflow = s.overflow := rfl
    rw [hstep, htake, hdrop, htable, hover]
    cases hoverflow : s.overflow with
    | true =>
      refine ⟨⟨s.bytes, rs.flatten ++ rest, s.table, true⟩, rfl, ?_, rfl, rfl, fun h => by cases h⟩
      show _ = (s.bytes :: rs).flatten ++ rest
      rw [flatten_cons, append_assoc]
    | false =>
      obtain ⟨e, he, hbytes, htable', hover', hrest⟩ := ih hrs hname s.table
      refine ⟨{ e with front := s.bytes ++ e.front }, ?_, ?_, htable', hover', hrest⟩
      · rw [he]
        rfl
      · show s.bytes ++ e.front ++ e.rest = (s.bytes :: _).flatten ++ rest
        rw [flatten_cons, append_assoc, append_assoc, hbytes]

theorem walkRecs_size (name : Nat → List UInt8) (orig : Nat) (caches : Caches)
    (hrec : 16 ≤ recSize) {rs : List (List UInt8)} (hrs : ∀ r ∈ rs, r.length = recSize)
    (t : StringTable) :
    (walkRecs name orig caches rs t).recs.length = rs.length
      ∧ ∀ r ∈ (walkRecs name orig caches rs t).recs, r.length = recSize := by
  induction rs generalizing t with
  | nil => exact ⟨rfl, fun r hr => absurd hr not_mem_nil⟩
  | cons r rs ih =>
    obtain ⟨hr, hrs'⟩ := forall_mem_cons.mp hrs
    have hlen := length_record orig (requests name caches r)
      (show 16 ≤ r.length by omega) t
    simp only [walkRecs]
    split
    · exact ⟨rfl, forall_mem_cons.mpr ⟨hlen.trans hr, hrs'⟩⟩
    · obtain ⟨hcount, hsize⟩ := ih hrs' (record orig (requests name caches r) r t).table
      exact ⟨congrArg Nat.succ hcount, forall_mem_cons.mpr ⟨hlen.trans hr, hsize⟩⟩

/-- The parts of a block that stands at the front. -/
theorem encodeBlock_parts {b : Block} (hb : b.Fits recSize) (rest : List UInt8) :
    readLE (encodeBlock b ++ rest) 4 4 = .ok b.recs.length
      ∧ (encodeBlock b ++ rest).take 8 = le 4 b.nameOff ++ le 4 b.recs.length
      ∧ (encodeBlock b ++ rest).drop 8 = b.recs.flatten ++ rest := by
  have hhead : (le 4 b.nameOff ++ le 4 b.recs.length).length = 8 := by
    rw [length_append, length_le, length_le]
  have hat : At (encodeBlock b ++ rest) 0 (encodeBlock b ++ rest) := prefix_refl _
  have hbytes : encodeBlock b ++ rest
      = (le 4 b.nameOff ++ le 4 b.recs.length) ++ (b.recs.flatten ++ rest) := by
    rw [encodeBlock, append_assoc, append_assoc, append_assoc]
  refine ⟨?_, ?_, ?_⟩
  · have hnum := (at_encodeBlock hb hat).2.1
    rwa [Nat.zero_add] at hnum
  · rw [hbytes, take_left' hhead]
  · rw [hbytes, drop_left' hhead]

theorem walkBlocks_fits (name : Nat → List UInt8) (orig : Nat) (caches : Caches)
    (hrec : 16 ≤ recSize) {bs : List Block} (hbs : ∀ b ∈ bs, b.Fits recSize) (t : StringTable) :
    ∀ b ∈ (walkBlocks name orig caches bs t).blocks, b.Fits recSize := by
  induction bs generalizing t with
  | nil => exact fun b hb => absurd hb not_mem_nil
  | cons b bs ih =>
    obtain ⟨hb, hbs⟩ := forall_mem_cons.mp hbs
    obtain ⟨hcount, hsize⟩ := walkRecs_size name orig caches hrec hb.size t
    have hfits : Block.Fits recSize ⟨b.nameOff, (walkRecs name orig caches b.recs t).recs⟩ :=
      ⟨hb.nameOff_lt, by rw [hcount]; exact hb.recs_lt,
        by rw [hcount]; exact hb.recs_ne, hsize⟩
    simp only [walkBlocks]
    split
    · exact forall_mem_cons.mpr ⟨hfits, hbs⟩
    · exact forall_mem_cons.mpr ⟨hfits, ih hbs _⟩

/-- **Blocks.**  The walk does to blocks what `walkBlocks` says, and `linfo_len` is always the
    length of the blocks that are left. -/
theorem blockLoop_blocks (hrec : 16 ≤ recSize) (hwords : recSize % 4 = 0) {bs : List Block}
    (hbs : ∀ b ∈ bs, b.Fits recSize)
    (hname : ∀ b ∈ bs, ∀ r ∈ b.recs, fileName (fileNameOff r) = .ok (name (fileNameOff r)))
    (rest : List UInt8) (t : StringTable) {fuel : Nat} (hfuel : (encodeBlocks bs).length < fuel)
    (hlen : (encodeBlocks bs).length < 2 ^ 32) :
    blockLoop fileName orig caches recSize fuel (encodeBlocks bs ++ rest) (encodeBlocks bs).length t
      = .ok ⟨encodeBlocks (walkBlocks name orig caches bs t).blocks ++ rest,
        (encodeBlocks (walkBlocks name orig caches bs t).left).length,
        (walkBlocks name orig caches bs t).table, (walkBlocks name orig caches bs t).overflow⟩ := by
  induction bs generalizing t fuel with
  | nil =>
    obtain ⟨n, rfl⟩ := Nat.exists_eq_add_of_lt hfuel
    rfl
  | cons b bs ih =>
    obtain ⟨hb, hbs⟩ := forall_mem_cons.mp hbs
    obtain ⟨hbname, hname⟩ := forall_mem_cons.mp hname
    have hblen := hb.length_encode
    rw [encodeBlocks_cons] at hfuel hlen ⊢
    rw [length_append] at hfuel hlen ⊢
    obtain ⟨n, rfl⟩ := Nat.exists_eq_add_of_lt (Nat.zero_lt_of_lt hfuel)
    obtain ⟨hnum, htake, hdrop⟩ := encodeBlock_parts hb (encodeBlocks bs ++ rest)
    obtain ⟨e, he, hbytes, htable, hover, hrest⟩ :=
      recLoop_recs orig caches hrec hwords hb.size hbname
        (encodeBlocks bs ++ rest) t
    have hcount := (walkRecs_size name orig caches hrec hb.size t).1
    have hleft : ((encodeBlock b).length + (encodeBlocks bs).length
        + (2 ^ 32 - (8 + b.recs.length * recSize) % 2 ^ 32)) % 2 ^ 32
          = (encodeBlocks bs).length := by
      omega
    rw [blockLoop, if_neg (by omega), append_assoc, hnum, ok_bind, hdrop, he, ok_bind]
    simp only [walkBlocks, hleft, htake, htable, hover]
    generalize walkRecs name orig caches b.recs t = w at hbytes htable hover hcount ⊢
    have hencode : ∀ x : List UInt8, (le 4 b.nameOff ++ le 4 b.recs.length) ++ (w.recs.flatten ++ x)
        = encodeBlock ⟨b.nameOff, w.recs⟩ ++ x := by
      intro x
      rw [encodeBlock]
      rw [hcount, append_assoc, append_assoc, append_assoc]
    cases hoverflow : w.overflow with
    | true =>
      rw [if_pos rfl, if_pos rfl, hbytes, hencode, encodeBlocks_cons, append_assoc]
      rfl
    | false =>
      rw [hoverflow] at hover
      obtain hrest := hrest hover
      rw [hrest] at hbytes ⊢
      have hfront : e.front = w.recs.flatten := append_cancel_right hbytes
      rw [if_neg Bool.false_ne_true, ih hbs hname w.table (by omega) (by omega), ok_bind,
        if_neg Bool.false_ne_true, hfront]
      rw [hencode, encodeBlocks_cons, append_assoc]
      rfl

/-- **The walk** over the blocks of a subsection, with `rest` behind it. -/
theorem lineWalk_blocks {len : Nat} (hrec : 16 ≤ recSize) (hwords : recSize % 4 = 0)
    (hsize : recSize < 2 ^ 32) {bs : List Block} (hbs : ∀ b ∈ bs, b.Fits recSize)
    (hname : ∀ b ∈ bs, ∀ r ∈ b.recs, fileName (fileNameOff r) = .ok (name (fileNameOff r)))
    (rest : List UInt8) (hlen : len = 4 + (encodeBlocks bs).length) (hlen_lt : len < 2 ^ 32) :
    lineWalk fileName orig caches (le 4 recSize ++ (encodeBlocks bs ++ rest)) len
      = .ok ⟨le 4 recSize
          ++ (encodeBlocks (walkBlocks name orig caches bs (StringTable.new orig)).blocks ++ rest),
        (encodeBlocks (walkBlocks name orig caches bs (StringTable.new orig)).left).length,
        (walkBlocks name orig caches bs (StringTable.new orig)).table,
        (walkBlocks name orig caches bs (StringTable.new orig)).overflow⟩ := by
  have hread : readLE (le 4 recSize ++ (encodeBlocks bs ++ rest)) 0 4 = .ok recSize := by
    have hat : At (le 4 recSize ++ (encodeBlocks bs ++ rest)) 0 (le 4 recSize) :=
      prefix_append _ _
    exact hat.readLE (by decide) hsize
  have hleft : (len + (2 ^ 32 - 4)) % 2 ^ 32 = (encodeBlocks bs).length := by omega
  have hfuel : (encodeBlocks bs).length
      < (le 4 recSize ++ (encodeBlocks bs ++ rest)).length + 1 := by
    rw [length_append, length_append]
    omega
  unfold lineWalk
  rw [hread, ok_bind, hleft, drop_left' (length_le 4 recSize),
    blockLoop_blocks hrec hwords hbs hname rest _ hfuel (by omega)]
  rfl

end Steps

end Bcc.Btf
