import Bcc.Bytes.Layout
import Bcc.Order.Cursor

namespace Bcc.Elf.Probes

open Bytes Cursor List

/-!
# ELF — the probes in the notes of a file

* `parseStapsdtNote`, `doNoteSegment` — the probes in a note, and in a section of notes;
* `listprobes` — three scans of the sections with one cursor: for the first executable section, for
  `.probes`, and for the notes.  A scan goes on where the one before has stopped, and starts anew
  only if that one has run off the end.
-/

/-! ### Files -/

/-- `GElf_Shdr` -/
structure Shdr where
  type : Nat
  flags : UInt64
  addr : UInt64
  offset : UInt64
  deriving DecidableEq, Repr

/-- A note: the fields of its header, and the memory from its name and from its descriptor on, up
    to the last byte that is not zero. -/
structure Note where
  type : Nat
  namesz : Nat
  descsz : Nat
  name : List UInt8
  desc : List UInt8
  deriving DecidableEq, Repr

/-- A section, with its header and name if libelf can read them, and the notes in each block of
    its data. -/
structure Section where
  header : Option Shdr
  name : Option String
  blocks : List (List Note)
  deriving DecidableEq, Repr

inductive ElfClass where
  | class32
  | class64
  deriving DecidableEq, Repr

/-- A file; `shstrndx` is whether the table of the section names is found. -/
structure Image where
  elfClass : ElfClass
  shstrndx : Bool
  sections : List Section

/-! ### Notes -/

/-- `struct bcc_elf_usdt` -/
structure Usdt where
  pc : UInt64
  baseAddr : UInt64
  semaphore : UInt64
  provider : List UInt8
  name : List UInt8
  argFmt : List UInt8
  semaphoreOffset : UInt64
  deriving DecidableEq, Repr

/-- The `size` bytes at an offset of the memory. -/
def bytesAt (mem : List UInt8) (off size : Nat) : List UInt8 :=
  (List.range size).map fun i => mem.getD (off + i) 0

/-- The number of `size` bytes at an offset of the memory. -/
def word (mem : List UInt8) (off size : Nat) : UInt64 :=
  UInt64.ofNat (leNat (bytesAt mem off size))

/-- The string at an offset of the memory. -/
def strAt (mem : List UInt8) (off : Nat) : List UInt8 := (mem.drop off).takeWhile (· ≠ 0)

variable (probesShdr : Option Shdr)

/-- The offset of a semaphore in the file. -/
def offsetInFile (semaphore : UInt64) : UInt64 :=
  match probesShdr with
  | none => 0
  | some h => if semaphore = 0 then 0 else semaphore - h.addr + h.offset

/-- `parse_stapsdt_note`: the probe, and how far its descriptor goes. -/
def parseStapsdtNote (desc : List UInt8) (elfClass : ElfClass) : Usdt × Nat :=
  let size := match elfClass with
    | .class32 => 4
    | .class64 => 8
  let provider := strAt desc (3 * size)
  let nameAt := 3 * size + provider.length + 1
  let name := strAt desc nameAt
  let argAt := nameAt + name.length + 1
  let argFmt := strAt desc argAt
  (⟨word desc 0 size, word desc size size, word desc (2 * size) size, provider, name, argFmt,
    offsetInFile probesShdr (word desc (2 * size) size)⟩, argAt + argFmt.length + 1)

/-- `NT_STAPSDT` -/
def ntStapsdt : Nat := 3

/-- The body of the loop over the notes: the probe that the callback is called with. -/
def noteProbe (elfClass : ElfClass) (firstInst : UInt64) (n : Note) : Option Usdt :=
  if n.type ≠ ntStapsdt then none
  else if n.namesz ≠ 8 then none
  else if bytesAt n.name 0 8 ≠ [0x73, 0x74, 0x61, 0x70, 0x73, 0x64, 0x74, 0] then none
  else
    let (probe, descEnd) := parseStapsdtNote probesShdr n.desc elfClass
    if descEnd ≠ n.descsz then none
    -- such a probe is only warned about
    else if probe.pc < firstInst then none
    else some probe

/-- `do_note_segment`: the probes that the callback is called with. -/
def doNoteSegment (s : Section) (probesShdr : Option Shdr) (elfClass : ElfClass)
    (firstInst : UInt64) : List Usdt :=
  s.blocks.flatMap fun notes => notes.filterMap (noteProbe probesShdr elfClass firstInst)

/-! ### The three scans -/

/-- `header.sh_flags & SHF_EXECINSTR` -/
def Section.isExec (s : Section) : Bool :=
  match s.header with
  | none => false
  | some h => h.flags &&& 4 ≠ 0

/-- The section `.probes`. -/
def Section.isProbes (s : Section) : Bool := s.header.isSome && s.name == some ".probes"

/-- A section `.note.stapsdt` of type `SHT_NOTE`. -/
def Section.isStapsdt (s : Section) : Bool :=
  match s.header with
  | none => false
  | some h => h.type = 7 && s.name == some ".note.stapsdt"

/-- The first scan: the address of the first executable section, and what the next scan goes on
    with.  A scan that has run off the end leaves the cursor in front of all sections. -/
def firstScan (sections : List Section) : UInt64 × List Section :=
  match seek Section.isExec sections with
  | some (s, rest) => ((s.header.map Shdr.addr).getD 0, rest)
  | none => (0, sections)

/-- The second scan, from the sections that the first one has left. -/
def secondScan (sections rest : List Section) : Option Shdr × List Section :=
  match seek Section.isProbes rest with
  | some (s, rest') => (s.header, rest')
  | none => (none, sections)

/-- The third scan. -/
def thirdScan (probesShdr : Option Shdr) (elfClass : ElfClass) (firstInst : UInt64) :
    List Section → List Usdt
  | [] => []
  | s :: rest =>
    (if s.isStapsdt then doNoteSegment s probesShdr elfClass firstInst else [])
      ++ thirdScan probesShdr elfClass firstInst rest

/-- `listprobes`: the result, and the probes that the callback is called with. -/
def listprobes (e : Image) : Int × List Usdt :=
  if !e.shstrndx then (-1, [])
  else
    let (firstInst, rest) := firstScan e.sections
    let (probesShdr, rest) := secondScan e.sections rest
    (0, thirdScan probesShdr e.elfClass firstInst rest)

/-! ### The probes of a file -/

/-- The probes of some sections, with semaphores relative to a section `.probes`. -/
def probesIn (elfClass : ElfClass) (firstInst : UInt64) (sections : List Section) : List Usdt :=
  (sections.filter Section.isStapsdt).flatMap fun s => doNoteSegment s probesShdr elfClass firstInst

/-- The address of the first executable section. -/
def firstInstruction (sections : List Section) : UInt64 :=
  (((sections.find? Section.isExec).bind Section.header).map Shdr.addr).getD 0

/-- The header of the section `.probes`. -/
def probesHeader (sections : List Section) : Option Shdr :=
  (sections.find? Section.isProbes).bind Section.header

/-- The probes of a file. -/
def probesOf (e : Image) : List Usdt :=
  probesIn (probesHeader e.sections) e.elfClass (firstInstruction e.sections) e.sections

/-! ### Semaphores -/

variable {elfClass : ElfClass} {firstInst : UInt64}

/-- A probe with its semaphore relative to a section `.probes`. -/
def Usdt.relative (probesShdr : Option Shdr) (u : Usdt) : Usdt :=
  { u with semaphoreOffset := offsetInFile probesShdr u.semaphore }

variable (probesShdr : Option Shdr)

/-- Only the offset of the semaphore depends on the section `.probes`. -/
theorem noteProbe_eq (n : Note) :
    noteProbe probesShdr elfClass firstInst n
      = (noteProbe none elfClass firstInst n).map (Usdt.relative probesShdr) := by
  rw [noteProbe, noteProbe]
  -- the address and the end of the descriptor are the same
  simp only [apply_ite (Option.map (Usdt.relative probesShdr))]
  rfl

theorem doNoteSegment_eq (s : Section) :
    doNoteSegment s probesShdr elfClass firstInst
      = (doNoteSegment s none elfClass firstInst).map (Usdt.relative probesShdr) := by
  simp [doNoteSegment, map_flatMap, map_filterMap, ← noteProbe_eq]

theorem probesIn_eq (sections : List Section) :
    probesIn probesShdr elfClass firstInst sections
      = (probesIn none elfClass firstInst sections).map (Usdt.relative probesShdr) := by
  simp [probesIn, map_flatMap, ← doNoteSegment_eq]

theorem probesIn_append (l r : List Section) :
    probesIn probesShdr elfClass firstInst (l ++ r)
      = probesIn probesShdr elfClass firstInst l ++ probesIn probesShdr elfClass firstInst r := by
  simp [probesIn]

theorem thirdScan_eq (sections : List Section) :
    thirdScan probesShdr elfClass firstInst sections
      = probesIn probesShdr elfClass firstInst sections := by
  induction sections with
  | nil => rfl
  | cons s rest ih =>
    rw [thirdScan, ih]
    by_cases hs : s.isStapsdt = true
    · simp [probesIn, hs]
    · simp [probesIn, hs]

/-- Two ways to report the probes agree exactly if the sections that one of them leaves out have
    none, and the offsets of the semaphores are the same. -/
theorem probesIn_suffix_iff (h h' : Option Shdr) (pre post : List Section) :
    probesIn h elfClass firstInst post = probesIn h' elfClass firstInst (pre ++ post)
      ↔ probesIn none elfClass firstInst pre = []
        ∧ ∀ u ∈ probesIn none elfClass firstInst (pre ++ post),
          offsetInFile h u.semaphore = offsetInFile h' u.semaphore := by
  rw [probesIn_eq h, probesIn_eq h', probesIn_append]
  constructor
  · intro heq
    have hpre : probesIn none elfClass firstInst pre = [] := by
      have hlen := congrArg List.length heq
      rw [length_map, length_map, length_append] at hlen
      exact eq_nil_of_length_eq_zero (by omega)
    rw [hpre] at heq ⊢
    refine ⟨rfl, fun u hu => ?_⟩
    exact congrArg Usdt.semaphoreOffset (map_inj_left.mp heq u hu)
  · rintro ⟨hpre, hsame⟩
    rw [hpre] at hsame ⊢
    refine map_inj_left.mpr fun u hu => ?_
    rw [Usdt.relative, Usdt.relative, hsame u hu]

end Bcc.Elf.Probes
