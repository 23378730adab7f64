import Bcc.Elf.Probes

namespace Bcc.Elf.Probes

open Bytes List

/-!
# ELF — what is read of a note

`parse_stapsdt_note` looks for the ends of three strings behind three addresses, wherever they are,
and compares the end with that of the descriptor afterwards.

* `doNoteSegment_iff` — what it finds is right, but in a descriptor that is too short, or without
  three terminators, it reads what stands behind.
-/

/-- The size of an address. -/
def ElfClass.addrSize : ElfClass → Nat
  | .class32 => 4
  | .class64 => 8

/-- The descriptor of a probe: three addresses and three strings. -/
def Usdt.encode (elfClass : ElfClass) (u : Usdt) : List UInt8 :=
  le elfClass.addrSize u.pc.toNat ++ (le elfClass.addrSize u.baseAddr.toNat
    ++ (le elfClass.addrSize u.semaphore.toNat
      ++ (u.provider ++ [0] ++ (u.name ++ [0] ++ (u.argFmt ++ [0])))))

/-- The addresses have their size, and no string has a NUL in it. -/
def Usdt.Fits (elfClass : ElfClass) (u : Usdt) : Prop :=
  (∀ a ∈ [u.pc, u.baseAddr, u.semaphore], a.toNat < 256 ^ elfClass.addrSize)
    ∧ ∀ t ∈ [u.provider, u.name, u.argFmt], 0 ∉ t

/-- The note is of type `NT_STAPSDT` and has the name `stapsdt`. -/
def Note.IsStapsdt (n : Note) : Prop :=
  n.type = ntStapsdt ∧ n.namesz = 8
    ∧ bytesAt n.name 0 8 = [0x73, 0x74, 0x61, 0x70, 0x73, 0x64, 0x74, 0]

/-- The descriptor. -/
def Note.descriptor (n : Note) : List UInt8 := bytesAt n.desc 0 n.descsz

instance (n : Note) : Decidable n.IsStapsdt := inferInstanceAs (Decidable (_ ∧ _))

/-- How many bytes are read, from the start of the descriptor on. -/
def Note.read (probesShdr : Option Shdr) (elfClass : ElfClass) (n : Note) : Nat :=
  if n.IsStapsdt then (parseStapsdtNote probesShdr n.desc elfClass).2 else 0

/-! ### Pieces of memory -/

variable {mem t x y : List UInt8} {off size len : Nat} {elfClass : ElfClass}
  {probesShdr : Option Shdr} {u : Usdt}

theorem bytesAt_add (mem : List UInt8) (off i j : Nat) :
    bytesAt mem off (i + j) = bytesAt mem off i ++ bytesAt mem (off + i) j := by
  simp [bytesAt, range_add, Nat.add_assoc]

@[simp] theorem length_bytesAt (mem : List UInt8) (off len : Nat) :
    (bytesAt mem off len).length = len := by
  simp [bytesAt]

theorem drop_bytesAt (mem : List UInt8) (len i : Nat) :
    (bytesAt mem 0 len).drop i = bytesAt mem i (len - i) := by
  by_cases hle : i ≤ len
  · obtain ⟨j, rfl⟩ := Nat.exists_eq_add_of_le hle
    rw [bytesAt_add, drop_left' (length_bytesAt ..), Nat.zero_add, Nat.add_sub_cancel_left]
  · rw [drop_eq_nil_of_le (by rw [length_bytesAt]; omega), Nat.sub_eq_zero_of_le (by omega)]
    rfl

/-- A piece of memory in two parts. -/
theorem bytesAt_eq_append_iff : bytesAt mem off len = x ++ y
    ↔ bytesAt mem off x.length = x ∧ bytesAt mem (off + x.length) y.length = y
      ∧ len = x.length + y.length := by
  constructor
  · intro h
    have hlen := congrArg List.length h
    rw [length_bytesAt, length_append] at hlen
    rw [hlen, bytesAt_add] at h
    obtain ⟨hx, hy⟩ := append_inj h (length_bytesAt ..)
    exact ⟨hx, hy, hlen⟩
  · rintro ⟨hx, hy, rfl⟩
    rw [bytesAt_add, hx, hy]

theorem word_eq_iff {a : UInt64} (hsize : size ≤ 8) :
    word mem off size = a ↔ bytesAt mem off size = le size a.toNat ∧ a.toNat < 256 ^ size := by
  have hlt := leNat_lt (bytesAt mem off size)
  have hpow : 256 ^ size ≤ 2 ^ 64 := Nat.pow_le_pow_right (by decide) hsize
  rw [length_bytesAt] at hlt
  constructor
  · rintro rfl
    have hle := le_leNat (bytesAt mem off size)
    rw [length_bytesAt] at hle
    rw [word, UInt64.toNat_ofNat', Nat.mod_eq_of_lt (by omega)]
    exact ⟨hle.symm, hlt⟩
  · rintro ⟨h, ha⟩
    rw [word, h, leNat_le, Nat.mod_eq_of_lt ha, UInt64.ofNat_toNat]

theorem bytesAt_succ (mem : List UInt8) (off len : Nat) :
    bytesAt mem off (len + 1) = mem.getD off 0 :: bytesAt mem (off + 1) len := by
  rw [Nat.add_comm, bytesAt_add]
  rfl

theorem strAt_eq (mem : List UInt8) (off : Nat) :
    strAt mem off = if mem.getD off 0 = 0 then [] else mem.getD off 0 :: strAt mem (off + 1) := by
  rw [strAt, strAt]
  by_cases hlt : off < mem.length
  · rw [drop_eq_getElem_cons hlt, takeWhile_cons]
    simp [hlt]
  · simp [drop_eq_nil_of_le (Nat.not_lt.mp hlt), Nat.not_lt.mp hlt]

/-- A string in memory, with its terminator. -/
theorem strAt_eq_iff :
    strAt mem off = t ↔ bytesAt mem off (t ++ [0]).length = t ++ [0] ∧ 0 ∉ t := by
  induction t generalizing off with
  | nil =>
    rw [strAt_eq]
    simp [bytesAt]
  | cons c t ih =>
    rw [cons_append, length_cons, bytesAt_succ, List.cons.injEq, mem_cons, strAt_eq]
    by_cases hz : mem.getD off 0 = 0
    · rw [hz]
      simp +contextual
    · rw [if_neg hz, List.cons.injEq, ih]
      simp only [not_or, ← and_assoc]
      refine and_congr_left fun _ => ?_
      constructor
      · rintro ⟨rfl, hrest⟩
        exact ⟨⟨rfl, hrest⟩, fun h => hz h.symm⟩
      · exact And.left

/-! ### The descriptor -/

/-- **What is found** is what stands in the bytes that were read. -/
theorem parseStapsdtNote_eq_iff {desc : List UInt8} :
    parseStapsdtNote probesShdr desc elfClass = (u, len)
      ↔ u.Fits elfClass ∧ bytesAt desc 0 len = u.encode elfClass
        ∧ u.semaphoreOffset = offsetInFile probesShdr u.semaphore := by
  have hparse : parseStapsdtNote probesShdr desc elfClass = (u, len)
      ↔ word desc 0 elfClass.addrSize = u.pc
        ∧ word desc elfClass.addrSize elfClass.addrSize = u.baseAddr
        ∧ word desc (2 * elfClass.addrSize) elfClass.addrSize = u.semaphore
        ∧ strAt desc (3 * elfClass.addrSize) = u.provider
        ∧ strAt desc (3 * elfClass.addrSize + (u.provider.length + 1)) = u.name
        ∧ strAt desc (3 * elfClass.addrSize + (u.provider.length + 1) + (u.name.length + 1))
          = u.argFmt
        ∧ len = 3 * elfClass.addrSize + (u.provider.length + 1) + (u.name.length + 1)
          + (u.argFmt.length + 1)
        ∧ u.semaphoreOffset = offsetInFile probesShdr u.semaphore := by
    obtain ⟨pc, baseAddr, semaphore, provider, name, argFmt, semaphoreOffset⟩ := u
    simp only [parseStapsdtNote]
    constructor
    · rintro ⟨⟨rfl, rfl, rfl, rfl, rfl, rfl, rfl⟩, rfl⟩
      cases elfClass <;> simp [ElfClass.addrSize, Nat.add_assoc]
    · rintro ⟨rfl, rfl, rfl, rfl, rfl, rfl, rfl, rfl⟩
      cases elfClass <;> simp [ElfClass.addrSize, Nat.add_assoc]
  have hsize : elfClass.addrSize ≤ 8 := by cases elfClass <;> decide
  rw [hparse, Usdt.encode, Usdt.Fits]
  generalize elfClass.addrSize = size at hsize
  have htwo : size + size = 2 * size := by omega
  have hthree : 2 * size + size = 3 * size := by omega
  -- both sides say of each piece where it stands
  simp only [word_eq_iff hsize, strAt_eq_iff, bytesAt_eq_append_iff, length_le, length_append,
    forall_mem_cons, length_singleton, Nat.zero_add, htwo, hthree, and_true,
    not_mem_nil, false_imp_iff, implies_true]
  have hlen : size + (size + (size + (u.provider.length + 1 + (u.name.length + 1
      + (u.argFmt.length + 1))))) = 3 * size + (u.provider.length + 1) + (u.name.length + 1)
        + (u.argFmt.length + 1) := by omega
  rw [hlen]
  constructor
  · rintro ⟨⟨pc, hpc⟩, ⟨base, hbase⟩, ⟨sem, hsem⟩, ⟨p, hp⟩, ⟨n, hn⟩, ⟨a, ha⟩, hl, hoff⟩
    exact ⟨⟨⟨hpc, hbase, hsem⟩, hp, hn, ha⟩, ⟨pc, ⟨base, sem, p, n, a⟩, hl⟩, hoff⟩
  · rintro ⟨⟨⟨hpc, hbase, hsem⟩, hp, hn, ha⟩, ⟨pc, ⟨base, sem, p, n, a⟩, hl⟩, hoff⟩
    exact ⟨⟨pc, hpc⟩, ⟨base, hbase⟩, ⟨sem, hsem⟩, ⟨p, hp⟩, ⟨n, hn⟩, ⟨a, ha⟩, hl, hoff⟩

/-- A string and its terminator, among the terminators up to some place. -/
theorem lt_count_iff (mem : List UInt8) (off len k : Nat) :
    k + 1 ≤ (bytesAt mem off (len - off)).count 0
      ↔ off + (strAt mem off).length + 1 ≤ len
        ∧ k ≤ (bytesAt mem (off + (strAt mem off).length + 1)
          (len - (off + (strAt mem off).length + 1))).count 0 := by
  obtain ⟨hstr, hzero⟩ := strAt_eq_iff.mp (Eq.refl (strAt mem off))
  rw [length_append, length_singleton] at hstr
  by_cases hle : off + (strAt mem off).length + 1 ≤ len
  · rw [show len - off = (strAt mem off).length + 1 + (len - (off + (strAt mem off).length + 1)) by
      omega, bytesAt_add, hstr, count_append, count_append,
      count_eq_zero_of_not_mem hzero, ← Nat.add_assoc off]
    simp only [count_singleton_self]
    omega
  · -- the memory up to there is a part of the string
    have hnot : 0 ∉ bytesAt mem off (len - off) := by
      intro hmem
      rw [show (strAt mem off).length + 1
        = len - off + ((strAt mem off).length - (len - off)) + 1 by omega, bytesAt_add,
        bytesAt_add] at hstr
      have hinit := append_inj_left' hstr rfl
      exact hzero (hinit ▸ mem_append_left _ hmem)
    rw [count_eq_zero_of_not_mem hnot]
    omega

/-- The bytes that are read are in the descriptor exactly if it has three terminators behind the
    addresses. -/
theorem parseStapsdtNote_le_iff (desc : List UInt8) (len : Nat) :
    (parseStapsdtNote probesShdr desc elfClass).2 ≤ len
      ↔ 3 ≤ (bytesAt desc (3 * elfClass.addrSize) (len - 3 * elfClass.addrSize)).count 0 := by
  rw [lt_count_iff _ _ _ 2, lt_count_iff _ _ _ 1, lt_count_iff _ _ _ 0]
  cases elfClass <;> simp [parseStapsdtNote, ElfClass.addrSize] <;> omega

/-! ### Sections -/

/-- The note has the probe in its descriptor, and the probe is not in front of the first
    instruction. -/
def Note.Has (probesShdr : Option Shdr) (elfClass : ElfClass) (firstInst : UInt64) (n : Note)
    (u : Usdt) : Prop :=
  n.IsStapsdt ∧ (u.Fits elfClass ∧ n.descriptor = u.encode elfClass
    ∧ u.semaphoreOffset = offsetInFile probesShdr u.semaphore) ∧ firstInst ≤ u.pc

theorem noteProbe_eq_some_iff {firstInst : UInt64} {n : Note} :
    noteProbe probesShdr elfClass firstInst n = some u
      ↔ n.Has probesShdr elfClass firstInst u := by
  rw [Note.Has, Note.descriptor, ← parseStapsdtNote_eq_iff]
  by_cases h : n.IsStapsdt
  · obtain ⟨htype, hsize, hname⟩ := id h
    simp only [noteProbe, htype, hsize, hname, h, true_and,
      Option.ite_none_left_eq_some, Option.some.injEq, not_not, Prod.ext_iff, UInt64.not_lt]
    constructor
    · rintro ⟨hend, hpc, rfl⟩
      exact ⟨⟨rfl, hend⟩, hpc⟩
    · rintro ⟨⟨rfl, hend⟩, hpc⟩
      exact ⟨hend, hpc, rfl⟩
  · refine iff_of_false (fun hsome => ?_) fun hand => h hand.1
    simp only [noteProbe, Option.ite_none_left_eq_some, not_not] at hsome
    exact h ⟨hsome.1, hsome.2.1, hsome.2.2.1⟩

/-- **Notes.**  The callback is called for the probes of the notes that have one, in their order,
    and no byte outside the descriptor of a note is read, exactly if each descriptor of a note named
    `stapsdt` has three terminators behind its three addresses. -/
theorem doNoteSegment_iff (probesShdr : Option Shdr) (elfClass : ElfClass) (firstInst : UInt64)
    (s : Section) :
    ((∃ probe : Note → Option Usdt,
        (∀ n u, probe n = some u ↔ n.Has probesShdr elfClass firstInst u)
          ∧ doNoteSegment s probesShdr elfClass firstInst = s.blocks.flatten.filterMap probe)
        ∧ ∀ n ∈ s.blocks.flatten, n.read probesShdr elfClass ≤ n.descsz)
      ↔ ∀ n ∈ s.blocks.flatten, n.IsStapsdt →
        3 ≤ (n.descriptor.drop (3 * elfClass.addrSize)).count 0 := by
  rw [and_iff_right ⟨noteProbe probesShdr elfClass firstInst, fun _ _ => noteProbe_eq_some_iff,
    filterMap_flatten.symm⟩]
  refine forall₂_congr fun n hn => ?_
  rw [Note.read]
  split
  · next h =>
    rw [parseStapsdtNote_le_iff, Note.descriptor, drop_bytesAt]
    simp [h]
  · next h => simp [h]

/-- A section with one note named `stapsdt` and the given descriptor. -/
def oneNote (desc : List UInt8) : Section :=
  ⟨none, none, [[⟨3, 8, desc.length, [0x73, 0x74, 0x61, 0x70, 0x73, 0x64, 0x74], desc⟩]]⟩

/-- Two addresses are not enough: 15 bytes are read of 8. -/
theorem read_short : ∃ n ∈ (oneNote [0, 0, 0, 0, 0, 0, 0, 0]).blocks.flatten,
    n.descsz < n.read none .class32 := by
  decide

end Bcc.Elf.Probes
