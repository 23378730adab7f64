import Bcc.Zip.Archive

namespace Bcc.Zip

open CText Bytes

/-!
# ZIP — all reads lie inside the archive

* `openArchive_inside` — the offsets and sizes of an archive are added with 32 bits, but each sum is
  checked again before it is used, so that none leads outside.
-/

/-- Name and data of the entry lie inside. -/
def ZipEntry.Inside (e : ZipEntry) (data : List UInt8) : Prop :=
  e.nameOffset + e.nameLength ≤ data.length ∧ e.dataOffset + e.dataLength ≤ data.length

/-- The offset of the directory has 32 bits. -/
def EndRecord.Fits : EndRecord → Prop
  | .found cdOffset _ => cdOffset < 2 ^ 32
  | _ => True

section Inside

variable {data : List UInt8} (hd : data.length < 2 ^ 32)

include hd

variable {offset : Nat}

/-- What passes the check lies inside. -/
theorem le_of_checkAccess {size : Nat} (ho : offset < 2 ^ 32) (hs : size < 2 ^ 32)
    (h : ¬ checkAccess data offset size = false) : offset + size ≤ data.length := by
  rwa [Bool.not_eq_false, checkAccess_iff hd ho hs] at h

/-- The end record is read inside the file, and what it says fits its fields. -/
theorem tryParse_ok (ho : offset < 2 ^ 32) :
    Returns (tryParseEndOfCentralDirectory data offset) EndRecord.Fits := by
  unfold tryParseEndOfCentralDirectory
  split
  · exact ⟨_, rfl, trivial⟩
  rename_i hcheck
  have hle := le_of_checkAccess hd ho (by decide) hcheck
  simp (disch := omega) only [readLE_eq, ok_bind]
  split
  · exact ⟨_, rfl, trivial⟩
  · split
    · exact ⟨_, rfl, trivial⟩
    · split
      · exact ⟨_, rfl, trivial⟩
      · split
        · exact ⟨_, rfl, trivial⟩
        · exact ⟨_, rfl, leNat_slice_lt data (offset + 16) 4⟩

theorem scanBack_ok (n : Nat) (ho : offset < 2 ^ 32) :
    Returns (scanBack data n offset) EndRecord.Fits := by
  induction n generalizing offset with
  | zero => exact ⟨_, rfl, trivial⟩
  | succ n ih =>
    obtain ⟨r, hr, hbound⟩ := tryParse_ok hd ho
    rw [scanBack, hr, ok_bind]
    split
    · exact ⟨r, rfl, hbound⟩
    · split
      · exact ⟨_, rfl, trivial⟩
      · exact ih (by omega)

/-- The numbers of a local header, where there is one. -/
theorem localFileHeaderAtOffset_ok (ho : offset < 2 ^ 32) :
    Returns (localFileHeaderAtOffset data offset) fun r => ∀ lfh, r = some lfh →
      lfh.fileNameLength < 2 ^ 16 ∧ lfh.compressedSize < 2 ^ 32 := by
  unfold localFileHeaderAtOffset
  split
  · exact returns_none
  rename_i hcheck
  have hle := le_of_checkAccess hd ho (by decide) hcheck
  simp (disch := omega) only [readLE_eq, ok_bind]
  split
  · exact returns_none
  · refine ⟨_, rfl, fun lfh h => ?_⟩
    cases h
    exact ⟨leNat_slice_lt data (offset + 26) 2, leNat_slice_lt data (offset + 18) 4⟩

/-- **Entries.**  An entry that is found lies inside. -/
theorem getEntryAtOffset_ok (ho : offset < 2 ^ 32) :
    Returns (getEntryAtOffset data offset) fun r => ∀ e, r = some e → e.Inside data := by
  obtain ⟨r, hr, hbound⟩ := localFileHeaderAtOffset_ok hd ho
  unfold getEntryAtOffset
  rw [hr, ok_bind]
  cases r with
  | none => exact returns_none
  | some lfh =>
    obtain ⟨hname, hsize⟩ := hbound lfh rfl
    have hname32 : lfh.fileNameLength < 2 ^ 32 := by omega
    dsimp only
    split
    · exact returns_none
    split
    · exact returns_none
    rename_i h1
    split
    · exact returns_none
    · split
      · exact returns_none
      · next h3 =>
        refine ⟨_, rfl, fun e h => ?_⟩
        cases h
        exact ⟨le_of_checkAccess hd (add32_lt _ _) hname32 h1,
          le_of_checkAccess hd (add32_lt _ _) hsize h3⟩

/-- A record of the directory points to an offset of 32 bits. -/
theorem cdFileHeaderAtOffset_ok (ho : offset < 2 ^ 32) :
    Returns (cdFileHeaderAtOffset data offset) fun r => ∀ cdfh, r = some cdfh →
      cdfh.offset < 2 ^ 32 ∧ cdfh.fileNameLength < 2 ^ 16 := by
  unfold cdFileHeaderAtOffset
  split
  · exact returns_none
  rename_i hcheck
  have hle := le_of_checkAccess hd ho (by decide) hcheck
  simp (disch := omega) only [readLE_eq, ok_bind]
  split
  · exact returns_none
  · refine ⟨_, rfl, fun cdfh h => ?_⟩
    cases h
    exact ⟨leNat_slice_lt data (offset + 42) 4, leNat_slice_lt data (offset + 28) 2⟩

/-- **Names.**  The walk by name stays inside. -/
theorem findEntryLoop_ok (fileName : List UInt8) (n : Nat) (ho : offset < 2 ^ 32) :
    Returns (findEntryLoop data fileName n offset) fun r => ∀ e, r = some e → e.Inside data := by
  induction n generalizing offset with
  | zero => exact returns_none
  | succ n ih =>
    obtain ⟨r, hr, hbound⟩ := cdFileHeaderAtOffset_ok hd ho
    rw [findEntryLoop, hr, ok_bind]
    cases r with
    | none => exact returns_none
    | some cdfh =>
      obtain ⟨hoff, hname⟩ := hbound cdfh rfl
      dsimp only
      split
      · exact returns_none
      rename_i hcheck
      have hle := le_of_checkAccess hd (add32_lt offset 46) (by omega) hcheck
      -- the name was checked with the length that is compared
      have hhas : ∃ b, cdfh.hasName data (add32 offset 46) fileName = .ok b := by
        unfold CdFileHeader.hasName
        split
        · next hcond =>
          rw [readBytes_eq (hcond.2 ▸ hle)]
          exact ⟨_, rfl⟩
        · exact ⟨_, rfl⟩
      obtain ⟨b, hb⟩ := hhas
      rw [hb, ok_bind]
      split
      · exact getEntryAtOffset_ok hd hoff
      · exact ih (add32_lt _ _)

/-- **Offsets.**  The walk by offset stays inside. -/
theorem findAtOffsetLoop_ok (target n : Nat) (ho : offset < 2 ^ 32) :
    Returns (findAtOffsetLoop data target n offset) fun r => ∀ e, r = some e → e.Inside data := by
  induction n generalizing offset with
  | zero => exact returns_none
  | succ n ih =>
    obtain ⟨r, hr, hbound⟩ := cdFileHeaderAtOffset_ok hd ho
    rw [findAtOffsetLoop, hr, ok_bind]
    cases r with
    | none => exact returns_none
    | some cdfh =>
      dsimp only
      split
      · exact ih (add32_lt _ _)
      obtain ⟨r', hr', hin⟩ := getEntryAtOffset_ok hd (hbound cdfh rfl).1
      rw [hr', ok_bind]
      cases r' with
      | none => exact returns_none
      | some e =>
        dsimp only
        split
        · exact ⟨_, rfl, hin⟩
        · exact ih (add32_lt _ _)

end Inside

/-- **Inside.**  Whatever the bytes of an archive are, looking for its directory reads no byte
    outside of it, and neither does looking for an entry, by any name or any offset; the name
    and the data of an entry that is found lie inside. -/
theorem openArchive_inside (data : List UInt8) (hd : data.length < 2 ^ 32) :
    ∃ r, openArchive data = .ok r ∧ ∀ a, r = some a →
      (∀ fileName, ∃ found, findEntry a fileName = .ok found ∧ ∀ e, found = some e → e.Inside data)
      ∧ ∀ target, ∃ found, findEntryAtOffset a target = .ok found
        ∧ ∀ e, found = some e → e.Inside data := by
  unfold openArchive findCentralDirectory
  split
  · exact returns_none
  split
  · exact returns_none
  have ho : data.length - 22 < 2 ^ 32 := by omega
  obtain ⟨r, hr, hbound⟩ := scanBack_ok hd (2 ^ 16) ho
  rw [hr]
  cases r with
  | invalid | unsupported => exact returns_none
  | found cdOffset cdRecords =>
    refine ⟨_, rfl, fun a h => ?_⟩
    cases h
    exact ⟨fun fileName => findEntryLoop_ok hd fileName cdRecords hbound,
      fun target => findAtOffsetLoop_ok hd target cdRecords hbound⟩

/-- An archive with one entry: three bytes under the name `a`. -/
def oneEntryArchive : List UInt8 :=
  -- the local header, the name and the data
  [0x50, 0x4b, 3, 4, 20, 0] ++ List.replicate 12 0 ++ [3, 0, 0, 0, 3, 0, 0, 0, 1, 0, 0, 0]
    ++ [0x61, 1, 2, 3]
  -- the central directory
    ++ [0x50, 0x4b, 1, 2, 20, 0, 20, 0] ++ List.replicate 12 0 ++ [3, 0, 0, 0, 3, 0, 0, 0, 1, 0]
    ++ List.replicate 16 0 ++ [0x61]
  -- the end record
    ++ [0x50, 0x4b, 5, 6, 0, 0, 0, 0, 1, 0, 1, 0, 47, 0, 0, 0, 34, 0, 0, 0, 0, 0]

/-- The archive is opened, and its entry found inside. -/
theorem openArchive_inside_one :
    ∃ a e, openArchive oneEntryArchive = .ok (some a) ∧ findEntry a [0x61] = .ok (some e)
      ∧ e.dataLength = 3 ∧ e.Inside oneEntryArchive := by
  have hopen : openArchive oneEntryArchive = .ok (some ⟨oneEntryArchive, 34, 1⟩) := by decide
  have hfind : ∃ e, findEntry ⟨oneEntryArchive, 34, 1⟩ [0x61] = .ok (some e)
      ∧ e.dataLength = 3 := ⟨_, rfl, rfl⟩
  obtain ⟨r, hr, hin⟩ := openArchive_inside oneEntryArchive (by decide)
  obtain ⟨e, he, hlen⟩ := hfind
  obtain ⟨found, hfound, hinside⟩ :=
    (hin _ (Except.ok.inj (hr.symm.trans hopen))).1 [0x61]
  exact ⟨_, e, hopen, he, hlen, hinside e (Except.ok.inj (hfound.symm.trans he))⟩

end Bcc.Zip
