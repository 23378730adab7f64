import Bcc.Text.Decimal
import Bcc.Zip.Inside
import Bcc.Zip.RoundTrip

namespace Bcc.Zip

open CText Bytes
open List hiding beq_eq_decide

/-!
# ZIP — entries named by a path

* `findArchivePathAndOffset` — a module that is mapped out of an archive is called by the path of
  the archive, `!/` and the name of the entry;
* `zipEntry_recovered` — whoever opens the archive again finds the entry.
-/

/-! ### From offsets to names and back -/

/-- `PATH_MAX`. -/
def pathMax : Nat := 4096

/-- `strstr(path, "!/")`, as an index. -/
def separator : List UInt8 → Option Nat
  | [] => none
  | x :: xs =>
    if x = 0x21 ∧ xs.head? = some 0x2f then some 0
    else (separator xs).map (· + 1)

/-- The bytes of a text. -/
def ascii (s : List Char) : List UInt8 := s.map (fun c => UInt8.ofNat c.toNat)

/-- `"/proc/%d/root"`. -/
def procRoot (pid : Int) : List UInt8 :=
  ascii ("/proc/".toList ++ (decimal pid ++ "/root".toList))

variable (files : List UInt8 → Option (List UInt8))

/-- `bcc_zip_archive_open`: the content of the file, if there is one. -/
def archiveOpen (path : List UInt8) : Res (Option Archive) :=
  match files path with
  | none => .ok none
  | some data => openArchive data

/-- `bcc_zip_archive_open_and_find`, with the path of the archive. -/
def openAndFind (path : List UInt8) : Res (Option (List UInt8 × Archive × ZipEntry)) :=
  match separator path with
  | none => .ok none
  | some k =>
    if pathMax ≤ k then .ok none
    else do
      match ← archiveOpen files (path.take k) with
      | none => return none
      | some a =>
        match ← findEntry a (path.drop (k + 2)) with
        | none => return none
        | some e => return some (path.take k, a, e)

/-- `_find_archive_path_and_offset`.  The offset is a `uint64_t`. -/
def findArchivePathAndOffset (path : List UInt8) (offset : Nat) :
    Res (Option (List UInt8 × Nat)) := do
  match ← openAndFind files path with
  | none => return none
  | some (archivePath, _, e) =>
    if e.compression ≠ 0 then return none
    else return some (archivePath, (offset + e.dataOffset) % 2 ^ 64)

/-- `_procfs_find_zip_entry`: the name, of which `%.*s` prints what is before a NUL, and the
    offset in the entry, a `uint32_t`. -/
def procfsFindZipEntry (path : List UInt8) (pid : Int) (offset : Nat) :
    Res (Option (List UInt8 × Nat)) :=
  if pathMax ≤ (procRoot pid ++ path).length then .ok none
  else do
    match ← archiveOpen files (procRoot pid ++ path) with
    | none => return none
    | some a =>
      match ← findEntryAtOffset a offset with
      | none => return none
      | some e =>
        if e.compression ≠ 0 then return none
        else return some (path ++ ([0x21, 0x2f] ++ (e.name a.data).takeWhile (· != 0)),
          (offset + (2 ^ 32 - e.dataOffset)) % 2 ^ 32)

/-! ### The separator -/

/-- The first separator is the one that is put behind a path without any. -/
theorem separator_append {path : List UInt8} (h : separator path = none) (rest : List UInt8) :
    separator (path ++ ([0x21, 0x2f] ++ rest)) = some path.length := by
  induction path with
  | nil => rfl
  | cons x xs ih =>
    rw [separator] at h
    split at h
    · cases h
    rename_i hx
    have hxs := ih (Option.map_eq_none_iff.mp h)
    have hhead : ¬ (x = 0x21 ∧ (xs ++ ([0x21, 0x2f] ++ rest)).head? = some 0x2f) := by
      rintro ⟨hbang, hslash⟩
      cases xs with
      | nil => exact absurd hslash (show ¬ some (0x21 : UInt8) = some 0x2f by decide)
      | cons y ys => exact hx ⟨hbang, hslash⟩
    rw [cons_append, separator, if_neg hhead, hxs]
    rfl

/-- What stands before a path and has no `!` brings no separator. -/
theorem separator_append_left {pre path : List UInt8} (hpre : (0x21 : UInt8) ∉ pre)
    (h : separator path = none) : separator (pre ++ path) = none := by
  induction pre with
  | nil => exact h
  | cons x xs ih =>
    obtain ⟨hx, hxs⟩ := not_or.mp (fun h => hpre (mem_cons.mpr h))
    rw [cons_append, separator, if_neg (fun hc => hx hc.1.symm), ih hxs]
    rfl

/-! ### Well-formed archives -/

/-- A record of the directory, with its name. -/
structure DirRecord where
  header : CdFileHeader
  name : List UInt8

/-- The records stand one after the other from the offset on.  Each that can be used points to a
    local header with the same name. -/
def Directory (data : List UInt8) : List DirRecord → Nat → Prop
  | [], _ => True
  | r :: rs, offset =>
    cdFileHeaderAtOffset data offset = .ok (some r.header)
      ∧ checkAccess data (add32 offset 46) r.header.fileNameLength = true
      ∧ slice data (add32 offset 46) r.header.fileNameLength = r.name
      ∧ (unsupportedFlags r.header.flags = false →
        ∃ e, getEntryAtOffset data r.header.offset = .ok (some e) ∧ e.name data = r.name)
      ∧ Directory data rs (r.header.next offset)

/-- The directory has as many records as the end record says, with names that are unique and
    have no NUL. -/
structure WellFormed (a : Archive) : Prop where
  length_lt : a.data.length < 2 ^ 32
  cdOffset_lt : a.cdOffset < 2 ^ 32
  walk : ∃ rs, rs.length = a.cdRecords ∧ Directory a.data rs a.cdOffset
    ∧ (rs.map (·.name)).Nodup ∧ ∀ r ∈ rs, (0 : UInt8) ∉ r.name

section Walk

variable {data : List UInt8}

/-- The entry found by an offset is that of a record, and the offset is in its data. -/
theorem exists_record_of_findAtOffsetLoop {target : Nat} {rs : List DirRecord} {offset : Nat}
    (hdir : Directory data rs offset) {e : ZipEntry}
    (h : findAtOffsetLoop data target rs.length offset = .ok (some e)) :
    (∃ r ∈ rs, unsupportedFlags r.header.flags = false ∧ e.name data = r.name
      ∧ getEntryAtOffset data r.header.offset = .ok (some e)) ∧ e.dataOffset ≤ target := by
  induction rs generalizing offset with
  | nil => cases h
  | cons r rs ih =>
    obtain ⟨hcd, -, -, hentry, hrest⟩ := hdir
    rw [length_cons, findAtOffsetLoop, hcd, ok_bind] at h
    dsimp only at h
    split at h
    · -- a record that cannot be used is left out
      obtain ⟨⟨r', hr', hrec⟩, ht⟩ := ih hrest h
      exact ⟨⟨r', mem_cons_of_mem _ hr', hrec⟩, ht⟩
    · next hflags =>
      have hsupported := Bool.eq_false_iff.mpr hflags
      obtain ⟨e', he', hname⟩ := hentry hsupported
      rw [he', ok_bind] at h
      dsimp only at h
      split at h
      · next hin =>
        cases h
        exact ⟨⟨r, mem_cons_self, hsupported, hname, he'⟩, hin.1⟩
      · obtain ⟨⟨r', hr', hrec⟩, ht⟩ := ih hrest h
        exact ⟨⟨r', mem_cons_of_mem _ hr', hrec⟩, ht⟩

variable (hd : data.length < 2 ^ 32)
include hd

/-- A record is taken for a name if it can be used and has it. -/
theorem hasName_record {r : DirRecord} {nameOffset : Nat} (ho : nameOffset < 2 ^ 32)
    (hlen : r.header.fileNameLength < 2 ^ 16)
    (hcheck : checkAccess data nameOffset r.header.fileNameLength = true)
    (hname : slice data nameOffset r.header.fileNameLength = r.name) (fileName : List UInt8) :
    r.header.hasName data nameOffset fileName
      = .ok (decide (unsupportedFlags r.header.flags = false ∧ r.name = fileName)) := by
  have hle : nameOffset + r.header.fileNameLength ≤ data.length :=
    (checkAccess_iff hd ho (by omega)).mp hcheck
  have hrlen : r.name.length = r.header.fileNameLength := by
    rw [← hname]
    exact length_slice hle
  unfold CdFileHeader.hasName
  split
  · next hcond =>
    rw [hcond.2, readBytes_eq hle, hname]
    exact congrArg Except.ok (by simp [hcond.1, beq_eq_decide])
  · next hcond =>
    rw [decide_eq_false]
    rintro ⟨hflags, rfl⟩
    exact hcond ⟨hflags, hrlen⟩

/-- The entry of a record that can be used is found by its name, if no other record has it. -/
theorem findEntryLoop_of_record {rs : List DirRecord} {offset : Nat} (ho : offset < 2 ^ 32)
    (hdir : Directory data rs offset) (hnodup : (rs.map (·.name)).Nodup) {r : DirRecord}
    (hr : r ∈ rs) (hflags : unsupportedFlags r.header.flags = false) :
    findEntryLoop data r.name rs.length offset = getEntryAtOffset data r.header.offset := by
  induction rs generalizing offset with
  | nil => exact absurd hr not_mem_nil
  | cons r' rs ih =>
    obtain ⟨hcd, hcheck, hname, -, hrest⟩ := hdir
    have hlen : r'.header.fileNameLength < 2 ^ 16 := by
      obtain ⟨_, hok, hbound⟩ := cdFileHeaderAtOffset_ok hd ho
      exact (hbound _ (Except.ok.inj (hok.symm.trans hcd))).2
    rw [map_cons, nodup_cons] at hnodup
    rw [length_cons, findEntryLoop, hcd, ok_bind]
    dsimp only
    rw [if_neg (by rw [hcheck]; exact Bool.noConfusion),
      hasName_record hd (add32_lt _ _) hlen hcheck hname, ok_bind]
    rcases mem_cons.mp hr with rfl | hmem
    · rw [if_pos (decide_eq_true ⟨hflags, rfl⟩)]
    · have hne : r'.name ≠ r.name := by
        intro heq
        exact hnodup.1 (heq ▸ mem_map_of_mem hmem)
      rw [if_neg (by simp [hne])]
      exact ih (add32_lt _ _) hrest hnodup.2 hmem

end Walk

/-- The records of the directory that is written for entries can be walked. -/
theorem directory_walk {data : List UInt8} (hd : data.length < 2 ^ 32) {es : List FileEntry}
    {offset loff : Nat} (hcd : At data offset (directory loff es))
    (hlocal : At data loff (locals es)) :
    ∃ rs, rs.map (·.name) = es.map (·.name) ∧ Directory data rs offset := by
  induction es generalizing offset loff with
  | nil => exact ⟨[], rfl, trivial⟩
  | cons e es ih =>
    obtain ⟨hrec, hcd⟩ := at_append.mp hcd
    obtain ⟨hloc, hlocal⟩ := at_append.mp hlocal
    have hloff := le_of_at_localRecord hloc
    obtain ⟨cdfh, hhdr, -, hnlen, hoff, hnext⟩ := cdFileHeaderAtOffset_central hd (by omega) hrec
    have hclen := length_centralRecord loff e
    have hle := le_of_at_centralRecord hrec
    have hadd : add32 offset 46 = offset + 46 := add32_eq (by omega)
    obtain ⟨rs, hnames, hdir⟩ := ih hcd hlocal
    have hmap : ((⟨cdfh, e.name⟩ :: rs : List DirRecord)).map (·.name)
        = (e :: es).map (·.name) := by
      rw [map_cons, map_cons, hnames]
    refine ⟨⟨cdfh, e.name⟩ :: rs, hmap, hhdr, ?_, ?_, ?_, ?_⟩
    · rw [hnlen]
      exact checkAccess_of_le hd (by omega)
    · rw [hadd, hnlen]
      exact (at_centralRecord hrec).2.2.2.2.2.2.slice_eq
    · intro _
      obtain ⟨hentry, hname, -⟩ := getEntryAtOffset_local hd hloc
      rw [hoff]
      exact ⟨_, hentry, hname⟩
    · rw [hnext]
      exact hdir

/-- An archive that was written is well formed. -/
theorem wellFormed_archive {es : List FileEntry} {comment : List UInt8}
    (hnames : (es.map (·.name)).Nodup) (hsize : (archive es comment).length ≤ 2 ^ 32 - 1) :
    WellFormed ⟨archive es comment, (locals es).length, es.length⟩ := by
  have hd : (archive es comment).length < 2 ^ 32 := by omega
  have hle := length_locals_le es comment
  obtain ⟨hlocals, hcd, -⟩ := at_archive es comment
  obtain ⟨rs, hrs, hdir⟩ := directory_walk hd hcd hlocals
  refine ⟨hd, by show (locals es).length < _; omega, rs, ?_, hdir, hrs ▸ hnames, ?_⟩
  · rw [← length_map (·.name), hrs, length_map]
  · intro r hr
    have hmem : r.name ∈ es.map (·.name) := hrs ▸ mem_map_of_mem hr
    obtain ⟨e, -, he⟩ := mem_map.mp hmem
    rw [← he]
    exact e.noNul

/-! ### The way back -/

/-- What an offset leads to is found again by its name. -/
theorem findEntry_of_findEntryAtOffset {a : Archive} (ha : WellFormed a) {target : Nat}
    {e : ZipEntry} (h : findEntryAtOffset a target = .ok (some e)) :
    findEntry a (e.name a.data) = .ok (some e) ∧ (0 : UInt8) ∉ e.name a.data
      ∧ e.dataOffset ≤ target := by
  obtain ⟨rs, hrecords, hdir, hnodup, hnul⟩ := ha.walk
  unfold findEntryAtOffset at h
  rw [← hrecords] at h
  obtain ⟨⟨r, hr, hflags, hname, hentry⟩, ht⟩ :=
    exists_record_of_findAtOffsetLoop hdir h
  refine ⟨?_, hname ▸ hnul r hr, ht⟩
  unfold findEntry
  rw [hname, ← hrecords,
    findEntryLoop_of_record ha.length_lt ha.cdOffset_lt hdir hnodup hr hflags, hentry]

/-- There is no `!` in the name of a root directory. -/
theorem bang_not_mem_procRoot (pid : Int) : (0x21 : UInt8) ∉ procRoot pid := by
  have hdigit : ∀ c ∈ Nat.toDigits 10 pid.natAbs, UInt8.ofNat c.toNat ≠ 0x21 := by
    intro c hc
    have hisDigit := Nat.isDigit_of_mem_toDigits (by decide) (by decide) hc
    rw [Char.isDigit_iff_toNat] at hisDigit
    have hrange : 48 ≤ c.toNat ∧ c.toNat ≤ 57 := hisDigit
    intro heq
    have hnat : c.toNat % 256 = 33 := by
      rw [← UInt8.toNat_ofNat', heq]
      rfl
    omega
  have hdecimal : ∀ c ∈ decimal pid, UInt8.ofNat c.toNat ≠ 0x21 := by
    intro c hc
    unfold decimal at hc
    split at hc
    · rcases mem_cons.mp hc with rfl | hc
      · decide
      · exact hdigit c hc
    · exact hdigit c hc
  have hproc : ("/proc/".toList.map (fun c => UInt8.ofNat c.toNat)).all (· != 0x21) = true := by
    decide
  have hroot : ("/root".toList.map (fun c => UInt8.ofNat c.toNat)).all (· != 0x21) = true := by
    decide
  intro hmem
  unfold procRoot ascii at hmem
  rw [map_append, map_append, mem_append, mem_append] at hmem
  rcases hmem with hmem | hmem | hmem
  · simpa using all_eq_true.mp hproc _ hmem
  · obtain ⟨c, hc, heq⟩ := mem_map.mp hmem
    exact hdecimal c hc heq
  · simpa using all_eq_true.mp hroot _ hmem

/-- What a name of an entry was made from. -/
theorem exists_of_procfsFindZipEntry {path : List UInt8} {pid : Int} {offset rel : Nat}
    {name : List UInt8} (h : procfsFindZipEntry files path pid offset = .ok (some (name, rel))) :
    (procRoot pid ++ path).length < pathMax ∧ ∃ a e,
      archiveOpen files (procRoot pid ++ path) = .ok (some a)
      ∧ findEntryAtOffset a offset = .ok (some e) ∧ e.compression = 0
      ∧ name = path ++ ([0x21, 0x2f] ++ (e.name a.data).takeWhile (· != 0))
      ∧ rel = (offset + (2 ^ 32 - e.dataOffset)) % 2 ^ 32 := by
  unfold procfsFindZipEntry at h
  split at h
  · cases h
  rename_i hlen
  refine ⟨Nat.lt_of_not_le hlen, ?_⟩
  obtain ⟨_ | a, ha, h⟩ := bind_eq_ok_iff.mp h
  · cases h
  obtain ⟨_ | e, he, h⟩ := bind_eq_ok_iff.mp h
  · cases h
  · dsimp only at h
    split at h
    · cases h
    · next hcomp =>
      cases Except.ok.inj h
      exact ⟨a, e, ha, he, not_not.mp hcomp, rfl, rfl⟩

/-- **The way back.**  The name made for an offset, taken as it is or below the root directory of
    the process, leads to the archive and the entry it was made from, and the offset in the entry
    to the offset in the archive. -/
theorem zipEntry_recovered (path : List UInt8) (pid : Int) (offset : Nat) (ho : offset < 2 ^ 32)
    (hsep : separator path = none)
    (hwf : ∀ a, archiveOpen files (procRoot pid ++ path) = .ok (some a) → WellFormed a)
    (name : List UInt8) (rel : Nat)
    (h : procfsFindZipEntry files path pid offset = .ok (some (name, rel)))
    (root : List UInt8) (hroot : root = [] ∨ root = procRoot pid)
    (hsame : files (root ++ path) = files (procRoot pid ++ path)) :
    ∃ a e, archiveOpen files (procRoot pid ++ path) = .ok (some a)
      ∧ findEntryAtOffset a offset = .ok (some e)
      ∧ openAndFind files (root ++ name) = .ok (some (root ++ path, a, e))
      ∧ e.dataOffset + rel = offset
      ∧ findArchivePathAndOffset files (root ++ name) rel = .ok (some (root ++ path, offset)) := by
  obtain ⟨hlen, a, e, ha, he, hcomp, hname, hrel⟩ := exists_of_procfsFindZipEntry files h
  obtain ⟨hfind, hnul, ht⟩ := findEntry_of_findEntryAtOffset (hwf a ha) he
  have htake : (e.name a.data).takeWhile (· != 0) = e.name a.data := by
    rw [takeWhile_eq_self_iff]
    intro x hx
    exact bne_iff_ne.mpr (fun heq => hnul (heq ▸ hx))
  have hbang : (0x21 : UInt8) ∉ root ∧ root.length ≤ (procRoot pid).length := by
    rcases hroot with rfl | rfl
    · exact ⟨not_mem_nil, Nat.zero_le _⟩
    · exact ⟨bang_not_mem_procRoot pid, le_rfl⟩
  have hrootsep := separator_append_left hbang.1 hsep
  have hfull : root ++ name = (root ++ path) ++ ([0x21, 0x2f] ++ e.name a.data) := by
    rw [hname, htake, append_assoc]
  have hopen : openAndFind files (root ++ name) = .ok (some (root ++ path, a, e)) := by
    have hshort : ¬ pathMax ≤ (root ++ path).length := by
      rw [length_append] at hlen ⊢
      omega
    have hdrop : ((root ++ path) ++ ([0x21, 0x2f] ++ e.name a.data)).drop
        ((root ++ path).length + 2) = e.name a.data := by
      rw [← drop_drop, drop_left]
      rfl
    have harchive : archiveOpen files (root ++ path) = .ok (some a) := by
      unfold archiveOpen at ha ⊢
      rw [hsame]
      exact ha
    unfold openAndFind
    rw [hfull, separator_append hrootsep]
    dsimp only
    rw [if_neg hshort, take_left, harchive, ok_bind]
    dsimp only
    rw [hdrop, hfind]
    rfl
  have hback : e.dataOffset + rel = offset := by
    omega
  refine ⟨a, e, ha, he, hopen, hback, ?_⟩
  unfold findArchivePathAndOffset
  rw [hopen, ok_bind]
  dsimp only
  rw [if_neg (not_not.mpr hcomp), Nat.add_comm rel, hback, Nat.mod_eq_of_lt (by omega)]
  rfl

/-- A process whose archive `/z` has the entry `a`, with its data from offset 31 on. -/
def smallFiles (path : List UInt8) : Option (List UInt8) :=
  if path = [0x2f, 0x7a] ∨ path = procRoot 1 ++ [0x2f, 0x7a] then some (archive [smallEntry] [])
  else none

/-- Offset 33 of `/z` is offset 2 of `/z!/a`. -/
theorem zipEntry_recovered_small :
    ∃ a e, archiveOpen smallFiles (procRoot 1 ++ [0x2f, 0x7a]) = .ok (some a)
      ∧ findEntryAtOffset a 33 = .ok (some e)
      ∧ openAndFind smallFiles [0x2f, 0x7a, 0x21, 0x2f, 0x61] = .ok (some ([0x2f, 0x7a], a, e))
      ∧ e.dataOffset + 2 = 33
      ∧ findArchivePathAndOffset smallFiles [0x2f, 0x7a, 0x21, 0x2f, 0x61] 2
        = .ok (some ([0x2f, 0x7a], 33)) := by
  apply zipEntry_recovered smallFiles [0x2f, 0x7a] 1 33 (by decide) (by decide) _
    [0x2f, 0x7a, 0x21, 0x2f, 0x61] 2 (by decide) [] (Or.inl rfl) (by decide)
  intro a ha
  cases ha
  exact wellFormed_archive (nodup_singleton smallEntry.name) (by decide)

end Bcc.Zip
