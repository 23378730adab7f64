import Bcc.Text.Hex
import Mathlib.Logic.Function.Basic

namespace Bcc.Syms.BuildSyms

open CText Function List

/-!
# Symbols — modules by their build id

* `findBuildid`, `nibbles` — one encoder makes the key of a module from all of a section of the
  file, the other one from 20 bytes of an entry of a stack trace;
* `consulted_iff` — when they agree.
-/

/-- `BPF_BUILD_ID_SIZE` -/
def bpfBuildIdSize : Nat := 20

/-- The section `.note.gnu.build-id` of a file: the header of a note, the name, an id of up to 20
    bytes and zeros behind it. -/
structure BuildIdNote where
  header : List UInt8
  id : List UInt8
  pad : Nat
  header_length : header.length = 12
  id_pos : 1 ≤ id.length
  id_le : id.length ≤ bpfBuildIdSize

namespace BuildIdNote

variable (n : BuildIdNote)

/-- What the section has for the id. -/
def desc : List UInt8 := n.id ++ List.replicate n.pad 0

/-- The data of the section. -/
def data : List UInt8 := n.header ++ [0x47, 0x4e, 0x55, 0] ++ n.desc

/-- The id as the kernel stores it in an entry of a stack trace. -/
def padded : List UInt8 := n.id ++ List.replicate (bpfBuildIdSize - n.id.length) 0

end BuildIdNote

/-- A path leads to no file, to one that is no ELF file, or to one with or without the section. -/
inductive File where
  | missing
  | notElf
  | elf (note : Option BuildIdNote)

/-! ### The code -/

/-- `strcmp(s, "GNU") == 0` -/
def isGnu (s : List UInt8) : Bool := s.takeWhile (· ≠ 0) == [0x47, 0x4e, 0x55]

/-- `find_buildid`, from the data of the section: the string, if there is an id. -/
def findBuildid (data : Option (List UInt8)) : Option (List Char) :=
  match data with
  | none => none
  | some d =>
    if d.length ≤ 16 ∨ !isGnu (d.drop 12) then none
    else some ((d.drop 16).flatMap fun b => (hex b.toNat).leftpad 2 '0')

/-- `buildmap_`: the name of the module under a key. -/
abbrev Buildmap := List Char → Option String

/-- `BuildSyms::add_module`.  The string of the id is written to a buffer on the stack. -/
def addModule (files : String → File) (buildmap : Buildmap) (moduleName : String) :
    Res (Bool × Buildmap) :=
  match files moduleName with
  | .missing => .ok (false, buildmap)
  | .notElf => .ok (false, buildmap)
  | .elf note =>
    match findBuildid (note.map BuildIdNote.data) with
    | none => .ok (false, buildmap)
    | some buildid =>
      if 2 * bpfBuildIdSize + 1 < buildid.length + 1 then .error .outOfBounds
      else .ok (true, update buildmap buildid (some moduleName))

/-- Calls of `bcc_buildsymcache_add_module` in turn. -/
def addModules (files : String → File) : Buildmap → List String → Res Buildmap
  | buildmap, [] => .ok buildmap
  | buildmap, m :: ms => do
    let (_, buildmap') ← addModule files buildmap m
    addModules files buildmap' ms

inductive BuildIdStatus where
  | empty
  | valid
  | ip
  deriving DecidableEq, Repr

/-- `struct bpf_stack_build_id` -/
structure StackBuildId where
  status : BuildIdStatus
  buildId : List UInt8
  offset : UInt64

/-- The loop of `bcc_buildsymcache_resolve` over the bytes of the id. -/
def nibbles (c : List UInt8) : List Char :=
  c.flatMap fun (b : UInt8) =>
    ["0123456789abcdef".toList.getD ((b &&& 0xf0) >>> 4).toNat '0',
      "0123456789abcdef".toList.getD (b &&& 0x0f).toNat '0']

/-- The module that `bcc_buildsymcache_resolve` looks up the entry in, if there is one. -/
def consulted (buildmap : Buildmap) (trace : StackBuildId) : Option String :=
  if trace.status = .empty ∨ trace.status = .ip then none else buildmap (nibbles trace.buildId)

/-- `bcc_buildsymcache_resolve`, with what a module answers to an offset. -/
def bccBuildsymcacheResolve (resolveAddr : String → UInt64 → Bool) (buildmap : Buildmap)
    (trace : StackBuildId) : Int :=
  if trace.status = .empty ∨ trace.status = .ip then 0
  else
    match consulted buildmap trace with
    | none => -1
    | some m => if resolveAddr m trace.offset then 0 else -1

/-! ### The two encoders -/

theorem toNat_high (b : UInt8) : ((b &&& 0xf0) >>> 4).toNat = b.toNat / 16 := by
  have hall : ∀ i : Fin 256, ((UInt8.ofNat i &&& 0xf0) >>> 4).toNat = i / 16 := by
    decide +kernel
  simpa using hall ⟨b.toNat, b.toNat_lt⟩

theorem toNat_low (b : UInt8) : (b &&& 0x0f).toNat = b.toNat % 16 := by
  have hall : ∀ i : Fin 256, (UInt8.ofNat i &&& 0x0f).toNat = i % 16 := by
    decide +kernel
  simpa using hall ⟨b.toNat, b.toNat_lt⟩

theorem digit_getD {k : Nat} (hk : k < 16) :
    "0123456789abcdef".toList.getD k '0' = k.digitChar := by
  have hall : ∀ i : Fin 16, "0123456789abcdef".toList.getD i '0' = Nat.digitChar i := by decide
  exact hall ⟨k, hk⟩

theorem nibbles_eq (c : List UInt8) : nibbles c = hexBytes c := by
  have hbyte : ∀ b : UInt8,
      ["0123456789abcdef".toList.getD ((b &&& 0xf0) >>> 4).toNat '0',
        "0123456789abcdef".toList.getD (b &&& 0x0f).toNat '0'] = hexByte b := by
    intro b
    have hb := b.toNat_lt
    rw [toNat_high, toNat_low, digit_getD (by omega), digit_getD (by omega), hexByte]
  simp only [nibbles, hbyte]
  rfl

theorem findBuildid_data (n : BuildIdNote) :
    findBuildid (some n.data) = some (hexBytes n.desc) := by
  have hname : n.data.drop 12 = [0x47, 0x4e, 0x55, 0] ++ n.desc := by
    rw [BuildIdNote.data, append_assoc, drop_append_of_le_length (by
      rw [n.header_length]), ← n.header_length, drop_length, nil_append]
  have hdesc : n.data.drop 16 = n.desc := by
    have h : n.data.drop (12 + 4) = ([0x47, 0x4e, 0x55, 0] ++ n.desc).drop 4 := by
      rw [← drop_drop, hname]
    exact h
  have hlong : 16 < n.data.length := by
    have hid := n.id_pos
    simp only [BuildIdNote.data, BuildIdNote.desc, length_append, n.header_length, length_cons]
    omega
  have hgnu : isGnu (n.data.drop 12) = true := by
    rw [hname]
    rfl
  simp only [findBuildid, hdesc, leftpad_hex_eq_hexByte]
  rw [if_neg (by simp [hgnu, hlong])]
  rfl

/-! ### The map after any calls -/

variable {files : String → File} {n : BuildIdNote}

variable {buildmap buildmap' : Buildmap}

/-- What a call does: nothing, or the module is kept under the digits of what its section has. -/
theorem addModule_cases {m : String} {added : Bool}
    (h : addModule files buildmap m = .ok (added, buildmap')) :
    ((∀ n, files m ≠ .elf (some n)) ∧ buildmap' = buildmap)
      ∨ ∃ n, files m = .elf (some n)
        ∧ buildmap' = update buildmap (hexBytes n.desc) (some m) := by
  rw [addModule] at h
  cases hfile : files m with
  | missing | notElf =>
    rw [hfile] at h
    exact Or.inl ⟨fun n => by simp, (Prod.mk.inj (Except.ok.inj h)).2.symm⟩
  | elf note =>
    rw [hfile] at h
    cases note with
    | none => exact Or.inl ⟨fun n => by simp, (Prod.mk.inj (Except.ok.inj h)).2.symm⟩
    | some n =>
      simp only [Option.map_some, findBuildid_data] at h
      split_ifs at h
      exact Or.inr ⟨n, rfl, (Prod.mk.inj (Except.ok.inj h)).2.symm⟩

/-- Every module is kept under the digits of what its section has. -/
def Keyed (files : String → File) (buildmap : Buildmap) : Prop :=
  ∀ key m, buildmap key = some m → ∃ n, files m = .elf (some n) ∧ key = hexBytes n.desc

theorem addModule_keyed {m : String} {added : Bool}
    (h : addModule files buildmap m = .ok (added, buildmap')) (hkeyed : Keyed files buildmap) :
    Keyed files buildmap' := by
  obtain ⟨-, rfl⟩ | ⟨n, hn, rfl⟩ := addModule_cases h
  · exact hkeyed
  · intro key m' hm'
    by_cases hkey : key = hexBytes n.desc
    · rw [hkey, update_self] at hm'
      exact ⟨n, Option.some.inj hm' ▸ hn, hkey⟩
    · rw [update_of_ne hkey] at hm'
      exact hkeyed key m' hm'

theorem addModules_keyed {ms : List String} (h : addModules files buildmap ms = .ok buildmap')
    (hkeyed : Keyed files buildmap) : Keyed files buildmap' := by
  induction ms generalizing buildmap with
  | nil => exact Except.ok.inj h ▸ hkeyed
  | cons m ms ih =>
    obtain ⟨⟨added, next⟩, hadd, hrest⟩ := bind_eq_ok_iff.mp h
    exact ih hrest (addModule_keyed hadd hkeyed)

/-- A key stays with its module while no other module with the key is added. -/
theorem addModules_keeps {ms : List String} {key : List Char} {m : String}
    (h : addModules files buildmap ms = .ok buildmap') (hm : buildmap key = some m)
    (hothers : ∀ q ∈ ms, ∀ n, files q = .elf (some n) → hexBytes n.desc = key → q = m) :
    buildmap' key = some m := by
  induction ms generalizing buildmap with
  | nil => exact Except.ok.inj h ▸ hm
  | cons q ms ih =>
    obtain ⟨⟨added, next⟩, hadd, hrest⟩ := bind_eq_ok_iff.mp h
    refine ih hrest ?_ fun q' hq' => hothers q' (mem_cons_of_mem q hq')
    obtain ⟨-, rfl⟩ | ⟨n, hn, rfl⟩ := addModule_cases hadd
    · exact hm
    · by_cases hkey : hexBytes n.desc = key
      · rw [← hkey, update_self, hothers q mem_cons_self n hn hkey]
      · rw [update_of_ne (Ne.symm hkey), hm]

theorem addModules_append {before after : List String}
    (h : addModules files buildmap (before ++ after) = .ok buildmap') :
    ∃ mid, addModules files buildmap before = .ok mid
      ∧ addModules files mid after = .ok buildmap' := by
  induction before generalizing buildmap with
  | nil => exact ⟨buildmap, rfl, h⟩
  | cons m ms ih =>
    obtain ⟨⟨added, next⟩, hadd, hrest⟩ := bind_eq_ok_iff.mp h
    obtain ⟨mid, hmid, hafter⟩ := ih hrest
    exact ⟨mid, bind_eq_ok_iff.mpr ⟨(added, next), hadd, hmid⟩, hafter⟩

/-! ### Looking up an entry -/

/-- A section that has 20 bytes for the id has it as the kernel stores it. -/
theorem desc_eq_padded_iff (n : BuildIdNote) :
    n.desc = n.padded ↔ n.id.length + n.pad = bpfBuildIdSize := by
  have hle := n.id_le
  rw [BuildIdNote.desc, BuildIdNote.padded, append_cancel_left_eq, replicate_inj,
    and_iff_left (Or.inr rfl)]
  omega

theorem desc_eq_padded_of_length {other : BuildIdNote} (h : n.desc = other.padded) :
    n.desc = n.padded := by
  rw [desc_eq_padded_iff]
  have hlen := congrArg List.length h
  have hle := other.id_le
  simp only [BuildIdNote.desc, BuildIdNote.padded, length_append, length_replicate] at hlen
  omega

/-- **Entries and modules.**  After any calls of `add_module`, an entry with the id of a module is
    looked up in that module exactly if the section of its file has 20 bytes for the id, and it is
    never looked up in a module with another id. -/
theorem consulted_iff {before after : List String} {m : String} {buildmap : Buildmap}
    (hrun : addModules files (fun _ => none) (before ++ m :: after) = .ok buildmap)
    (hfile : files m = .elf (some n))
    (hafter : ∀ q ∈ after, ∀ n', files q = .elf (some n') → n'.padded = n.padded → q = m)
    (offset : UInt64) :
    (consulted buildmap ⟨.valid, n.padded, offset⟩ = some m
        ↔ n.id.length + n.pad = bpfBuildIdSize)
      ∧ ∀ q n', files q = .elf (some n') → n'.padded ≠ n.padded →
        consulted buildmap ⟨.valid, n.padded, offset⟩ ≠ some q := by
  have hconsulted :
      consulted buildmap ⟨.valid, n.padded, offset⟩ = buildmap (hexBytes n.padded) := by
    rw [← nibbles_eq]
    rfl
  have hkeyed : Keyed files buildmap :=
    addModules_keyed hrun fun key q hq => absurd hq (by simp)
  have hdesc : ∀ q n', files q = .elf (some n') → buildmap (hexBytes n.padded) = some q →
      n'.desc = n.padded := by
    intro q n' hq hmap
    obtain ⟨n'', hq', hkey⟩ := hkeyed _ _ hmap
    rw [hq] at hq'
    cases File.elf.inj hq'
    exact (hexBytes_injective hkey).symm
  rw [hconsulted]
  refine ⟨⟨fun hmap => ?_, fun hlength => ?_⟩, fun q n' hq hne hmap => ?_⟩
  · exact (desc_eq_padded_iff n).mp (hdesc m n hfile hmap)
  · obtain ⟨mid, -, hlast⟩ := addModules_append hrun
    obtain ⟨⟨added, next⟩, hadd, hrest⟩ := bind_eq_ok_iff.mp hlast
    have hpadded := (desc_eq_padded_iff n).mpr hlength
    refine addModules_keeps hrest ?_ ?_
    · obtain ⟨hnone, -⟩ | ⟨n', hn', rfl⟩ := addModule_cases hadd
      · exact absurd hfile (hnone n)
      · rw [hfile] at hn'
        cases File.elf.inj hn'
        rw [← hpadded, update_self]
    · intro q hq n' hn' hkey
      have hsame := hexBytes_injective hkey
      exact hafter q hq n' hn' ((desc_eq_padded_of_length hsame).symm.trans hsame)
  · have hsame := hdesc q n' hq hmap
    exact hne ((desc_eq_padded_of_length hsame).symm.trans hsame)

/-- An id of 20 bytes, and one of 16 bytes as it comes from `--build-id=md5`. -/
def sha1Note : BuildIdNote :=
  ⟨List.replicate 12 0, List.replicate 20 0xab, 0, by decide, by decide, by decide⟩

def md5Note : BuildIdNote :=
  ⟨List.replicate 12 0, List.replicate 16 0xcd, 0, by decide, by decide, by decide⟩

/-- A file for each of them. -/
def twoFiles (path : String) : File :=
  if path = "sha1" then .elf (some sha1Note)
  else if path = "md5" then .elf (some md5Note)
  else .missing

theorem consulted_sha1 :
    ∃ buildmap, addModules twoFiles (fun _ => none) ["md5", "sha1"] = .ok buildmap
      ∧ consulted buildmap ⟨.valid, sha1Note.padded, 0⟩ = some "sha1" := by
  refine ⟨_, rfl, ?_⟩
  have hiff := @consulted_iff twoFiles sha1Note ["md5"] [] "sha1" _ rfl rfl (by simp) 0
  exact hiff.1.mpr rfl

/-- The module with the shorter id is added, and an entry with its id is not found. -/
theorem not_consulted_md5 :
    (addModule twoFiles (fun _ => none) "md5").map Prod.fst = .ok true
      ∧ ∃ buildmap, addModules twoFiles (fun _ => none) ["md5"] = .ok buildmap
        ∧ consulted buildmap ⟨.valid, md5Note.padded, 0⟩ = none
        ∧ ∀ resolveAddr,
          bccBuildsymcacheResolve resolveAddr buildmap ⟨.valid, md5Note.padded, 0⟩ = -1 :=
  ⟨rfl, _, rfl, rfl, fun _ => rfl⟩

end Bcc.Syms.BuildSyms
