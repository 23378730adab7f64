import Bcc.Api.Effects
import Bcc.Text.Hex
import Bcc.Text.Search

namespace Bcc.Api

open CText List

/-!
# The C++ API — keys of recorded probes

`kprobes_` and `uprobes_` have the name of the event as their key, `perf_events_` has the type and
the config.  A request that has the key of another one is taken for it.

* `getKprobeEvent`, `getUprobeEvent`, `Request.slot` — the keys.
* `Independent` — requests that leave each other alone.
* `Clash`, `limitName_eq_iff` — names that are shortened to the same one, though `std::hash` keeps
  them apart: the digits of a hash are not padded.
* `Apart`, `independent_iff` — what requests must differ in.
-/

/-! ### Names of events -/

/-- `bpf_probe_attach_type`. -/
inductive AttachType where
  | entry
  | ret
  deriving DecidableEq, Repr

/-- `attach_type_prefix`. -/
def attachTypePrefix : AttachType → Char
  | .entry => 'p'
  | .ret => 'r'

def sanitizeStr (str : List Char) (validator : Char → Bool) : List Char :=
  str.map fun c => if validator c then c else '_'

def kprobeEventValidator (c : Char) : Bool := c != '+' && c != '.'

def uprobePathValidator (c : Char) : Bool := c.isAlpha || c.isDigit || c == '_'

def getKprobeEvent (kernelFunc : List Char) (type : AttachType) : List Char :=
  attachTypePrefix type :: '_' :: sanitizeStr kernelFunc kprobeEventValidator

def kEventNameSizeLimit : Nat := 224

/-- `shorten_event_name`; `hash` is `std::hash`. -/
def shortenEventName (hash : List Char → UInt64) (name : List Char) : List Char :=
  let digits := hex (hash name).toNat
  name.take (kEventNameSizeLimit - digits.length) ++ digits

/-- The name of a uprobe, of any length. -/
def uprobeName (binaryPath : List Char) (offset : UInt64) (type : AttachType) (pid : Int) :
    List Char :=
  attachTypePrefix type :: '_' ::
    (sanitizeStr binaryPath uprobePathValidator ++ ('_' :: '0' :: 'x' :: hex offset.toNat)
      ++ if pid = -1 then [] else '_' :: decimal pid)

/-- The end of `get_uprobe_event`. -/
def limitName (hash : List Char → UInt64) (name : List Char) : List Char :=
  if name.length > kEventNameSizeLimit then shortenEventName hash name else name

variable {hash : List Char → UInt64}

theorem limitName_of_le {name : List Char} (h : name.length ≤ kEventNameSizeLimit) :
    limitName hash name = name :=
  if_neg (Nat.not_lt.mpr h)

theorem limitName_of_lt {name : List Char} (h : kEventNameSizeLimit < name.length) :
    limitName hash name = shortenEventName hash name :=
  if_pos h

def getUprobeEvent (hash : List Char → UInt64) (binaryPath : List Char) (offset : UInt64)
    (type : AttachType) (pid : Int) : List Char :=
  limitName hash (uprobeName binaryPath offset type pid)

/-! ### Requests -/

inductive EventKey where
  | event (name : List Char)
  | pair (type config : UInt32)
  deriving DecidableEq, Repr

/-- What is asked to be attached, once the symbol of a uprobe has become an offset in a module. -/
inductive Request where
  | kprobe (kernelFunc : List Char) (offset : UInt64) (type : AttachType)
  | uprobe (module : List Char) (offset : UInt64) (type : AttachType) (pid : Int)
  | perfEvent (type : UInt32) (config : UInt64)
  deriving DecidableEq, Repr

section Keys

variable (hash : List Char → UInt64)

/-- Where the probe of a request is recorded.  The config becomes the second part of a pair of
    `uint32_t`. -/
def Request.slot : Request → Table × EventKey
  | kprobe kernelFunc _ type => (.kprobes, .event (getKprobeEvent kernelFunc type))
  | uprobe module offset type pid => (.uprobes, .event (getUprobeEvent hash module offset type pid))
  | perfEvent type config => (.perfEvents, .pair type config.toUInt32)

/-- `attach_kprobe`, `attach_uprobe` and `attach_perf_event`. -/
def attachRequest (r : Request) (func : String) (load attach : Bool) (attachOnCpus : List Bool)
    (unload : Bool) (s : State EventKey) : State EventKey :=
  match r with
  | .perfEvent .. => (attachPerfEvent (r.slot hash).2 func load attachOnCpus unload s).2
  | _ => (attachEvent (r.slot hash).1 (r.slot hash).2 func load attach unload s).2

/-- `detach_kprobe`, `detach_uprobe` and `detach_perf_event`. -/
def detachRequest (r : Request) (results : Results) (s : State EventKey) : State EventKey :=
  (detach (r.slot hash).1 (r.slot hash).2 results s).2

/-- Attaching one does not make the other fail as already attached, and detaching one leaves the
    other alone. -/
structure Independent (r r' : Request) : Prop where
  attach : ∀ func load attach attachOnCpus unload s, r'.slot hash ∉ s.probes →
    r'.slot hash ∉ (attachRequest hash r func load attach attachOnCpus unload s).probes
  detach : ∀ results s,
    (detachRequest hash r results s).probes.lookup (r'.slot hash) = s.probes.lookup (r'.slot hash)

theorem attachEvent_probes {Key : Type} [DecidableEq Key] (table : Table) (key : Key)
    (func : String) (load attach unload : Bool) (s : State Key) :
    (attachEvent table key func load attach unload s).2.probes = s.probes
    ∨ ∃ p, (attachEvent table key func load attach unload s).2.probes
      = s.probes.insert (table, key) p := by
  rcases attachEvent_cases s table key func load attach unload with ⟨funcs, h⟩ | ⟨-, funcs, h⟩
  · rw [h]
    exact .inl rfl
  · rw [h]
    exact .inr ⟨_, rfl⟩

/-- An attach records the probe in its slot, or it changes nothing. -/
theorem attachRequest_probes (r : Request) (func : String) (load attach : Bool)
    (attachOnCpus : List Bool) (unload : Bool) (s : State EventKey) :
    (attachRequest hash r func load attach attachOnCpus unload s).probes = s.probes
    ∨ ∃ p, (attachRequest hash r func load attach attachOnCpus unload s).probes
      = s.probes.insert (r.slot hash) p := by
  cases r with
  | kprobe | uprobe => exact attachEvent_probes ..
  | perfEvent type config =>
    unfold attachRequest
    rcases attachPerfEvent_snd s (Request.slot hash (.perfEvent type config)).2 func load
      attachOnCpus unload with ⟨funcs, h⟩ | ⟨n, funcs, h⟩ | ⟨-, n, funcs, h⟩
    · rw [h]
      exact .inl rfl
    · rw [h]
      exact .inl rfl
    · rw [h]
      exact .inr ⟨_, rfl⟩

/-- An attach that goes well. -/
theorem slot_mem_attachRequest (r : Request) :
    r.slot hash ∈ (attachRequest hash r "" true true [] true start).probes := by
  cases r with
  | kprobe | uprobe | perfEvent => exact (AList.mem_insert _).mpr (.inl rfl)

/-- Requests leave each other alone if they have different slots. -/
theorem independent_iff_slot_ne (r r' : Request) :
    Independent hash r r' ↔ r.slot hash ≠ r'.slot hash := by
  constructor
  · intro h heq
    apply h.attach "" true true [] true start (AList.notMem_empty _)
    rw [← heq]
    exact slot_mem_attachRequest hash r
  · intro hne
    constructor
    · intro func load attach attachOnCpus unload s hnot
      rcases attachRequest_probes hash r func load attach attachOnCpus unload s with h | ⟨p, h⟩
      · rw [h]
        exact hnot
      · rw [h, AList.mem_insert]
        rintro (heq | hmem)
        · exact hne heq.symm
        · exact hnot hmem
    · intro results s
      unfold detachRequest
      rcases detach_snd (r.slot hash).1 (r.slot hash).2 results s with
        ⟨-, h⟩ | ⟨p, funcs, -, ⟨-, h⟩ | ⟨-, h⟩⟩
      · rw [h]
      · rw [h]
        exact AList.lookup_erase_ne hne.symm
      · rw [h]

end Keys

/-! ### Names that differ -/

/-- Both characters stay as they are, or both end up as `_`. -/
def Alike (validator : Char → Bool) (c c' : Char) : Prop :=
  c = c' ∨ (c = '_' ∨ validator c = false) ∧ (c' = '_' ∨ validator c' = false)

theorem sanitize_char_eq_iff (validator : Char → Bool) (c c' : Char) :
    (if validator c then c else '_') = (if validator c' then c' else '_')
      ↔ Alike validator c c' := by
  unfold Alike
  cases hc : validator c <;> cases hc' : validator c'
  · simp
  · have hcc' : c ≠ c' := by
      rintro rfl
      exact absurd hc (ne_false_of_eq_true hc')
    simp [hcc', eq_comm]
  · have hcc' : c ≠ c' := by
      rintro rfl
      exact absurd hc' (ne_false_of_eq_true hc)
    simp [hcc']
  · simp only [Bool.true_eq_false, or_false]
    constructor
    · exact .inl
    · rintro (h | ⟨h, h'⟩)
      · exact h
      · exact h.trans h'.symm

theorem sanitizeStr_eq_iff (validator : Char → Bool) (str str' : List Char) :
    sanitizeStr str validator = sanitizeStr str' validator
      ↔ List.Forall₂ (Alike validator) str str' := by
  unfold sanitizeStr
  rw [← forall₂_eq_eq_eq]
  simp [sanitize_char_eq_iff]

theorem attachTypePrefix_injective : Function.Injective attachTypePrefix := by
  intro type type' h
  cases type <;> cases type' <;> first | rfl | cases h

theorem getKprobeEvent_eq_iff (kernelFunc kernelFunc' : List Char) (type type' : AttachType) :
    getKprobeEvent kernelFunc type = getKprobeEvent kernelFunc' type'
      ↔ type = type' ∧ List.Forall₂ (Alike kprobeEventValidator) kernelFunc kernelFunc' := by
  unfold getKprobeEvent
  rw [List.cons.injEq, List.cons.injEq, attachTypePrefix_injective.eq_iff, sanitizeStr_eq_iff]
  exact and_congr_right fun _ => and_iff_right rfl

/-- Digits are no separators. -/
theorem separator_notMem_hex (n : Nat) : '_' ∉ '0' :: 'x' :: hex n := by
  intro hmem
  rcases mem_cons.mp hmem with h | hmem
  · cases h
  · rcases mem_cons.mp hmem with h | hmem
    · cases h
    · exact absurd (digitVal_lt_of_mem_hex hmem) (by decide)

theorem separator_notMem_decimal (n : Int) : '_' ∉ decimal n := by
  intro hmem
  rcases mem_decimal hmem with h | h
  · cases h
  · cases h

/-- A decimal number does not look like a hexadecimal one. -/
theorem decimal_ne_hex (n : Int) (m : Nat) : decimal n ≠ '0' :: 'x' :: hex m := by
  intro h
  have hx : 'x' ∈ decimal n := h ▸ mem_cons_of_mem _ mem_cons_self
  rcases mem_decimal hx with h | h
  · cases h
  · cases h

variable {offset offset' : UInt64}

/-- A name with the offset behind its last `_`. -/
theorem path_offset_inj {path path' : List Char}
    (h : path ++ ('_' :: '0' :: 'x' :: hex offset.toNat)
      = path' ++ ('_' :: '0' :: 'x' :: hex offset'.toNat)) : path = path' ∧ offset = offset' := by
  obtain ⟨hpath, hhex⟩ := append_cons_inj_last (separator_notMem_hex _) (separator_notMem_hex _) h
  have hnat := hex_injective (List.cons.inj (List.cons.inj hhex).2).2
  exact ⟨hpath, UInt64.toNat_inj.mp hnat⟩

/-- The path, the offset and the pid can be told from a name. -/
theorem path_offset_pid_inj {path path' : List Char} {pid pid' : Int}
    (h : path ++ ('_' :: '0' :: 'x' :: hex offset.toNat)
        ++ (if pid = -1 then [] else '_' :: decimal pid)
      = path' ++ ('_' :: '0' :: 'x' :: hex offset'.toNat)
        ++ (if pid' = -1 then [] else '_' :: decimal pid')) :
    path = path' ∧ offset = offset' ∧ pid = pid' := by
  split at h <;> split at h
  · next hp hp' =>
    rw [append_nil, append_nil] at h
    obtain ⟨hpath, hoffset⟩ := path_offset_inj h
    exact ⟨hpath, hoffset, hp.trans hp'.symm⟩
  · rw [append_nil] at h
    have hbehind := (append_cons_inj_last (separator_notMem_hex _) (separator_notMem_decimal _) h).2
    exact absurd hbehind.symm (decimal_ne_hex _ _)
  · rw [append_nil] at h
    have hbehind := (append_cons_inj_last (separator_notMem_decimal _) (separator_notMem_hex _) h).2
    exact absurd hbehind (decimal_ne_hex _ _)
  · obtain ⟨hfront, hpid⟩ :=
      append_cons_inj_last (separator_notMem_decimal _) (separator_notMem_decimal _) h
    obtain ⟨hpath, hoffset⟩ := path_offset_inj hfront
    exact ⟨hpath, hoffset, decimal_injective hpid⟩

theorem uprobeName_eq_iff (path path' : List Char) (offset offset' : UInt64)
    (type type' : AttachType) (pid pid' : Int) :
    uprobeName path offset type pid = uprobeName path' offset' type' pid'
      ↔ (type = type' ∧ offset = offset' ∧ pid = pid')
        ∧ List.Forall₂ (Alike uprobePathValidator) path path' := by
  rw [← sanitizeStr_eq_iff]
  constructor
  · intro h
    obtain ⟨htype, h⟩ := List.cons.inj h
    obtain ⟨hpath, hoffset, hpid⟩ := path_offset_pid_inj (List.cons.inj h).2
    exact ⟨⟨attachTypePrefix_injective htype, hoffset, hpid⟩, hpath⟩
  · rintro ⟨⟨rfl, rfl, rfl⟩, hpath⟩
    unfold uprobeName
    rw [hpath]

/-! ### Names that are shortened -/

/-- The second name is shortened to the first one, which is not too long; or the second one has more
    digits in its hash, and the first one has them before its own. -/
def Clash (hash : List Char → UInt64) (name name' : List Char) : Prop :=
  kEventNameSizeLimit < name'.length ∧
    (name.length ≤ kEventNameSizeLimit ∧ name = shortenEventName hash name'
      ∨ kEventNameSizeLimit < name.length ∧ ∃ digits ≠ [],
        hex (hash name').toNat = digits ++ hex (hash name).toNat
          ∧ name.take (kEventNameSizeLimit - (hex (hash name).toNat).length)
            = name'.take (kEventNameSizeLimit - (hex (hash name').toNat).length) ++ digits)

/-- Digits that are the same are those of one hash. -/
theorem clash_of_digits {name name' digits : List Char} (hlong : kEventNameSizeLimit < name.length)
    (hlong' : kEventNameSizeLimit < name'.length) (hhash : hash name = hash name' → name = name')
    (hdigits : hex (hash name').toNat = digits ++ hex (hash name).toNat)
    (htake : name.take (kEventNameSizeLimit - (hex (hash name).toNat).length)
      = name'.take (kEventNameSizeLimit - (hex (hash name').toNat).length) ++ digits) :
    name = name' ∨ Clash hash name name' := by
  by_cases hnil : digits = []
  · rw [hnil] at hdigits
    exact .inl (hhash (UInt64.toNat_inj.mp (hex_injective hdigits).symm))
  · exact .inr ⟨hlong', .inr ⟨hlong, digits, hnil, hdigits, htake⟩⟩

theorem limitName_of_clash {name name' : List Char} (h : Clash hash name name') :
    limitName hash name = limitName hash name' := by
  obtain ⟨hlong', ⟨hle, heq⟩ | ⟨hlong, digits, -, hdigits, htake⟩⟩ := h
  · rw [limitName_of_le hle, limitName_of_lt hlong']
    exact heq
  · rw [limitName_of_lt hlong, limitName_of_lt hlong', shortenEventName, shortenEventName, htake,
      append_assoc, ← hdigits]

theorem not_clash_of_digits {name name' : List Char} (hlong : kEventNameSizeLimit < name.length)
    (hdigits : (hex (hash name).toNat).length = (hex (hash name').toNat).length) :
    ¬ Clash hash name name' := by
  rintro ⟨-, ⟨hle, -⟩ | ⟨-, digits, hne, h, -⟩⟩
  · exact absurd hlong (Nat.not_lt.mpr hle)
  · rw [h, length_append, right_eq_add, length_eq_zero_iff] at hdigits
    exact hne hdigits

/-- **Shortened names.**  If the hash keeps the names apart, they become one only by a clash. -/
theorem limitName_eq_iff {name name' : List Char}
    (hhash : kEventNameSizeLimit < name.length → kEventNameSizeLimit < name'.length →
      hash name = hash name' → name = name') :
    limitName hash name = limitName hash name'
      ↔ name = name' ∨ Clash hash name name' ∨ Clash hash name' name := by
  constructor
  · intro h
    rcases Nat.lt_or_ge kEventNameSizeLimit name.length with hlong | hle <;>
      rcases Nat.lt_or_ge kEventNameSizeLimit name'.length with hlong' | hle'
    · rw [limitName_of_lt hlong, limitName_of_lt hlong'] at h
      have hhash := hhash hlong hlong'
      -- one of the two has digits of the other one's hash in front of its own
      rcases append_eq_append_iff.mp h with ⟨digits, htake, hdigits⟩ | ⟨digits, htake, hdigits⟩
      · exact (clash_of_digits hlong' hlong (fun heq => (hhash heq.symm).symm) hdigits htake).imp
          Eq.symm .inr
      · exact (clash_of_digits hlong hlong' hhash hdigits htake).imp_right .inl
    · rw [limitName_of_lt hlong, limitName_of_le hle'] at h
      exact .inr (.inr ⟨hlong, .inl ⟨hle', h.symm⟩⟩)
    · rw [limitName_of_le hle, limitName_of_lt hlong'] at h
      exact .inr (.inl ⟨hlong', .inl ⟨hle, h⟩⟩)
    · rw [limitName_of_le hle, limitName_of_le hle'] at h
      exact .inl h
  · rintro (rfl | h | h)
    · rfl
    · exact limitName_of_clash h
    · exact (limitName_of_clash h).symm

/-! ### Requests that differ -/

/-- What requests must differ in: the offset of a kprobe does not count, nor do the characters of a
    name that are replaced, nor the upper half of a config.  The names of uprobes must not be
    shortened to the same one either. -/
def Apart (hash : List Char → UInt64) : Request → Request → Prop
  | .kprobe kernelFunc _ type, .kprobe kernelFunc' _ type' =>
    ¬ (type = type' ∧ List.Forall₂ (Alike kprobeEventValidator) kernelFunc kernelFunc')
  | .uprobe module offset type pid, .uprobe module' offset' type' pid' =>
    ¬ ((type = type' ∧ offset = offset' ∧ pid = pid')
        ∧ List.Forall₂ (Alike uprobePathValidator) module module'
      ∨ Clash hash (uprobeName module offset type pid) (uprobeName module' offset' type' pid')
      ∨ Clash hash (uprobeName module' offset' type' pid') (uprobeName module offset type pid))
  | .perfEvent type config, .perfEvent type' config' =>
    ¬ (type = type' ∧ config.toNat % 2 ^ 32 = config'.toNat % 2 ^ 32)
  | _, _ => True

/-- The name of a uprobe, if it is to be shortened. -/
def Request.longName : Request → Option (List Char)
  | uprobe module offset type pid =>
    (some (uprobeName module offset type pid)).filter (kEventNameSizeLimit < ·.length)
  | _ => none

theorem mem_longName {name module : List Char} {type : AttachType} {pid : Int} :
    name ∈ (Request.uprobe module offset type pid).longName
      ↔ uprobeName module offset type pid = name ∧ kEventNameSizeLimit < name.length := by
  simp [Request.longName]

/-- `std::hash` is injective on the names of the two requests that are shortened. -/
def HashApart (hash : List Char → UInt64) (r r' : Request) : Prop :=
  ∀ name ∈ r.longName, ∀ name' ∈ r'.longName, hash name = hash name' → name = name'

theorem slot_ne_iff_apart {r r' : Request} (hhash : HashApart hash r r') :
    r.slot hash ≠ r'.slot hash ↔ Apart hash r r' := by
  cases r with
  | kprobe kernelFunc offset type =>
    cases r' with
    | kprobe kernelFunc' offset' type' =>
      apply not_congr
      simp only [Request.slot, Prod.mk.injEq, true_and, EventKey.event.injEq]
      exact getKprobeEvent_eq_iff kernelFunc kernelFunc' type type'
    | uprobe | perfEvent => exact iff_of_true (fun h => nomatch (Prod.mk.inj h).1) trivial
  | uprobe module offset type pid =>
    cases r' with
    | uprobe module' offset' type' pid' =>
      apply not_congr
      simp only [Request.slot, Prod.mk.injEq, true_and, EventKey.event.injEq]
      rw [← uprobeName_eq_iff]
      exact limitName_eq_iff fun hlong hlong' =>
        hhash _ (mem_longName.mpr ⟨rfl, hlong⟩) _ (mem_longName.mpr ⟨rfl, hlong'⟩)
    | kprobe | perfEvent => exact iff_of_true (fun h => nomatch (Prod.mk.inj h).1) trivial
  | perfEvent type config =>
    cases r' with
    | perfEvent type' config' =>
      apply not_congr
      simp only [Request.slot, Prod.mk.injEq, true_and, EventKey.pair.injEq]
      refine and_congr_right fun _ => ?_
      rw [← UInt32.toNat_inj, UInt64.toNat_toUInt32, UInt64.toNat_toUInt32]
    | kprobe | uprobe => exact iff_of_true (fun h => nomatch (Prod.mk.inj h).1) trivial

/-- **Keys.**  Two requests leave each other alone exactly if they are apart. -/
theorem independent_iff {hash : List Char → UInt64} {r r' : Request} (hhash : HashApart hash r r') :
    Independent hash r r' ↔ Apart hash r r' :=
  (independent_iff_slot_ne hash r r').trans (slot_ne_iff_apart hhash)

/-- The same function of a library with a long path, for one process and for all of them, and a
    hash with as many digits for either name. -/
theorem independent_of_pids :
    Independent (fun name => name.length.toUInt64) (.uprobe (replicate 300 'a') 0x40 .entry (-1))
      (.uprobe (replicate 300 'a') 0x40 .entry 7) := by
  have hpath : (replicate 300 'a').length = 300 := length_replicate
  generalize replicate 300 'a' = path at hpath
  have hlength : ∀ pid, (uprobeName path 0x40 .entry pid).length
      = 307 + (if pid = -1 then [] else '_' :: decimal pid).length := by
    intro pid
    simp only [uprobeName, sanitizeStr, length_cons, length_append, length_map, hpath]
    rw [show (hex (0x40 : UInt64).toNat).length = 2 by decide]
    omega
  have hall : (uprobeName path 0x40 .entry (-1)).length = 307 := by
    rw [hlength]
    decide
  have hone : (uprobeName path 0x40 .entry 7).length = 309 := by
    rw [hlength]
    decide
  have hdigits : (hex (uprobeName path 0x40 .entry (-1)).length.toUInt64.toNat).length
      = (hex (uprobeName path 0x40 .entry 7).length.toUInt64.toNat).length := by
    rw [hall, hone]
    decide
  refine (independent_iff ?_).mpr ?_
  · intro name hname name' hname' h
    obtain ⟨rfl, -⟩ := mem_longName.mp hname
    obtain ⟨rfl, -⟩ := mem_longName.mp hname'
    dsimp only at h
    rw [hall, hone] at h
    exact absurd h (by decide)
  · rintro (⟨⟨-, -, hpid⟩, -⟩ | h | h)
    · exact absurd hpid (by decide)
    · exact not_clash_of_digits (by rw [hall]; decide) hdigits h
    · exact not_clash_of_digits (by rw [hone]; decide) hdigits.symm h

/-- Requests that differ, in the offset of a kprobe, in the path of a uprobe, or in the upper half
    of the config of a perf event, and take each other's key. -/
theorem not_independent_of_key :
    ¬ Independent (fun _ => 0) (.kprobe "vfs_read".toList 0 .entry)
      (.kprobe "vfs_read".toList 4 .entry)
    ∧ ¬ Independent (fun _ => 0) (.uprobe "/opt/a.b".toList 0x40 .entry (-1))
      (.uprobe "/opt/a-b".toList 0x40 .entry (-1))
    ∧ ¬ Independent (fun _ => 0) (.perfEvent 4 0x1c2) (.perfEvent 4 0x1000001c2) := by
  have hpath : sanitizeStr "/opt/a.b".toList uprobePathValidator
      = sanitizeStr "/opt/a-b".toList uprobePathValidator := by decide
  refine ⟨?_, ?_, ?_⟩
  · exact fun h => (independent_iff_slot_ne _ _ _).mp h rfl
  · refine fun h => (independent_iff_slot_ne _ _ _).mp h ?_
    show (Table.uprobes, EventKey.event (getUprobeEvent _ _ _ _ _))
      = (Table.uprobes, EventKey.event (getUprobeEvent _ _ _ _ _))
    unfold getUprobeEvent uprobeName
    rw [hpath]
  · exact fun h => (independent_iff_slot_ne _ _ _).mp h rfl

end Bcc.Api
