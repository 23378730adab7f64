import Bcc.Api.Effects
import Bcc.Usdt.Semaphore

namespace Bcc.Api

open CText List

/-!
# The C++ API — attaching a USDT probe

`attach_usdt` enables the probe, unless the kernel counts up its semaphore itself, and attaches a
uprobe at each location; if one fails, those before it are detached, but the probe stays enabled.

* `attachUsdt`, over `attachLocations` and `cleanUp`;
* `cleanUp_attachLocations` — the records are as before.
-/

/-! ### The object -/

/-- What `USDT::operator==` compares. -/
structure UsdtId where
  provider : String
  name : String
  binaryPath : String
  pid : Int
  probeFunc : String
  deriving DecidableEq, Repr

/-- The object, with the kernel it runs on: `usdt_`, the probe of each of them, and the memory of
    the traced process. -/
structure Object (Key : Type) where
  state : State Key
  refCtrSupported : Bool
  usdts : List UsdtId
  probe : UsdtId → Usdt.Probe
  mem : Usdt.Memory

/-- The object with another probe and other memory. -/
def Object.put {Key : Type} (o : Object Key) (u : UsdtId) (p : Usdt.Probe) (mem : Usdt.Memory) :
    Object Key :=
  { o with probe := Function.update o.probe u p, mem := mem }

/-- What happens outside at one location: the event that `check_binary_symbol` and
    `get_uprobe_event` make of it, the results when it is attached, and when it is detached. -/
structure LocationCalls (Key : Type) where
  event : Option Key
  load : Bool
  attach : Bool
  unload : Bool
  detach : Results

/-- What happens outside in a call of `attach_usdt`. -/
structure UsdtCalls (Key : Type) where
  world : Usdt.World
  io : Usdt.MemCalls
  location : Usdt.Location → Nat → LocationCalls Key

/-- The calls for the locations of a probe, in order. -/
def UsdtCalls.locations {Key : Type} (calls : UsdtCalls Key) (p : Usdt.Probe) :
    List (LocationCalls Key) :=
  p.locations.zipIdx.map fun x => calls.location x.1 x.2

/-! ### The code -/

section Code

variable {Key : Type} [DecidableEq Key]

/-- `attach_uprobe` at an address. -/
def attachUprobe (func : String) (c : LocationCalls Key) (s : State Key) : Bool × State Key :=
  match c.event with
  | none => (false, s)
  | some key => attachEvent .uprobes key func c.load c.attach c.unload s

/-- `detach_uprobe` at an address. -/
def detachUprobe (c : LocationCalls Key) (s : State Key) : Bool × State Key :=
  match c.event with
  | none => (false, s)
  | some key => detach .uprobes key c.detach s

/-- The loop over the locations: whether all were attached, those that were, and the state. -/
def attachLocations (func : String) :
    List (LocationCalls Key) → State Key → Bool × List (LocationCalls Key) × State Key
  | [], s => (true, [], s)
  | c :: cs, s =>
    let res := attachUprobe func c s
    if !res.1 then (false, [], res.2)
    else
      let rest := attachLocations func cs res.2
      (rest.1, c :: rest.2.1, rest.2.2)

/-- The loop that detaches what was attached; a failure is only reported. -/
def cleanUp : List (LocationCalls Key) → State Key → State Key
  | [], s => s
  | c :: cs, s => cleanUp cs (detachUprobe c s).2

variable (calls : UsdtCalls Key) (u : UsdtId) (o : Object Key)

/-- `attach_usdt_without_validation`, once the probe is enabled. -/
def attachEnabled : Bool × Object Key :=
  let res := attachLocations u.probeFunc (calls.locations (o.probe u)) o.state
  if res.1 then (true, { o with state := res.2.2 })
  else (false, { o with state := cleanUp res.2.1 res.2.2 })

/-- `attach_usdt_without_validation` -/
def attachUsdtWithoutValidation : Res (Bool × Object Key) := do
  let (enabled, p, mem) ←
    if o.refCtrSupported then .ok (true, o.probe u, o.mem)
    else (o.probe u).enable calls.world calls.io o.mem u.probeFunc
  let o := o.put u p mem
  if !enabled then return (false, o) else return attachEnabled calls u o

/-- `attach_usdt` -/
def attachUsdt : Res (Bool × Object Key) :=
  if u ∈ o.usdts then attachUsdtWithoutValidation calls u o else .ok (false, o)

end Code

/-! ### Enabling -/

variable (p : Usdt.Probe) (w : Usdt.World) (io : Usdt.MemCalls)

/-- `enable` succeeds: the probe is not attached, and if it has a semaphore, that is found in the
    process and can be written. -/
def CanEnable : Prop :=
  p.attachedTo = none ∧ (p.needEnable = true → p.pid.isSome = true
    ∧ (p.attachedSemaphore.or (p.resolveGlobalAddress w p.binPath p.semaphore)).isSome = true
    ∧ io.Succeed)

instance : Decidable (CanEnable p w io) :=
  inferInstanceAs (Decidable (_ ∧ (_ → _)))

/-- A probe is enabled, or it is left as it is but for the address of its semaphore, and so is the
    memory. -/
theorem enable_cases (mem : Usdt.Memory) (fnName : String) :
    (CanEnable p w io ∧ ∃ a mem', p.enable w io mem fnName
        = .ok (true, { p with attachedTo := some fnName, attachedSemaphore := a }, mem'))
      ∨ (¬ CanEnable p w io ∧ ∃ a, (p.attachedSemaphore.isSome = true → a.isSome = true)
        ∧ p.enable w io mem fnName = .ok (false, { p with attachedSemaphore := a }, mem)) := by
  unfold Usdt.Probe.enable CanEnable
  by_cases hto : p.attachedTo.isSome = true
  · rw [if_pos hto]
    refine Or.inr ⟨fun h => ?_, p.attachedSemaphore, id, rfl⟩
    simp [h.1] at hto
  · have hnone : p.attachedTo = none := Option.not_isSome_iff_eq_none.mp hto
    rw [if_neg hto]
    by_cases hneed : p.needEnable = true
    · rw [if_pos hneed]
      by_cases hpid : p.pid.isSome = true
      · rw [if_neg (by simpa [Option.isSome_iff_ne_none] using hpid)]
        cases haddr : p.attachedSemaphore.or (p.resolveGlobalAddress w p.binPath p.semaphore) with
        | none =>
          rw [Usdt.Probe.addToSemaphore_of_none hpid haddr]
          exact Or.inr ⟨fun h => absurd (h.2 hneed).2.1 (by simp), p.attachedSemaphore, id, rfl⟩
        | some a =>
          rw [Usdt.Probe.addToSemaphore_of_some hpid haddr]
          by_cases hio : io.Succeed
          · rw [if_pos hio]
            exact Or.inl ⟨⟨hnone, fun _ => ⟨hpid, rfl, hio⟩⟩, some a, _, rfl⟩
          · rw [if_neg hio]
            exact Or.inr ⟨fun h => hio (h.2 hneed).2.2, some a, fun _ => rfl, rfl⟩
      · rw [if_pos (by simpa [Option.isSome_iff_ne_none] using hpid)]
        exact Or.inr ⟨fun h => hpid (h.2 hneed).1, p.attachedSemaphore, id, rfl⟩
    · rw [if_neg hneed]
      exact Or.inl ⟨⟨hnone, fun h => absurd h hneed⟩, p.attachedSemaphore, mem, rfl⟩

/-! ### The uprobes -/

section Uprobes

variable {Key : Type} [DecidableEq Key]

/-- The events of some locations. -/
def Events (cs : List (LocationCalls Key)) (keys : List Key) : Prop :=
  cs.map LocationCalls.event = keys.map some

/-- The state has records for the keys, and otherwise those it had. -/
structure Adds (keys : List Key) (s s' : State Key) : Prop where
  nodup : keys.Nodup
  fresh : ∀ k ∈ keys, s.probes.lookup (Table.uprobes, k) = none
  added : ∀ k ∈ keys, (s'.probes.lookup (Table.uprobes, k)).isSome = true
  others : ∀ slot, (∀ k ∈ keys, slot ≠ (Table.uprobes, k)) →
    s'.probes.lookup slot = s.probes.lookup slot

theorem attachUprobe_cases (func : String) (c : LocationCalls Key) (s : State Key) :
    ((attachUprobe func c s).1 = false ∧ (attachUprobe func c s).2.probes = s.probes)
      ∨ ∃ k p, c.event = some k ∧ s.probes.lookup (Table.uprobes, k) = none
        ∧ (attachUprobe func c s).1 = true
        ∧ (attachUprobe func c s).2.probes = s.probes.insert (Table.uprobes, k) p := by
  unfold attachUprobe
  cases hevent : c.event with
  | none => exact .inl ⟨rfl, rfl⟩
  | some k =>
    obtain ⟨funcs, h⟩ | ⟨hkey, funcs, h⟩ :=
      attachEvent_cases s .uprobes k func c.load c.attach c.unload
    · dsimp only
      rw [h]
      exact .inl ⟨rfl, rfl⟩
    · dsimp only
      rw [h]
      exact .inr ⟨k, _, rfl, AList.lookup_eq_none.mpr hkey, rfl, rfl⟩

/-- The loop adds records for the locations that it has attached. -/
theorem attachLocations_adds (func : String) (cs : List (LocationCalls Key)) (s : State Key) :
    ∃ keys, Events (attachLocations func cs s).2.1 keys
      ∧ Adds keys s (attachLocations func cs s).2.2
      ∧ (attachLocations func cs s).2.1 <+: cs := by
  induction cs generalizing s with
  | nil =>
    refine ⟨[], rfl, ⟨nodup_nil, by simp, by simp, fun slot _ => rfl⟩, prefix_refl _⟩
  | cons c cs ih =>
    rw [attachLocations]
    obtain ⟨hfst, hprobes⟩ | ⟨k, p, hevent, hfresh, hfst, hprobes⟩ := attachUprobe_cases func c s
    · simp only [hfst, Bool.not_false, if_true]
      exact ⟨[], rfl, ⟨nodup_nil, by simp, by simp, fun slot _ => by rw [hprobes]⟩,
        nil_prefix⟩
    · simp only [hfst, Bool.not_true, Bool.false_eq_true, if_false]
      obtain ⟨keys, hevents, hadds, hpre⟩ := ih (attachUprobe func c s).2
      -- the key of the first location is taken when the others are attached
      have hk : k ∉ keys := by
        intro hmem
        have hnone := hadds.fresh k hmem
        rw [hprobes, AList.lookup_insert] at hnone
        cases hnone
      have hne : ∀ k' ∈ keys, (Table.uprobes, k') ≠ (Table.uprobes, k) := by
        intro k' hk' heq
        exact hk ((Prod.mk.inj heq).2 ▸ hk')
      refine ⟨k :: keys, ?_, ⟨nodup_cons.mpr ⟨hk, hadds.nodup⟩, ?_, ?_, ?_⟩,
        cons_prefix_cons.mpr ⟨rfl, hpre⟩⟩
      · simpa [Events, hevent] using hevents
      · refine forall_mem_cons.mpr ⟨hfresh, fun k' hk' => ?_⟩
        have hnone := hadds.fresh k' hk'
        rwa [hprobes, AList.lookup_insert_ne (hne k' hk')] at hnone
      · refine forall_mem_cons.mpr ⟨?_, hadds.added⟩
        rw [hadds.others _ fun k' hk' => (hne k' hk').symm, hprobes, AList.lookup_insert]
        rfl
      · intro slot hslot
        obtain ⟨hslotk, hslots⟩ := forall_mem_cons.mp hslot
        rw [hadds.others slot hslots, hprobes, AList.lookup_insert_ne hslotk]

/-- A detach that succeeds takes one record away. -/
theorem detachUprobe_lookup {c : LocationCalls Key} {k : Key} {s : State Key}
    (hevent : c.event = some k) (hadded : (s.probes.lookup (Table.uprobes, k)).isSome = true)
    (hunload : c.detach.unload = true) (hdetach : c.detach.detach = true) :
    (detachUprobe c s).2.probes = s.probes.erase (Table.uprobes, k) := by
  unfold detachUprobe
  rw [hevent]
  obtain ⟨hnone, -⟩ | ⟨p, funcs, -, ⟨-, h⟩ | ⟨hnot, -⟩⟩ := detach_snd .uprobes k c.detach s
  · rw [hnone] at hadded
    cases hadded
  · exact congrArg State.probes h
  · exact absurd ⟨fun _ => hunload, hdetach⟩ hnot

/-- Detaching takes the records of the locations away, and no others. -/
theorem cleanUp_lookup {cs : List (LocationCalls Key)} {keys : List Key} {s : State Key}
    (hevents : Events cs keys) (hnodup : keys.Nodup)
    (hadded : ∀ k ∈ keys, (s.probes.lookup (Table.uprobes, k)).isSome = true)
    (hdetach : ∀ c ∈ cs, c.detach.unload = true ∧ c.detach.detach = true) :
    (∀ k ∈ keys, (cleanUp cs s).probes.lookup (Table.uprobes, k) = none)
      ∧ ∀ slot, (∀ k ∈ keys, slot ≠ (Table.uprobes, k)) →
        (cleanUp cs s).probes.lookup slot = s.probes.lookup slot := by
  induction cs generalizing keys s with
  | nil =>
    cases keys with
    | nil => exact ⟨by simp, fun slot _ => rfl⟩
    | cons k keys => simp [Events] at hevents
  | cons c cs ih =>
    cases keys with
    | nil => simp [Events] at hevents
    | cons k keys =>
      obtain ⟨hevent, hrest⟩ : c.event = some k ∧ Events cs keys := by
        simpa [Events] using hevents
      obtain ⟨hk, hnodup⟩ := nodup_cons.mp hnodup
      obtain ⟨haddedk, hadded⟩ := forall_mem_cons.mp hadded
      obtain ⟨⟨hunload, hdetachc⟩, hdetach⟩ := forall_mem_cons.mp hdetach
      have hprobes := detachUprobe_lookup hevent haddedk hunload hdetachc
      have hne : ∀ k' ∈ keys, (Table.uprobes, k') ≠ (Table.uprobes, k) := by
        intro k' hk' heq
        exact hk ((Prod.mk.inj heq).2 ▸ hk')
      have hadded' : ∀ k' ∈ keys,
          ((detachUprobe c s).2.probes.lookup (Table.uprobes, k')).isSome = true := by
        intro k' hk'
        rw [hprobes, AList.lookup_erase_ne (hne k' hk')]
        exact hadded k' hk'
      obtain ⟨hgone, hothers⟩ := ih hrest hnodup hadded' hdetach
      refine ⟨forall_mem_cons.mpr ⟨?_, hgone⟩, fun slot hslot => ?_⟩
      · rw [cleanUp, hothers _ fun k' hk' => (hne k' hk').symm, hprobes, AList.lookup_erase]
      · obtain ⟨hslotk, hslots⟩ := forall_mem_cons.mp hslot
        rw [cleanUp, hothers slot hslots, hprobes, AList.lookup_erase_ne hslotk]

/-- Attaching and cleaning up leaves the uprobes that were there before. -/
theorem cleanUp_attachLocations {func : String} {cs : List (LocationCalls Key)} {s : State Key}
    (hdetach : ∀ c ∈ cs, c.detach.unload = true ∧ c.detach.detach = true)
    (slot : Table × Key) :
    (cleanUp (attachLocations func cs s).2.1 (attachLocations func cs s).2.2).probes.lookup slot
      = s.probes.lookup slot := by
  obtain ⟨keys, hevents, hadds, hpre⟩ := attachLocations_adds func cs s
  obtain ⟨hgone, hothers⟩ := cleanUp_lookup hevents hadds.nodup hadds.added
    fun c hc => hdetach c (hpre.subset hc)
  by_cases hslot : ∃ k ∈ keys, slot = (Table.uprobes, k)
  · obtain ⟨k, hk, rfl⟩ := hslot
    rw [hgone k hk, hadds.fresh k hk]
  · have hne : ∀ k ∈ keys, slot ≠ (Table.uprobes, k) := fun k hk heq => hslot ⟨k, hk, heq⟩
    rw [hothers slot hne, hadds.others slot hne]

end Uprobes

end Bcc.Api
