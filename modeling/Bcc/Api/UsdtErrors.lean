import Bcc.Api.AttachUsdt

namespace Bcc.Api

open CText Function

/-!
# The C++ API — errors of `attach_usdt`

* `attachUsdt_of_attachedTo` — no later call attaches a probe that is enabled;
* `attachUsdt_error_iff` — after an error the uprobes are those from before, but a probe that
  `attach_usdt` has enabled stays enabled.
-/

variable {Key : Type} [DecidableEq Key] {calls : UsdtCalls Key} {u : UsdtId}
  {o o' : Object Key}

/-- The probe was not enabled by the call: it is not one of the object's, the kernel counts the
    semaphore up itself, or the probe cannot be enabled. -/
def Spared (calls : UsdtCalls Key) (u : UsdtId) (o : Object Key) : Prop :=
  u ∉ o.usdts ∨ o.refCtrSupported = true ∨ ¬ CanEnable (o.probe u) calls.world calls.io

instance (calls : UsdtCalls Key) (u : UsdtId) (o : Object Key) : Decidable (Spared calls u o) :=
  inferInstanceAs (Decidable (_ ∨ _ ∨ _))

/-- The attachment of the probe and the memory of the process are as before. -/
def Intact (u : UsdtId) (o o' : Object Key) : Prop :=
  (o'.probe u).attachedTo = (o.probe u).attachedTo ∧ o'.mem = o.mem

/-! ### How a call ends -/

omit [DecidableEq Key] in
theorem Object.put_self (o : Object Key) (u : UsdtId) : o.put u (o.probe u) o.mem = o := by
  rw [put, update_eq_self]

omit [DecidableEq Key] in
theorem Object.put_probe (o : Object Key) (u : UsdtId) (p : Usdt.Probe) (mem : Usdt.Memory) :
    (o.put u p mem).probe u = p := update_self ..

theorem attachUsdt_cases (calls : UsdtCalls Key) (u : UsdtId) (o : Object Key) :
    u ∉ o.usdts ∧ attachUsdt calls u o = .ok (false, o)
      ∨ u ∈ o.usdts ∧ o.refCtrSupported = true
        ∧ attachUsdt calls u o = .ok (attachEnabled calls u o)
      ∨ u ∈ o.usdts ∧ o.refCtrSupported = false
        ∧ CanEnable (o.probe u) calls.world calls.io
        ∧ (∃ a mem, attachUsdt calls u o = .ok (attachEnabled calls u (o.put u
          { o.probe u with attachedTo := some u.probeFunc, attachedSemaphore := a } mem)))
      ∨ u ∈ o.usdts ∧ o.refCtrSupported = false
        ∧ ¬ CanEnable (o.probe u) calls.world calls.io
        ∧ ∃ a, ((o.probe u).attachedSemaphore.isSome = true → a.isSome = true)
          ∧ attachUsdt calls u o
            = .ok (false, o.put u { o.probe u with attachedSemaphore := a } o.mem) := by
  unfold attachUsdt
  by_cases hu : u ∈ o.usdts
  · right
    rw [if_pos hu, attachUsdtWithoutValidation]
    by_cases href : o.refCtrSupported = true
    · refine Or.inl ⟨hu, href, ?_⟩
      rw [if_pos href, ok_bind]
      dsimp only
      rw [Object.put_self]
      rfl
    · right
      rw [if_neg href]
      obtain ⟨hcan, a, mem, henable⟩ | ⟨hcan, a, ha, henable⟩ :=
        enable_cases (o.probe u) calls.world calls.io o.mem u.probeFunc
      · refine Or.inl ⟨hu, Bool.eq_false_iff.mpr href, hcan, a, mem, ?_⟩
        rw [henable]
        rfl
      · refine Or.inr ⟨hu, Bool.eq_false_iff.mpr href, hcan, a, ha, ?_⟩
        rw [henable]
        rfl
  · rw [if_neg hu]
    exact Or.inl ⟨hu, rfl⟩

/-- A call that fails behind `enable` leaves the probe and the memory, and the uprobes that were
    there. -/
theorem attachEnabled_error (h : attachEnabled calls u o = (false, o'))
    (hdetach : ∀ c ∈ calls.locations (o.probe u),
      c.detach.unload = true ∧ c.detach.detach = true) :
    o' = { o with state := o'.state }
      ∧ ∀ slot, o'.state.probes.lookup slot = o.state.probes.lookup slot := by
  unfold attachEnabled at h
  dsimp only at h
  split_ifs at h
  · exact absurd (Prod.mk.inj h).1 (by simp)
  · obtain rfl := (Prod.mk.inj h).2
    exact ⟨rfl, cleanUp_attachLocations hdetach⟩

/-! ### Later calls -/

/-- A call can succeed: the probe can be enabled or need not be, its locations have events that are
    not recorded, and nothing fails. -/
structure Attachable (calls : UsdtCalls Key) (u : UsdtId) (o : Object Key) : Prop where
  known : u ∈ o.usdts
  enables : o.refCtrSupported = true ∨ CanEnable (o.probe u) calls.world calls.io
  events : ∃ keys, Events (calls.locations (o.probe u)) keys ∧ keys.Nodup
    ∧ ∀ k ∈ keys, o.state.probes.lookup (Table.uprobes, k) = none
  succeed : ∀ c ∈ calls.locations (o.probe u), c.load = true ∧ c.attach = true

theorem attachUprobe_of_fresh {func : String} {c : LocationCalls Key} {k : Key} {s : State Key}
    (hevent : c.event = some k) (hfresh : s.probes.lookup (Table.uprobes, k) = none)
    (hload : c.load = true) (hattach : c.attach = true) : (attachUprobe func c s).1 = true := by
  have hkey : (Table.uprobes, k) ∉ s.probes := AList.lookup_eq_none.mp hfresh
  unfold attachUprobe attachEvent loadFunc
  rw [hevent, hload, hattach]
  dsimp only
  rw [if_neg hkey]
  by_cases hfunc : func ∈ s.funcs
  · rw [if_pos hfunc]
    rfl
  · rw [if_neg hfunc]
    rfl

theorem attachLocations_of_fresh {func : String} {cs : List (LocationCalls Key)} {keys : List Key}
    {s : State Key} (hevents : Events cs keys) (hnodup : keys.Nodup)
    (hfresh : ∀ k ∈ keys, s.probes.lookup (Table.uprobes, k) = none)
    (hsucceed : ∀ c ∈ cs, c.load = true ∧ c.attach = true) :
    (attachLocations func cs s).1 = true := by
  induction cs generalizing keys s with
  | nil => rfl
  | cons c cs ih =>
    cases keys with
    | nil => simp [Events] at hevents
    | cons k keys =>
      obtain ⟨hevent, hrest⟩ : c.event = some k ∧ Events cs keys := by
        simpa [Events] using hevents
      obtain ⟨hk, hnodup⟩ := List.nodup_cons.mp hnodup
      obtain ⟨hfreshk, hfresh⟩ := List.forall_mem_cons.mp hfresh
      obtain ⟨⟨hload, hattach⟩, hsucceed⟩ := List.forall_mem_cons.mp hsucceed
      have hfst := @attachUprobe_of_fresh _ _ func c k s hevent hfreshk hload hattach
      obtain ⟨hfst', -⟩ | ⟨k', p, hevent', -, -, hprobes⟩ := attachUprobe_cases func c s
      · exact absurd (hfst.symm.trans hfst') (by simp)
      · cases hevent.symm.trans hevent'
        rw [attachLocations, hfst]
        refine ih hrest hnodup (fun k' hk' => ?_) hsucceed
        have hne : (Table.uprobes, k') ≠ (Table.uprobes, k) :=
          fun heq => hk ((Prod.mk.inj heq).2 ▸ hk')
        rw [hprobes, AList.lookup_insert_ne hne]
        exact hfresh k' hk'

theorem attachEnabled_of_fresh {keys : List Key}
    (hevents : Events (calls.locations (o.probe u)) keys) (hnodup : keys.Nodup)
    (hfresh : ∀ k ∈ keys, o.state.probes.lookup (Table.uprobes, k) = none)
    (hsucceed : ∀ c ∈ calls.locations (o.probe u), c.load = true ∧ c.attach = true) :
    ∃ o', attachEnabled calls u o = (true, o') :=
  ⟨_, if_pos (attachLocations_of_fresh hevents hnodup hfresh hsucceed)⟩

/-- A call that can succeed does. -/
theorem attachUsdt_of_attachable (h : Attachable calls u o) :
    ∃ o', attachUsdt calls u o = .ok (true, o') := by
  obtain ⟨keys, hevents, hnodup, hfresh⟩ := h.events
  obtain ⟨hu, -⟩ | ⟨-, -, hrun⟩ | ⟨-, -, -, a, mem, hrun⟩ | ⟨-, href, hcan, -⟩ :=
    attachUsdt_cases calls u o
  · exact absurd h.known hu
  · obtain ⟨o', ho'⟩ := attachEnabled_of_fresh hevents hnodup hfresh h.succeed
    exact ⟨o', by rw [hrun, ho']⟩
  · have hlocations : calls.locations ((o.put u { o.probe u with
        attachedTo := some u.probeFunc, attachedSemaphore := a } mem).probe u)
          = calls.locations (o.probe u) := by
      rw [Object.put_probe]
      rfl
    rw [← hlocations] at hevents
    obtain ⟨o', ho'⟩ := attachEnabled_of_fresh hevents hnodup hfresh
      (hlocations ▸ h.succeed)
    exact ⟨o', by rw [hrun, ho']⟩
  · rcases h.enables with hyes | hyes
    · exact absurd (href.symm.trans hyes) (by simp)
    · exact absurd hyes hcan

/-! ### Errors -/

theorem canEnable_known {p : Usdt.Probe} {w : Usdt.World} {io : Usdt.MemCalls} {a : Option UInt64}
    (h : CanEnable p w io) (ha : p.attachedSemaphore.isSome = true → a.isSome = true) :
    CanEnable { p with attachedSemaphore := a } w io := by
  refine ⟨h.1, fun hneed => ?_⟩
  obtain ⟨hpid, hknown, hio⟩ := h.2 hneed
  refine ⟨hpid, ?_, hio⟩
  rw [Option.isSome_or, Bool.or_eq_true] at hknown ⊢
  exact hknown.imp_left ha

/-- A later call can succeed with the same uprobes recorded, and the same probe but for the address
    of its semaphore. -/
theorem Attachable.transfer {a : Option UInt64} (h : Attachable calls u o)
    (hslots : ∀ slot, o'.state.probes.lookup slot = o.state.probes.lookup slot)
    (husdts : o'.usdts = o.usdts) (href : o'.refCtrSupported = o.refCtrSupported)
    (hprobe : o'.probe u = { o.probe u with attachedSemaphore := a })
    (ha : (o.probe u).attachedSemaphore.isSome = true → a.isSome = true) :
    Attachable calls u o' := by
  have hlocations : calls.locations (o'.probe u) = calls.locations (o.probe u) := by
    rw [hprobe]
    rfl
  obtain ⟨keys, hevents, hnodup, hfresh⟩ := h.events
  refine ⟨husdts ▸ h.known, ?_, ⟨keys, hlocations ▸ hevents, hnodup, fun k hk => ?_⟩,
    hlocations ▸ h.succeed⟩
  · rw [href, hprobe]
    exact h.enables.imp_right fun hcan => canEnable_known hcan ha
  · rw [hslots, hfresh k hk]

/-- A probe that is attached is not attached once more. -/
theorem attachUsdt_of_attachedTo {later : UsdtCalls Key} {o'' : Object Key}
    (href : o.refCtrSupported = false) (hto : (o.probe u).attachedTo ≠ none) :
    attachUsdt later u o ≠ .ok (true, o'') := by
  intro hrun
  obtain ⟨-, h⟩ | ⟨-, href', -⟩ | ⟨-, -, hcan, -⟩ | ⟨-, -, -, a, -, h⟩ := attachUsdt_cases later u o
  · rw [h] at hrun
    exact absurd (Prod.mk.inj (Except.ok.inj hrun)).1 (by simp)
  · exact absurd (href.symm.trans href') (by simp)
  · exact hto hcan.1
  · rw [h] at hrun
    exact absurd (Prod.mk.inj (Except.ok.inj hrun)).1 (by simp)

/-- **Errors of `attach_usdt`.**  After an error, with detaching what was attached succeeding, the
    uprobes are as before.  The probe and its semaphore are as before exactly if the probe was not
    enabled; then a later call succeeds if it could have before, and otherwise none does. -/
theorem attachUsdt_error_iff (herror : attachUsdt calls u o = .ok (false, o'))
    (hdetach : ∀ c ∈ calls.locations (o.probe u),
      c.detach.unload = true ∧ c.detach.detach = true) :
    (∀ slot, o'.state.probes.lookup slot = o.state.probes.lookup slot)
      ∧ (Intact u o o' ↔ Spared calls u o)
      ∧ (Spared calls u o → ∀ later, Attachable later u o →
        ∃ o'', attachUsdt later u o' = .ok (true, o''))
      ∧ (¬ Spared calls u o → ∀ later o'', attachUsdt later u o' ≠ .ok (true, o'')) := by
  obtain ⟨hu, hrun⟩ | ⟨-, href, hrun⟩ | ⟨hu, href, hcan, a, mem, hrun⟩
    | ⟨-, -, hcan, a, ha, hrun⟩ := attachUsdt_cases calls u o
  · -- a probe that the object does not know
    obtain rfl := (Prod.mk.inj (Except.ok.inj (hrun.symm.trans herror))).2
    have hspared : Spared calls u o := Or.inl hu
    exact ⟨fun slot => rfl, iff_of_true ⟨rfl, rfl⟩ hspared,
      fun _ later hlater => attachUsdt_of_attachable hlater, fun h => absurd hspared h⟩
  · -- a kernel that counts the semaphore up itself
    obtain ⟨hsame, hslots⟩ := attachEnabled_error (Except.ok.inj (hrun.symm.trans herror)) hdetach
    have hspared : Spared calls u o := Or.inr (Or.inl href)
    rw [hsame]
    exact ⟨hslots, iff_of_true ⟨rfl, rfl⟩ hspared, fun _ later hlater =>
      attachUsdt_of_attachable (hlater.transfer hslots rfl rfl rfl id), fun h => absurd hspared h⟩
  · -- the probe was enabled
    have hprobe : (o.put u { o.probe u with
        attachedTo := some u.probeFunc, attachedSemaphore := a } mem).probe u
          = { o.probe u with attachedTo := some u.probeFunc, attachedSemaphore := a } :=
      o.put_probe u _ mem
    have hdetach' : ∀ c ∈ calls.locations ((o.put u { o.probe u with
        attachedTo := some u.probeFunc, attachedSemaphore := a } mem).probe u),
        c.detach.unload = true ∧ c.detach.detach = true := by
      rw [hprobe]
      exact hdetach
    obtain ⟨hsame, hslots⟩ := attachEnabled_error (Except.ok.inj (hrun.symm.trans herror)) hdetach'
    have hnot : ¬ Spared calls u o := by
      rintro (h | h | h)
      · exact h hu
      · exact absurd (href.symm.trans h) (by simp)
      · exact h hcan
    have hto : (o'.probe u).attachedTo = some u.probeFunc := by
      rw [hsame]
      exact congrArg Usdt.Probe.attachedTo hprobe
    refine ⟨hslots, iff_of_false ?_ hnot, fun h => absurd h hnot, fun _ later o'' => ?_⟩
    · rintro ⟨hsame', -⟩
      rw [hto, hcan.1] at hsame'
      cases hsame'
    · apply attachUsdt_of_attachedTo
      · rw [hsame]
        exact href
      · rw [hto]
        exact Option.some_ne_none _
  · -- the probe cannot be enabled
    obtain rfl := (Prod.mk.inj (Except.ok.inj (hrun.symm.trans herror))).2
    have hspared : Spared calls u o := Or.inr (Or.inr hcan)
    have hprobe : (o.put u { o.probe u with attachedSemaphore := a } o.mem).probe u
        = { o.probe u with attachedSemaphore := a } := o.put_probe u _ o.mem
    refine ⟨fun slot => rfl, iff_of_true ⟨?_, rfl⟩ hspared, fun _ later hlater => ?_,
      fun h => absurd hspared h⟩
    · have hto := congrArg Usdt.Probe.attachedTo hprobe
      exact hto
    · exact attachUsdt_of_attachable (hlater.transfer (fun slot => rfl) rfl rfl hprobe ha)

/-! ### A probe of two locations -/

/-- A probe with a semaphore and two locations. -/
def twoLocations : Usdt.Probe where
  binPath := "/bin/app"
  provider := "app"
  name := "probe"
  semaphore := 0x1000
  semaphoreOffset := 0x1000
  locations := [⟨0x400, "/bin/app", []⟩, ⟨0x500, "/bin/app", []⟩]
  pid := some 7
  attachedTo := none
  attachedSemaphore := none
  modMatchInodeOnly := 0
  located := by simp

def appProbe : UsdtId := ⟨"app", "probe", "/bin/app", 7, "on_probe"⟩

/-- The object with the probe, on a kernel that counts semaphores or does not. -/
def appObject (refCtrSupported : Bool) : Object Nat :=
  ⟨start, refCtrSupported, [appProbe], fun _ => twoLocations, fun _ => 0⟩

/-- The second location cannot be attached, if it is to fail. -/
def appCalls (fails : Bool) : UsdtCalls Nat where
  world := .plain
  io := ⟨true, true, true, true, true⟩
  location _ i := ⟨some i, true, !(fails && i == 1), true, ⟨fun _ => true, true, true⟩⟩

/-- On a kernel that counts semaphores the probe can be attached later. -/
theorem attachUsdt_error_refCtr : ∃ o', attachUsdt (appCalls true) appProbe (appObject true)
      = .ok (false, o')
    ∧ Intact appProbe (appObject true) o' := by
  refine ⟨_, rfl, ?_⟩
  have h := @attachUsdt_error_iff Nat _ (appCalls true) appProbe (appObject true) _ rfl (by decide)
  exact h.2.1.mpr (by decide)

/-- On another one it stays enabled, its semaphore is counted up, and the next call fails, too. -/
theorem attachUsdt_error_enabled : ∃ o', attachUsdt (appCalls true) appProbe (appObject false)
      = .ok (false, o')
    ∧ (o'.probe appProbe).attachedTo = some "on_probe" ∧ o'.mem 0x1000 = 1
    ∧ (attachUsdt (appCalls false) appProbe o').map Prod.fst = .ok false := by
  refine ⟨_, rfl, rfl, rfl, rfl⟩

end Bcc.Api
