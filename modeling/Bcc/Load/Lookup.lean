import Bcc.Load.Program

namespace Bcc.Load

open CText Run

/-!
# Loading a program — the name and the lookup

* `cutName_spec` — what the function makes of the name of the program;
* `findBtfId_spec` — when the lookup of the function to attach to succeeds, in terms of the name and
  of the outcomes of calls.
-/

/-! ### The module in the name -/

/-- How many characters stand in front of the module, in a name that has one. -/
def moduleSkip (name : List Char) : Option Nat :=
  if "kfunc__".toList <+: name then some 7
  else if "kretfunc__".toList <+: name then some 10
  else none

/-- The length of the module. -/
def moduleLen (name : List Char) (skip : Nat) : Option Int :=
  (find "__".toList (name.drop skip)).map fun n : Nat => toInt32 n

/-- A name that has a module has a `__` behind it, and at most 64 characters in front of that. -/
def ModuleFits (name : List Char) : Prop :=
  ∀ skip ∈ moduleSkip name, ∃ n ∈ moduleLen name skip, 0 ≤ n ∧ n ≤ 64

/-- The module, empty if there is none. -/
def modulePart (name : List Char) : List Char :=
  match moduleSkip name with
  | none => []
  | some skip => (name.drop skip).take ((moduleLen name skip).getD 0).toNat

/-- Of two prefixes of a name, one is a prefix of the other. -/
theorem not_starts_of_starts {p q name : List Char} (hp : p <+: name)
    (hpq : p.isPrefixOf q = false ∧ q.isPrefixOf p = false) : ¬ q <+: name := by
  intro hq
  rcases List.prefix_or_prefix_of_prefix hp hq with h | h
  · exact absurd (List.isPrefixOf_iff_prefix.mpr h) (by simp [hpq.1])
  · exact absurd (List.isPrefixOf_iff_prefix.mpr h) (by simp [hpq.2])

variable (name : List Char)

/-- The module is copied exactly if its length fits. -/
theorem cutModule_spec (skip : Nat) :
    ((∃ n ∈ moduleLen name skip, 0 ≤ n ∧ n ≤ 64) → ∃ off, cutModule skip name
        = .ok (off, (name.drop skip).take ((moduleLen name skip).getD 0).toNat))
      ∧ ((¬ ∃ n ∈ moduleLen name skip, 0 ≤ n ∧ n ≤ 64) → ∃ e, cutModule skip name = .error e) := by
  have hcut : cutModule skip name = match moduleLen name skip with
      | none => .error .absentValue
      | some n => if n < 0 ∨ 64 < n then .error .outOfBounds
        else .ok (skip + n.toNat + 2, (name.drop skip).take n.toNat) := by
    unfold cutModule moduleLen
    cases find "__".toList (name.drop skip) with
    | none => rfl
    | some n => rfl
  rw [hcut]
  cases moduleLen name skip with
  | none =>
    refine ⟨?_, fun _ => ⟨_, rfl⟩⟩
    rintro ⟨n, hn, -⟩
    simp at hn
  | some n =>
    have hfits : (∃ k ∈ some n, 0 ≤ k ∧ k ≤ 64) ↔ ¬ (n < 0 ∨ 64 < n) := by
      simp
    rw [hfits]
    constructor
    · intro h
      exact ⟨_, if_neg h⟩
    · intro h
      exact ⟨_, if_pos (not_not.mp h)⟩

/-- **The name is taken apart** exactly if its module fits. -/
theorem cutName_spec :
    (ModuleFits name → ∃ off, cutName name = .ok (off, modulePart name))
      ∧ (¬ ModuleFits name → ∃ e, cutName name = .error e) := by
  unfold ModuleFits modulePart moduleSkip
  by_cases hk : "kfunc__".toList <+: name
  · have hcut : cutName name = cutModule 7 name := by
      unfold cutName
      rw [if_neg (not_starts_of_starts hk (by decide)),
        if_neg (not_starts_of_starts hk (by decide)), if_neg (not_starts_of_starts hk (by decide)),
        if_neg (not_starts_of_starts hk (by decide)), if_pos hk]
    rw [hcut, if_pos hk]
    simpa using cutModule_spec name 7
  · by_cases hr : "kretfunc__".toList <+: name
    · have hcut : cutName name = cutModule 10 name := by
        unfold cutName
        rw [if_neg (not_starts_of_starts hr (by decide)),
          if_neg (not_starts_of_starts hr (by decide)),
          if_neg (not_starts_of_starts hr (by decide)),
          if_neg (not_starts_of_starts hr (by decide)), if_neg hk,
          if_neg (not_starts_of_starts hr (by decide)), if_pos hr]
      rw [hcut, if_neg hk, if_pos hr]
      simpa using cutModule_spec name 10
    · rw [if_neg hk, if_neg hr]
      refine ⟨fun _ => ?_, fun h => absurd (fun _ hskip => by simp at hskip) h⟩
      unfold cutName
      split_ifs <;> exact ⟨_, rfl⟩

theorem copyName_ok (nameOffset : Nat) : ∃ newName, copyName name nameOffset = .ok newName := by
  unfold copyName
  rw [if_neg (by omega)]
  exact ⟨_, rfl⟩

/-! ### The lookup -/

variable (moduleName : List Char) (rounds : List Round)

/-- The loop goes on to the next BTF object. -/
def Round.skipped (r : Round) : Bool :=
  match r.fd, r.info with
  | .ok _, .ok (kernelBtf, name) => !kernelBtf || name ≠ moduleName
  | _, _ => false

/-- The round in which the loop ends. -/
def decisive : Option Round :=
  rounds.find? fun r => !r.skipped moduleName

/-- The BTF of the module was found, and that of the kernel could be loaded. -/
def Round.Reached (r : Round) : Prop :=
  r.fd.isOk = true ∧ r.info.isOk = true ∧ r.vmlinux.isOk = true

/-- The lookup keeps a descriptor. -/
def FindsIn : Prop :=
  ∃ r ∈ decisive moduleName rounds, r.Reached ∧ r.moduleLoads = true ∧ r.id.isOk = true

/-- The lookup goes on with the BTF of a module that could not be loaded. -/
def LacksIn : Prop :=
  ∃ r ∈ decisive moduleName rounds, r.Reached ∧ r.moduleLoads = false

/-- How the loop ends: with a descriptor that it keeps, or with an error and nothing kept. -/
structure Ends (l : Lookup) (finds : Prop) : Prop where
  replay_eq : replay [] l.trace = some (l.fd.toList.map .btfFd)
  fd_iff : l.fd.isSome = true ↔ finds
  ret_iff : 0 ≤ l.ret ↔ finds

section Rounds

variable {moduleName : List Char} {r : Round} {rs : List Round}

theorem decisive_skip (h : r.skipped moduleName = true) :
    decisive moduleName (r :: rs) = decisive moduleName rs :=
  List.find?_cons_of_neg (by simp [h])

theorem decisive_stop (h : r.skipped moduleName = false) : decisive moduleName (r :: rs) = some r :=
  List.find?_cons_of_pos (by simp [h])

/-- A round that ends the loop with an error. -/
theorem ends_error (h : decisive moduleName rs = some r) (hr : ¬ (r.Reached ∧ r.id.isOk = true))
    {l : Lookup} (hreplay : replay [] l.trace = some []) (hfd : l.fd = none) (hret : l.ret < 0) :
    Ends l (FindsIn moduleName rs) := by
  have hfinds : ¬ FindsIn moduleName rs := by
    rintro ⟨r', hr', hreached, -, hid⟩
    cases h.symm.trans hr'
    exact hr ⟨hreached, hid⟩
  refine ⟨by rw [hreplay, hfd]; rfl, ?_, ?_⟩
  · simp [hfd, hfinds]
  · exact iff_of_false (by omega) hfinds

/-- Nothing is lacking in a round that does not get so far. -/
theorem not_lacksIn (h : decisive moduleName rs = some r)
    (hr : ¬ (r.Reached ∧ r.moduleLoads = false)) : ¬ LacksIn moduleName rs := by
  rintro ⟨r', hr', hreached⟩
  cases h.symm.trans hr'
  exact hr hreached

end Rounds

/-- **The loop over all BTF objects.** -/
theorem findInModules_spec (noNext : Nat) (moduleName : List Char) (rounds : List Round) :
    (LacksIn moduleName rounds → findInModules noNext moduleName rounds = .error .absentValue)
      ∧ (¬ LacksIn moduleName rounds → ∃ l, findInModules noNext moduleName rounds = .ok l
        ∧ Ends l (FindsIn moduleName rounds)) := by
  induction rounds with
  | nil =>
    have hnone : decisive moduleName [] = none := rfl
    refine ⟨?_, fun _ => ⟨_, rfl, rfl, ?_, ?_⟩⟩
    · rintro ⟨r, hr, -⟩
      simp [hnone] at hr
    · simp [FindsIn, hnone]
    · refine iff_of_false (by simp) ?_
      rintro ⟨r, hr, -⟩
      simp [hnone] at hr
  | cons r rs ih =>
    cases hfd : r.fd with
    | error e =>
      have hstop : decisive moduleName (r :: rs) = some r :=
        decisive_stop (by simp [Round.skipped, hfd])
      have hr : ¬ r.Reached := by simp [Round.Reached, hfd, Except.toBool]
      refine ⟨fun h => absurd h (not_lacksIn hstop fun h => hr h.1), fun _ => ?_⟩
      simp only [findInModules, hfd]
      exact ⟨_, rfl, ends_error hstop (fun h => hr h.1) rfl rfl (by simp)⟩
    | ok fd =>
      cases hinfo : r.info with
      | error e =>
        have hstop : decisive moduleName (r :: rs) = some r :=
          decisive_stop (by simp [Round.skipped, hinfo])
        have hr : ¬ r.Reached := by simp [Round.Reached, hinfo, Except.toBool]
        refine ⟨fun h => absurd h (not_lacksIn hstop fun h => hr h.1), fun _ => ?_⟩
        simp only [findInModules, hfd, hinfo]
        refine ⟨_, rfl, ends_error hstop (fun h => hr h.1) ?_ rfl (by simp [errOut])⟩
        simp [errOut, replay]
      | ok info =>
        obtain ⟨kernelBtf, name⟩ := info
        by_cases hskip : (!kernelBtf || name ≠ moduleName) = true
        · -- the descriptor is closed, and the loop goes on
          have hskipped : decisive moduleName (r :: rs) = decisive moduleName rs :=
            decisive_skip (by rw [Round.skipped, hfd, hinfo]; exact hskip)
          have hlacks : LacksIn moduleName (r :: rs) ↔ LacksIn moduleName rs := by
            rw [LacksIn, hskipped, LacksIn]
          have hfinds : FindsIn moduleName (r :: rs) ↔ FindsIn moduleName rs := by
            rw [FindsIn, hskipped, FindsIn]
          rw [hlacks]
          simp only [findInModules, hfd, hinfo, if_pos hskip]
          refine ⟨fun h => by rw [ih.1 h]; rfl, fun h => ?_⟩
          obtain ⟨l, hl, hends⟩ := ih.2 h
          rw [hl]
          refine ⟨_, rfl, ?_, ?_, ?_⟩
          · simpa [replay] using hends.replay_eq
          · rw [hfinds]
            exact hends.fd_iff
          · rw [hfinds]
            exact hends.ret_iff
        · -- the BTF of the module itself
          have hstop : decisive moduleName (r :: rs) = some r :=
            decisive_stop (by rw [Round.skipped, hfd, hinfo]; simpa using hskip)
          simp only [findInModules, hfd, hinfo, if_neg hskip]
          cases hvm : r.vmlinux with
          | error e =>
            have hr : ¬ r.Reached := by simp [Round.Reached, hvm, Except.toBool]
            refine ⟨fun h => absurd h (not_lacksIn hstop fun h => hr h.1), fun _ => ?_⟩
            refine ⟨_, rfl, ends_error hstop (fun h => hr h.1) ?_ rfl (by simp [errOut])⟩
            simp [errOut, replay]
          | ok u =>
            have hreached : r.Reached := by
              simp [Round.Reached, hfd, hinfo, hvm, Except.toBool]
            cases hmod : r.moduleLoads with
            | false =>
              refine ⟨fun _ => rfl, fun h => absurd ⟨r, hstop, hreached, hmod⟩ h⟩
            | true =>
              refine ⟨fun h => absurd h (not_lacksIn hstop (by simp [hmod])), fun _ => ?_⟩
              cases hid : r.id with
              | error e =>
                refine ⟨_, rfl, ends_error hstop ?_ ?_ rfl (by simp [errOut])⟩
                · simp [hid, Except.toBool]
                · simp [errOut, replay]
              | ok id =>
                have hfinds : FindsIn moduleName (r :: rs) :=
                  ⟨r, hstop, hreached, hmod, by simp [hid, Except.toBool]⟩
                refine ⟨_, rfl, ?_, ?_, ?_⟩
                · simp [replay]
                · simp [hfinds]
                · simp [hfinds]

variable (K : Kernel) (moduleName : List Char)

/-- The module is one that is looked for among all BTF objects. -/
def Elsewhere : Prop :=
  moduleName ≠ [] ∧ moduleName ≠ "vmlinux".toList

/-- The lookup keeps a descriptor of the module's BTF. -/
def FindsFd : Prop :=
  Elsewhere moduleName ∧ FindsIn moduleName K.rounds

/-- The lookup succeeds. -/
def Finds : Prop :=
  FindsFd K moduleName ∨ ¬ Elsewhere moduleName ∧ 0 ≤ K.vmlinuxId

/-- The lookup needs BTF that could not be loaded. -/
def LacksBtf : Prop :=
  Elsewhere moduleName ∧ LacksIn moduleName K.rounds

/-- **How `find_btf_id` ends.** -/
theorem findBtfId_spec :
    (LacksBtf K moduleName → findBtfId K moduleName = .error .absentValue)
      ∧ (¬ LacksBtf K moduleName → ∃ l, findBtfId K moduleName = .ok l
        ∧ replay [] l.trace = some (l.fd.toList.map .btfFd)
        ∧ (l.fd.isSome = true ↔ FindsFd K moduleName) ∧ (0 ≤ l.ret ↔ Finds K moduleName)) := by
  unfold findBtfId Finds FindsFd LacksBtf
  by_cases hin : moduleName = [] ∨ moduleName = "vmlinux".toList
  · have helse : ¬ Elsewhere moduleName := fun h => hin.elim h.1 h.2
    rw [if_pos hin]
    refine ⟨fun h => absurd h.1 helse, fun _ => ⟨_, rfl, rfl, ?_, ?_⟩⟩
    · simp [helse]
    · simp [helse]
  · have helse : Elsewhere moduleName := not_or.mp hin
    rw [if_neg hin]
    obtain ⟨hlacks, hok⟩ := findInModules_spec K.noNext moduleName K.rounds
    refine ⟨fun h => hlacks h.2, fun h => ?_⟩
    obtain ⟨l, hl, hends⟩ := hok fun h' => h ⟨helse, h'⟩
    refine ⟨l, hl, hends.replay_eq, ?_, ?_⟩
    · rw [hends.fd_iff]
      simp [helse]
    · rw [hends.ret_iff]
      simp [helse]

end Bcc.Load
