import Bcc.Maps.Create
import Mathlib.Data.List.Perm.Basic

namespace Bcc.Maps

open Function List Posix

/-!
# Maps of a module — a pass

* `createLoop_granted` — a pass does not fail if every call is granted and every inner map is there;
* `createLoop_kept` — it closes no descriptor, also if it fails.
-/

variable {kernel : Kernel} {cfg : Config} {defs : List (Int × MapDef)}

/-! ### One map -/

/-- The definition is that of a map of maps that is to be created. -/
def isOuter (d : MapDef) : Prop := d.mapType.ofMaps = true ∧ d.pinnedId ≤ 0

/-- The map of a definition was created with an inner map. -/
structure Makes (cfg : Config) (forInnerMap : Bool) (st : Passes) (fakeFd : Int) (d : MapDef)
    (innerMapFd : Nat) (st' : Passes) : Prop where
  fds : st'.proc.fds = st.proc.fds.addFrom 3 (.map (callOf cfg d innerMapFd))
  opened : st'.proc.opened = st.proc.opened ++ [callOf cfg d innerMapFd]
  mapFds : st'.mapFds = update st.mapFds fakeFd (some (st.proc.fds.freeFrom 3))
  innerMapFds : st'.innerMapFds = if forInnerMap
    then update st.innerMapFds d.name (some (st.proc.fds.freeFrom 3)) else st.innerMapFds
  inner : isOuter d → st.proc.isMap innerMapFd = true

variable {fd : Nat}

theorem isMap_iff {p : Proc} : p.isMap fd = true ↔ ∃ c, (fd, Obj.map c) ∈ p.fds.entries := by
  rw [Proc.isMap, any_eq_true]
  constructor
  · rintro ⟨⟨n, k⟩, hmem, h⟩
    cases k with
    | map c =>
      obtain rfl : n = fd := by simpa [Obj.isMap] using h
      exact ⟨c, hmem⟩
    | other => simp [Obj.isMap] at h
  · rintro ⟨c, hmem⟩
    exact ⟨_, hmem, by simp [Obj.isMap]⟩

theorem opened_append (p : Proc) {c : Call} (hc : c.opens = true) (fds : Fds Obj) :
    Proc.opened ⟨fds, p.log ++ [c]⟩ = p.opened ++ [c] := by
  simp [Proc.opened, hc]

theorem openMap_some {p p' : Proc} {c : Call} (h : p.openMap kernel c = (some fd, p')) :
    fd = p.fds.freeFrom 3 ∧ p' = ⟨p.fds.addFrom 3 (.map c), p.log ++ [c]⟩ := by
  unfold Proc.openMap at h
  split at h
  · exact ⟨(Option.some.inj (Prod.mk.inj h).1).symm, (Prod.mk.inj h).2.symm⟩
  · cases (Prod.mk.inj h).1

variable {innerMapFd : Nat} {d : MapDef}

/-- A descriptor that is got is new, and the call for it is the one of the definition. -/
theorem openDef_some {p p' : Proc} (h : openDef kernel cfg p d innerMapFd = (some fd, p')) :
    fd = p.fds.freeFrom 3
      ∧ p' = ⟨p.fds.addFrom 3 (.map (callOf cfg d innerMapFd)), p.log ++ [callOf cfg d innerMapFd]⟩
      ∧ (isOuter d → p.isMap innerMapFd = true) := by
  unfold openDef at h
  unfold callOf
  split at h
  · next hpinned =>
    unfold bccCreateMapXattr at h
    split at h
    · cases (Prod.mk.inj h).1
    · next hinner =>
      obtain ⟨hfd, hp⟩ := openMap_some h
      refine ⟨hfd, by rw [if_pos hpinned]; exact hp, fun houter => ?_⟩
      have hmaps : (attrOf cfg d innerMapFd).mapType.ofMaps = true := houter.1
      have hmap : p.isMap (attrOf cfg d innerMapFd).innerMapFd = true := by
        simpa [hmaps] using hinner
      exact hmap
  · next hpinned =>
    obtain ⟨hfd, hp⟩ := openMap_some h
    exact ⟨hfd, by rw [if_neg hpinned]; exact hp, fun houter => absurd houter.2 hpinned⟩

theorem callOf_opens (d : MapDef) (innerMapFd : Nat) : (callOf cfg d innerMapFd).opens = true := by
  unfold callOf
  split <;> rfl

/-- Pinning a map leaves the descriptors as they are. -/
theorem pinDef_snd (kernel : Kernel) (p : Proc) (d : MapDef) (fd : Nat) :
    (pinDef kernel p d fd).2.fds = p.fds ∧ (pinDef kernel p d fd).2.opened = p.opened := by
  unfold pinDef
  split
  · simp [bpfObjPin, Proc.call, Proc.opened, Call.opens]
  · exact ⟨rfl, rfl⟩

theorem createMap_true {forInnerMap : Bool} {st st' : Passes} {fakeFd : Int}
    (h : createMap kernel cfg forInnerMap st fakeFd d innerMapFd = (st', true)) :
    Makes cfg forInnerMap st fakeFd d innerMapFd st' := by
  unfold createMap at h
  split at h
  · cases (Prod.mk.inj h).2
  rename_i fd p hopen
  obtain ⟨rfl, rfl, hinner⟩ := openDef_some hopen
  split at h
  · cases (Prod.mk.inj h).2
  · next p' hpin =>
    obtain rfl := (Prod.mk.inj h).1
    obtain ⟨hfds, hopened⟩ := pinDef_snd kernel
      ⟨st.proc.fds.addFrom 3 (.map (callOf cfg d innerMapFd)),
        st.proc.log ++ [callOf cfg d innerMapFd]⟩ d (st.proc.fds.freeFrom 3)
    rw [hpin] at hfds hopened
    exact ⟨hfds, hopened.trans (opened_append _ (callOf_opens d innerMapFd) _), rfl, rfl, hinner⟩

namespace Makes

variable {forInnerMap : Bool} {st st' : Passes} {fakeFd : Int} {d : MapDef} {innerMapFd : Nat}
  (h : Makes cfg forInnerMap st fakeFd d innerMapFd st')
include h

theorem entries :
    st'.proc.fds.entries
      = (st.proc.fds.freeFrom 3, Obj.map (callOf cfg d innerMapFd)) :: st.proc.fds.entries := by
  rw [h.fds]
  rfl

theorem kept : ∀ e ∈ st.proc.fds.entries, e ∈ st'.proc.fds.entries := by
  intro e he
  rw [h.entries]
  exact mem_cons_of_mem _ he

theorem isMap {fd : Nat} (hmap : st.proc.isMap fd = true) : st'.proc.isMap fd = true := by
  obtain ⟨c, hc⟩ := isMap_iff.mp hmap
  exact isMap_iff.mpr ⟨c, h.kept _ hc⟩

theorem mapFds_self : st'.mapFds fakeFd = some (st.proc.fds.freeFrom 3) := by
  rw [h.mapFds, update_self]

theorem mapFds_of_ne {f : Int} (hf : f ≠ fakeFd) : st'.mapFds f = st.mapFds f := by
  rw [h.mapFds, update_of_ne hf]

end Makes

theorem openMap_kept (kernel : Kernel) (p : Proc) (c : Call) :
    ∀ e ∈ p.fds.entries, e ∈ (p.openMap kernel c).2.fds.entries := by
  intro e he
  unfold Proc.openMap
  split
  · exact mem_cons_of_mem _ he
  · exact he

theorem openDef_kept (kernel : Kernel) (cfg : Config) (p : Proc) (d : MapDef) (innerMapFd : Nat) :
    ∀ e ∈ p.fds.entries, e ∈ (openDef kernel cfg p d innerMapFd).2.fds.entries := by
  intro e he
  unfold openDef bccCreateMapXattr bpfMapGetFdById
  split
  · split
    · exact he
    · exact openMap_kept kernel p _ e he
  · exact openMap_kept kernel p _ e he

theorem createMap_kept (kernel : Kernel) (cfg : Config) (forInnerMap : Bool) (st : Passes)
    (fakeFd : Int) (d : MapDef) (innerMapFd : Nat) :
    ∀ e ∈ st.proc.fds.entries,
      e ∈ (createMap kernel cfg forInnerMap st fakeFd d innerMapFd).1.proc.fds.entries := by
  intro e he
  have hopen := openDef_kept kernel cfg st.proc d innerMapFd e he
  unfold createMap
  split
  · next p heq =>
    rw [heq] at hopen
    exact hopen
  · next fd p heq =>
    rw [heq] at hopen
    have hpin := (pinDef_snd kernel p d fd).1
    split
    · next p' hpin' =>
      rw [hpin'] at hpin
      exact hpin ▸ hopen
    · next p' hpin' =>
      rw [hpin'] at hpin
      exact hpin ▸ hopen

/-- A kernel that grants every call. -/
def granting : Kernel := fun _ => true

theorem openDef_granted (cfg : Config) {p : Proc} (h : isOuter d → p.isMap innerMapFd = true) :
    (openDef granting cfg p d innerMapFd).1 = some (p.fds.freeFrom 3) := by
  unfold openDef
  split
  · next hpinned =>
    have hgranted : ((attrOf cfg d innerMapFd).mapType.ofMaps
        && !p.isMap (attrOf cfg d innerMapFd).innerMapFd) = false := by
      have hinner : d.mapType.ofMaps = true → p.isMap innerMapFd = true := fun hmaps =>
        h ⟨hmaps, hpinned⟩
      simpa [attrOf] using hinner
    simp [bccCreateMapXattr, hgranted, Proc.openMap, granting]
  · simp [bpfMapGetFdById, Proc.openMap, granting]

theorem createMap_granted (cfg : Config) (forInnerMap : Bool) {st : Passes} (fakeFd : Int)
    (h : isOuter d → st.proc.isMap innerMapFd = true) :
    (createMap granting cfg forInnerMap st fakeFd d innerMapFd).2 = true := by
  have hopen := openDef_granted cfg h
  have hpin : ∀ p fd, (pinDef granting p d fd).1 = true := fun p fd => by
    unfold pinDef
    split <;> rfl
  unfold createMap
  split
  · next p hnone => simp [hnone] at hopen
  · next fd p _ =>
    split
    · next p' hfalse => simpa [hfalse] using hpin p fd
    · rfl

/-! ### A pass -/

theorem choose_take_proc {forInnerMap : Bool} {names : List String} {st st₁ : Passes}
    (h : choose forInnerMap names st d = .take innerMapFd st₁) : st₁.proc = st.proc := by
  unfold choose at h
  split at h
  · split at h
    · cases h
    · split at h
      · cases h
      · rw [(Choice.take.inj h).2]
  · split at h
    · cases h
    · split at h <;> rw [← (Choice.take.inj h).2]

/-- The step of a pass keeps a property of the definitions so far and the state. -/
structure Kept (cfg : Config) (forInnerMap : Bool) (defs : List (Int × MapDef))
    (P : List (Int × MapDef) → Passes → Prop) : Prop where
  skip : ∀ done m rest st, defs = done ++ m :: rest → P done st →
    choose forInnerMap (innerMaps defs) st m.2 = .skip → P (done ++ [m]) st
  take : ∀ done m rest st innerMapFd st₁ st₂, defs = done ++ m :: rest → P done st →
    choose forInnerMap (innerMaps defs) st m.2 = .take innerMapFd st₁ →
    Makes cfg forInnerMap st₁ m.1 m.2 innerMapFd st₂ → P (done ++ [m]) st₂

section Loop

variable {forInnerMap : Bool} {P : List (Int × MapDef) → Passes → Prop} {st st' : Passes}

/-- **The rule for a pass.**  What holds before a pass and is kept when a map is skipped or created
    holds after the pass, if it does not fail. -/
theorem createLoop_rule (hP : Kept cfg forInnerMap defs P) (hst : P [] st)
    (h : createMaps kernel cfg defs forInnerMap st = (st', true)) : P defs st' := by
  suffices hall : ∀ ms done st, defs = done ++ ms → P done st →
      createLoop kernel cfg forInnerMap (innerMaps defs) ms st = (st', true) → P defs st' from
    hall defs [] st rfl hst h
  intro ms
  induction ms with
  | nil =>
    intro done st hdefs hst h
    obtain rfl := (Prod.mk.inj h).1
    rwa [hdefs, append_nil]
  | cons m ms ih =>
    intro done st hdefs hst h
    have hdefs' := hdefs.trans (append_cons done m ms)
    rw [createLoop] at h
    split at h
    · next hchoose => exact ih _ st hdefs' (hP.skip done m ms st hdefs hst hchoose) h
    · cases (Prod.mk.inj h).2
    · next innerMapFd st₁ hchoose =>
      split at h
      · next st₂ hcreate =>
        exact ih _ st₂ hdefs'
          (hP.take done m ms st innerMapFd st₁ st₂ hdefs hst hchoose (createMap_true hcreate)) h
      · cases (Prod.mk.inj h).2

/-- A pass does not fail if its calls are granted, as long as the inner maps are maps. -/
theorem createLoop_granted (hP : Kept cfg forInnerMap defs P) (hst : P [] st)
    (hgo : ∀ done m rest st, defs = done ++ m :: rest → P done st →
      choose forInnerMap (innerMaps defs) st m.2 ≠ .fail
        ∧ ∀ innerMapFd st₁, choose forInnerMap (innerMaps defs) st m.2 = .take innerMapFd st₁ →
          isOuter m.2 → st₁.proc.isMap innerMapFd = true) :
    (createMaps granting cfg defs forInnerMap st).2 = true := by
  suffices hall : ∀ ms done st, defs = done ++ ms → P done st →
      (createLoop granting cfg forInnerMap (innerMaps defs) ms st).2 = true from
    hall defs [] st rfl hst
  intro ms
  induction ms with
  | nil =>
    intro done st _ _
    rfl
  | cons m ms ih =>
    intro done st hdefs hst
    have hdefs' := hdefs.trans (append_cons done m ms)
    obtain ⟨hfail, hmap⟩ := hgo done m ms st hdefs hst
    rw [createLoop]
    split
    · next hchoose => exact ih _ st hdefs' (hP.skip done m ms st hdefs hst hchoose)
    · next hchoose => exact absurd hchoose hfail
    · next innerMapFd st₁ hchoose =>
      have htrue := createMap_granted cfg forInnerMap m.1 (hmap innerMapFd st₁ hchoose)
      split
      · next st₂ hcreate =>
        exact ih _ st₂ hdefs'
          (hP.take done m ms st innerMapFd st₁ st₂ hdefs hst hchoose (createMap_true hcreate))
      · next st₂ hcreate => simp [hcreate] at htrue

/-- No pass closes a descriptor, also if it fails. -/
theorem createLoop_kept (names : List String) (ms : List (Int × MapDef)) (st : Passes) :
    ∀ e ∈ st.proc.fds.entries,
      e ∈ (createLoop kernel cfg forInnerMap names ms st).1.proc.fds.entries := by
  induction ms generalizing st with
  | nil => exact fun _ he => he
  | cons m ms ih =>
    intro e he
    rw [createLoop]
    split
    · exact ih st e he
    · exact he
    rename_i innerMapFd st₁ hchoose
    have hmade := createMap_kept kernel cfg forInnerMap st₁ m.1 m.2 innerMapFd e
      (by rw [choose_take_proc hchoose]; exact he)
    split
    · next st₂ hcreate =>
      rw [hcreate] at hmade
      exact ih st₂ e hmade
    · next st₂ hcreate =>
      rw [hcreate] at hmade
      exact hmade

end Loop

end Bcc.Maps
