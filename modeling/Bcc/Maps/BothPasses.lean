import Bcc.Maps.SecondPass

namespace Bcc.Maps

open List Posix

/-!
# Maps of a module — both passes

* `Created`, `createAll_created` — if the two passes do not fail, every map was created once, a map
  of maps with the descriptor of the inner map that it names, or with zero if that is not declared.
* `Loadable`, `createAll_loadable`, `createAll_granted` — a kernel lets the passes succeed exactly
  if no inner map has an inner map, and zero is a map if a map of maps gets it.
-/

variable {kernel : Kernel} {cfg : Config} {defs : List (Int × MapDef)} {p : Proc} {st : Passes}

/-- The passes are done. -/
structure Created (cfg : Config) (defs : List (Int × MapDef)) (p : Proc) (st : Passes) : Prop where
  opened : Opened cfg (innerFd st) p (order defs defs) st
  flat : ∀ m ∈ defs, isInner defs m = true → m.2.innerMapName = ""
  named : ∀ m ∈ defs, isNamed defs m →
    ∃ m' ∈ defs, m'.2.name = m.2.innerMapName ∧ st.mapFds m'.1 = some (innerFd st m)
  unnamed : ∀ m, ¬ isNamed defs m → innerFd st m = 0

theorem order_perm (defs : List (Int × MapDef)) : (order defs defs).Perm defs :=
  filter_append_perm _ _

theorem createAll_created (hnodup : (defs.map Prod.fst).Nodup)
    (h : createAll kernel cfg defs p = (st, true)) : Created cfg defs p st := by
  unfold createAll at h
  split at h
  · next st₁ hfirst =>
    have hinner := createMaps_inner hnodup hfirst
    have houter := createMaps_outer hnodup hinner h
    refine ⟨houter.opened.congr_inner (fun m _ => (houter.innerFd_eq m).symm), hinner.flat,
      fun m hm hnamed => ?_, fun m hnamed => ?_⟩
    · obtain ⟨m', hm', hinner', hname, hfd⟩ := hinner.innerFd_of_named hm hnamed
      refine ⟨m', hm', hname, ?_⟩
      rw [houter.mapFds m' hm' hinner', houter.innerFd_eq, hfd]
    · rw [houter.innerFd_eq]
      exact hinner.innerFd_of_unnamed hnamed
  · cases (Prod.mk.inj h).2

theorem createAll_kept (kernel : Kernel) (cfg : Config) (defs : List (Int × MapDef)) (p : Proc) :
    ∀ e ∈ p.fds.entries, e ∈ (createAll kernel cfg defs p).1.proc.fds.entries := by
  intro e he
  have hfirst : e ∈ (createMaps kernel cfg defs true
      ⟨p, fun _ => none, fun _ => none⟩).1.proc.fds.entries := createLoop_kept _ _ _ e he
  unfold createAll
  split
  · next st₁ heq =>
    rw [heq] at hfirst
    exact createLoop_kept _ _ _ e hfirst
  · next st₁ heq =>
    rw [heq] at hfirst
    exact hfirst

/-! ### When the passes can succeed -/

/-- The map is a map of maps to be created, and names no map that is declared. -/
def isZeroed (defs : List (Int × MapDef)) (m : Int × MapDef) : Prop :=
  isOuter m.2 ∧ ¬ isNamed defs m

/-- No inner map has an inner map; and if a map of maps names no map that is declared, zero is a
    map. -/
structure Loadable (defs : List (Int × MapDef)) (p : Proc) : Prop where
  flat : ∀ m ∈ defs, isInner defs m = true → m.2.innerMapName = ""
  zero : (∃ m ∈ defs, isZeroed defs m) → p.isMap 0 = true

theorem createAll_loadable (hnodup : (defs.map Prod.fst).Nodup)
    (h : createAll kernel cfg defs p = (st, true)) : Loadable defs p := by
  have hcreated := createAll_created hnodup h
  refine ⟨hcreated.flat, ?_⟩
  rintro ⟨m, hm, houter, hnamed⟩
  have hmap := hcreated.opened.isMap m ((order_perm defs).mem_iff.mpr hm) houter
  rw [hcreated.unnamed m hnamed] at hmap
  exact hcreated.opened.isMap_zero_iff.mp hmap

/-- The first pass succeeds if every call is granted. -/
theorem createMaps_inner_granted (cfg : Config) (hnodup : (defs.map Prod.fst).Nodup)
    (h : Loadable defs p) :
    (createMaps granting cfg defs true ⟨p, fun _ => none, fun _ => none⟩).2 = true := by
  refine createLoop_granted (Inner.kept hnodup) Inner.nil (fun done m rest st hdefs hst => ?_)
  have hm := mem_of_append hdefs
  refine ⟨fun hfail => ?_, fun innerMapFd st₁ htake houter => ?_⟩
  · by_cases hinner : m.2.name ∈ innerMaps defs
    · simp [choose, hinner, h.flat m hm (decide_eq_true hinner)] at hfail
    · simp [choose, hinner] at hfail
  · obtain ⟨-, hflat, rfl, rfl⟩ := choose_inner_take htake
    exact hst.opened.isMap_zero_iff.mpr
      (h.zero ⟨m, hm, houter, fun hnamed => innerMapName_ne hnamed hflat⟩)

/-- So does the second one. -/
theorem createMaps_outer_granted (hnodup : (defs.map Prod.fst).Nodup) (h : Loadable defs p)
    (hinner : Inner cfg defs p defs st) : (createMaps granting cfg defs false st).2 = true := by
  refine createLoop_granted (Outer.kept hnodup hinner) hinner.outer
    (fun done m rest st' hdefs hst => ?_)
  have hm := mem_of_append hdefs
  refine ⟨choose_outer_ne_fail _ _ _, fun innerMapFd st₁ htake houter => ?_⟩
  obtain ⟨-, rfl, hproc, -⟩ := choose_outer_take htake
  rw [hproc, hst.innerFd_eq]
  by_cases hnamed : isNamed defs m
  · -- The descriptor of a map that was created.
    obtain ⟨m', hm', hinner', -, hfd⟩ := hinner.innerFd_of_named hm hnamed
    rw [← hst.mapFds m' hm' hinner'] at hfd
    obtain ⟨_, -, -, -, hmem⟩ := hst.opened.exists_of_mapFds hfd
    exact isMap_iff.mpr ⟨_, hmem⟩
  · rw [hinner.innerFd_of_unnamed hnamed]
    exact hst.opened.isMap_zero_iff.mpr (h.zero ⟨m, hm, houter, hnamed⟩)

theorem createAll_granted (cfg : Config) (hnodup : (defs.map Prod.fst).Nodup)
    (h : Loadable defs p) :
    ∃ st, createAll granting cfg defs p = (st, true) := by
  have hfirst := createMaps_inner_granted cfg hnodup h
  refine ⟨(createAll granting cfg defs p).1, Prod.ext rfl ?_⟩
  unfold createAll
  split
  · next st₁ hst₁ => exact createMaps_outer_granted hnodup h (createMaps_inner hnodup hst₁)
  · next st₁ hst₁ => simp [hst₁] at hfirst

end Bcc.Maps
