import Bcc.Maps.Opened

namespace Bcc.Maps

open Function List

/-!
# Maps of a module — the first pass

* `createMaps_inner` — the pass creates the maps that are named as inner maps, and `inner_map_fds`
  has their descriptors.
-/

variable {kernel : Kernel} {cfg : Config} {defs : List (Int × MapDef)}

/-- The map is named as an inner map. -/
def isInner (defs : List (Int × MapDef)) (m : Int × MapDef) : Bool := m.2.name ∈ innerMaps defs

/-- What holds during the first pass, after the definitions `done`. -/
structure Inner (cfg : Config) (defs : List (Int × MapDef)) (p : Proc) (done : List (Int × MapDef))
    (st : Passes) : Prop where
  opened : Opened cfg (fun _ => 0) p (done.filter (isInner defs)) st
  flat : ∀ m ∈ done, isInner defs m = true → m.2.innerMapName = ""
  named : ∀ name fd, st.innerMapFds name = some fd →
    ∃ m ∈ done, isInner defs m = true ∧ m.2.name = name ∧ st.mapFds m.1 = some fd
  known : ∀ m ∈ done, isInner defs m = true → (st.innerMapFds m.2.name).isSome = true

theorem choose_inner_skip {names : List String} {st : Passes} {d : MapDef}
    (h : choose true names st d = .skip) : d.name ∉ names := by
  by_contra hmem
  by_cases hinner : d.innerMapName = "" <;> simp [choose, hmem, hinner] at h

theorem choose_inner_take {names : List String} {st st₁ : Passes} {d : MapDef} {innerMapFd : Nat}
    (h : choose true names st d = .take innerMapFd st₁) :
    d.name ∈ names ∧ d.innerMapName = "" ∧ innerMapFd = 0 ∧ st₁ = st := by
  by_cases hmem : d.name ∈ names <;> by_cases hinner : d.innerMapName = "" <;>
    simp [choose, hmem, hinner] at h
  exact ⟨hmem, hinner, h.1.symm, h.2.symm⟩

theorem mem_of_append {done rest : List (Int × MapDef)} {m : Int × MapDef}
    (hdefs : defs = done ++ m :: rest) : m ∈ defs := by
  rw [hdefs]
  exact mem_append_right done mem_cons_self

/-- The fake fd of a definition is not that of an earlier one. -/
theorem notMem_of_append {done rest : List (Int × MapDef)} {m : Int × MapDef}
    (hnodup : (defs.map Prod.fst).Nodup) (hdefs : defs = done ++ m :: rest) :
    m.1 ∉ done.map Prod.fst := by
  rw [hdefs, map_append] at hnodup
  have hdisjoint := (nodup_append'.mp hnodup).2.2
  exact fun hmem => hdisjoint hmem (mem_cons_self ..)

namespace Inner

variable {p : Proc} {done : List (Int × MapDef)} {m : Int × MapDef} {st st' : Passes}

theorem filter_append_of_true (h : isInner defs m = true) :
    (done ++ [m]).filter (isInner defs) = done.filter (isInner defs) ++ [m] := by
  simp [h]

theorem filter_append_of_false (h : isInner defs m = false) :
    (done ++ [m]).filter (isInner defs) = done.filter (isInner defs) := by
  simp [h]

/-- The definitions so far and one more. -/
theorem forall_append {P : Int × MapDef → Prop} (h : ∀ m ∈ done, P m) (hm : P m) :
    ∀ m' ∈ done ++ [m], P m' :=
  forall_mem_append.mpr ⟨h, forall_mem_singleton.mpr hm⟩

theorem skip (h : Inner cfg defs p done st) (hm : isInner defs m = false) :
    Inner cfg defs p (done ++ [m]) st := by
  have hnot : isInner defs m ≠ true := by simp [hm]
  refine ⟨?_, forall_append h.flat (absurd · hnot), fun name fd hname => ?_,
    forall_append h.known (absurd · hnot)⟩
  · rw [filter_append_of_false hm]
    exact h.opened
  · obtain ⟨m', hm', hrest⟩ := h.named name fd hname
    exact ⟨m', mem_append_left _ hm', hrest⟩

theorem take (h : Inner cfg defs p done st) (hm : isInner defs m = true)
    (hflat : m.2.innerMapName = "") (hnew : m.1 ∉ done.map Prod.fst)
    (hmakes : Makes cfg true st m.1 m.2 0 st') : Inner cfg defs p (done ++ [m]) st' := by
  have hnew' : m.1 ∉ (done.filter (isInner defs)).map Prod.fst := fun hmem =>
    hnew (map_subset _ filter_sublist.subset hmem)
  refine ⟨?_, forall_append h.flat (fun _ => hflat), fun name fd hname => ?_,
    forall_append (fun m' hm' hinner => ?_) (fun _ => ?_)⟩
  · rw [filter_append_of_true hm]
    exact h.opened.makes hnew' hmakes
  · rw [hmakes.innerMapFds, if_pos rfl] at hname
    by_cases hn : name = m.2.name
    · subst hn
      rw [update_self] at hname
      exact ⟨m, by simp, hm, rfl, by rw [hmakes.mapFds_self, hname]⟩
    · rw [update_of_ne hn] at hname
      obtain ⟨m', hm', hinner, hm'name, hfd⟩ := h.named name fd hname
      have hne : m'.1 ≠ m.1 := fun heq => hnew (heq ▸ mem_map_of_mem hm')
      refine ⟨m', mem_append_left _ hm', hinner, hm'name, ?_⟩
      rw [hmakes.mapFds_of_ne hne, hfd]
  · rw [hmakes.innerMapFds, if_pos rfl]
    by_cases hn : m'.2.name = m.2.name
    · rw [hn, update_self]
      rfl
    · rw [update_of_ne hn]
      exact h.known m' hm' hinner
  · rw [hmakes.innerMapFds, if_pos rfl, update_self]
    rfl

theorem nil : Inner cfg defs p [] ⟨p, fun _ => none, fun _ => none⟩ :=
  ⟨.nil _, by simp, by simp, by simp⟩

theorem kept (hnodup : (defs.map Prod.fst).Nodup) : Kept cfg true defs (Inner cfg defs p) where
  skip done m rest st _ hst hchoose := hst.skip (decide_eq_false (choose_inner_skip hchoose))
  take done m rest st innerMapFd st₁ st₂ hdefs hst hchoose hmakes := by
    obtain ⟨hmem, hflat, rfl, rfl⟩ := choose_inner_take hchoose
    exact hst.take (decide_eq_true hmem) hflat (notMem_of_append hnodup hdefs) hmakes

end Inner

theorem createMaps_inner {p : Proc} {st : Passes} (hnodup : (defs.map Prod.fst).Nodup)
    (h : createMaps kernel cfg defs true ⟨p, fun _ => none, fun _ => none⟩ = (st, true)) :
    Inner cfg defs p defs st :=
  createLoop_rule (Inner.kept hnodup) Inner.nil h

end Bcc.Maps
