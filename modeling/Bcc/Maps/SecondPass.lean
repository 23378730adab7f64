import Bcc.Maps.FirstPass

namespace Bcc.Maps

open Function List

/-!
# Maps of a module — the second pass

* `createMaps_outer` — the pass creates the other maps;
* `innerFd_of_named`, `innerFd_of_unnamed` — the inner map is the one that is declared, or zero.
-/

variable {kernel : Kernel} {cfg : Config} {defs : List (Int × MapDef)}

/-- The descriptor that `inner_map_fds` has for the inner map of a definition. -/
def innerFd (st : Passes) (m : Int × MapDef) : Nat :=
  if m.2.innerMapName = "" then 0 else (st.innerMapFds m.2.innerMapName).getD 0

/-- The definitions in the order in which their maps are created, after `done` in the second
    pass. -/
def order (defs done : List (Int × MapDef)) : List (Int × MapDef) :=
  defs.filter (isInner defs) ++ done.filter (fun m => !isInner defs m)

/-- What holds during the second pass, which starts with `st₁`. -/
structure Outer (cfg : Config) (defs : List (Int × MapDef)) (p : Proc) (st₁ : Passes)
    (done : List (Int × MapDef)) (st : Passes) : Prop where
  opened : Opened cfg (innerFd st₁) p (order defs done) st
  mapFds : ∀ m ∈ defs, isInner defs m = true → st.mapFds m.1 = st₁.mapFds m.1
  innerMapFds : ∀ name, (st.innerMapFds name).getD 0 = (st₁.innerMapFds name).getD 0
  declared : ∀ m ∈ defs, st.innerMapFds m.2.name = st₁.innerMapFds m.2.name

theorem choose_outer_skip {names : List String} {st : Passes} {d : MapDef}
    (h : choose false names st d = .skip) : (st.innerMapFds d.name).isSome = true := by
  by_contra hnone
  by_cases hinner : d.innerMapName = "" <;> simp [choose, hnone, hinner] at h

/-- The second pass has no check of its own. -/
theorem choose_outer_ne_fail (names : List String) (st : Passes) (d : MapDef) :
    choose false names st d ≠ .fail := by
  by_cases hsome : (st.innerMapFds d.name).isSome = true
  · simp [choose, hsome]
  · by_cases hinner : d.innerMapName = "" <;> simp [choose, hsome, hinner]

theorem choose_outer_take {names : List String} {st st₂ : Passes} {m : Int × MapDef}
    {innerMapFd : Nat} (h : choose false names st m.2 = .take innerMapFd st₂) :
    (st.innerMapFds m.2.name).isSome = false ∧ innerMapFd = innerFd st m
      ∧ st₂.proc = st.proc ∧ st₂.mapFds = st.mapFds
      ∧ st₂.innerMapFds = if m.2.innerMapName = "" then st.innerMapFds
        else update st.innerMapFds m.2.innerMapName (some (innerFd st m)) := by
  by_cases hsome : (st.innerMapFds m.2.name).isSome = true
  · simp [choose, hsome] at h
  refine ⟨by simpa using hsome, ?_⟩
  by_cases hinner : m.2.innerMapName = ""
  · obtain ⟨rfl, rfl⟩ : 0 = innerMapFd ∧ st = st₂ := by simpa [choose, hsome, hinner] using h
    simp [innerFd, hinner]
  · simp only [choose, hsome, hinner, ne_eq] at h
    obtain ⟨rfl, rfl⟩ := h
    simp [innerFd, hinner]

/-- A definition of an inner map and one of another map. -/
theorem ne_of_isInner {m m' : Int × MapDef} (hnodup : (defs.map Prod.fst).Nodup) (hm : m ∈ defs)
    (hm' : m' ∈ defs) (h : isInner defs m = true) (h' : isInner defs m' = false) : m.1 ≠ m'.1 := by
  intro heq
  obtain rfl := inj_on_of_nodup_map hnodup hm hm' heq
  exact absurd (h.symm.trans h') (by decide)

theorem isInner_of_innerMapName {m m' : Int × MapDef} (hm : m ∈ defs) (hne : m.2.innerMapName ≠ "")
    (hname : m'.2.name = m.2.innerMapName) : isInner defs m' = true := by
  simp only [isInner, innerMaps, decide_eq_true_eq, mem_filter, mem_map, hname]
  exact ⟨⟨m, hm, rfl⟩, by simpa using hne⟩

namespace Inner

variable {p : Proc} {st : Passes}

/-- After the first pass, `inner_map_fds` has the names of the inner maps that are declared. -/
theorem isSome_iff (h : Inner cfg defs p defs st) {m : Int × MapDef} (hm : m ∈ defs) :
    (st.innerMapFds m.2.name).isSome = true ↔ isInner defs m = true := by
  constructor
  · intro hsome
    obtain ⟨fd, hfd⟩ := Option.isSome_iff_exists.mp hsome
    obtain ⟨m', -, hinner, hname, -⟩ := h.named _ fd hfd
    simpa [isInner, hname] using hinner
  · exact h.known m hm

theorem outer (h : Inner cfg defs p defs st) : Outer cfg defs p st [] st := by
  have horder : order defs [] = defs.filter (isInner defs) := by simp [order]
  have hflat : ∀ m ∈ defs.filter (isInner defs), 0 = innerFd st m := by
    intro m hm
    obtain ⟨hm, hinner⟩ := mem_filter.mp hm
    rw [innerFd, if_pos (h.flat m hm hinner)]
  refine ⟨?_, fun _ _ _ => rfl, fun _ => rfl, fun _ _ => rfl⟩
  rw [horder]
  exact h.opened.congr_inner hflat

end Inner

namespace Outer

variable {p : Proc} {done : List (Int × MapDef)} {m : Int × MapDef} {st₁ st st₂ st₃ : Passes}

theorem order_append_of_true (h : isInner defs m = true) :
    order defs (done ++ [m]) = order defs done := by
  simp [order, h]

theorem order_append_of_false (h : isInner defs m = false) :
    order defs (done ++ [m]) = order defs done ++ [m] := by
  simp [order, h]

theorem skip (h : Outer cfg defs p st₁ done st) (hm : isInner defs m = true) :
    Outer cfg defs p st₁ (done ++ [m]) st := by
  refine ⟨?_, h.mapFds, h.innerMapFds, h.declared⟩
  rw [order_append_of_true hm]
  exact h.opened

theorem innerFd_eq (h : Outer cfg defs p st₁ done st) (m : Int × MapDef) :
    innerFd st m = innerFd st₁ m := by
  rw [innerFd, innerFd, h.innerMapFds]

/-- The lookup of an inner map's name leaves what is there, and inserts no name that is declared. -/
theorem lookup (hinner : Inner cfg defs p defs st₁) (h : Outer cfg defs p st₁ done st)
    (hmem : m ∈ defs)
    (hst₂ : st₂.innerMapFds = if m.2.innerMapName = "" then st.innerMapFds
      else update st.innerMapFds m.2.innerMapName (some (innerFd st₁ m))) :
    (∀ name, (st₂.innerMapFds name).getD 0 = (st₁.innerMapFds name).getD 0)
      ∧ ∀ m' ∈ defs, st₂.innerMapFds m'.2.name = st₁.innerMapFds m'.2.name := by
  split at hst₂
  · rw [hst₂]
    exact ⟨h.innerMapFds, h.declared⟩
  rename_i hne
  rw [hst₂]
  refine ⟨fun name => ?_, fun m' hm' => ?_⟩
  · by_cases hname : name = m.2.innerMapName
    · rw [hname, update_self, Option.getD_some, innerFd, if_neg hne]
    · rw [update_of_ne hname]
      exact h.innerMapFds name
  · by_cases hname : m'.2.name = m.2.innerMapName
    · -- A name that is declared is that of an inner map: it is there already.
      obtain ⟨fd, hfd⟩ := Option.isSome_iff_exists.mp
        (hinner.known m' hm' (isInner_of_innerMapName hmem hne hname))
      rw [hname] at hfd ⊢
      rw [update_self, innerFd, if_neg hne, hfd]
      rfl
    · rw [update_of_ne hname]
      exact h.declared m' hm'

theorem take (hnodup : (defs.map Prod.fst).Nodup) (hinner : Inner cfg defs p defs st₁)
    (h : Outer cfg defs p st₁ done st) {rest : List (Int × MapDef)}
    (hdefs : defs = done ++ m :: rest) (hm : isInner defs m = false) {innerMapFd : Nat}
    (htake : choose false (innerMaps defs) st m.2 = .take innerMapFd st₂)
    (hmakes : Makes cfg false st₂ m.1 m.2 innerMapFd st₃) :
    Outer cfg defs p st₁ (done ++ [m]) st₃ := by
  have hmem := mem_of_append hdefs
  obtain ⟨-, rfl, hproc, hmapFds, hinnerMapFds⟩ := choose_outer_take htake
  rw [h.innerFd_eq] at hmakes hinnerMapFds
  have hinners : st₃.innerMapFds = st₂.innerMapFds := hmakes.innerMapFds
  have hlookup := h.lookup hinner hmem hinnerMapFds
  have hnew : m.1 ∉ (order defs done).map Prod.fst := by
    rw [order, map_append, mem_append, not_or]
    refine ⟨fun hmem' => ?_, fun hmem' => ?_⟩
    · obtain ⟨m', hm', heq⟩ := mem_map.mp hmem'
      obtain ⟨hm', hm'inner⟩ := mem_filter.mp hm'
      exact ne_of_isInner hnodup hm' hmem hm'inner hm heq
    · exact notMem_of_append hnodup hdefs
        (map_subset _ filter_sublist.subset hmem')
  refine ⟨?_, fun m' hm' hm'inner => ?_, ?_, ?_⟩
  · rw [order_append_of_false hm]
    exact (h.opened.congr hproc hmapFds).makes hnew hmakes
  · rw [hmakes.mapFds_of_ne (ne_of_isInner hnodup hm' hmem hm'inner hm), hmapFds]
    exact h.mapFds m' hm' hm'inner
  · rw [hinners]
    exact hlookup.1
  · rw [hinners]
    exact hlookup.2

theorem kept (hnodup : (defs.map Prod.fst).Nodup) (hinner : Inner cfg defs p defs st₁) :
    Kept cfg false defs (Outer cfg defs p st₁) where
  skip done m rest st hdefs hst hchoose := by
    have hm := mem_of_append hdefs
    have hsome := choose_outer_skip hchoose
    rw [hst.declared m hm, hinner.isSome_iff hm] at hsome
    exact hst.skip hsome
  take done m rest st innerMapFd st₂ st₃ hdefs hst hchoose hmakes := by
    have hm := mem_of_append hdefs
    have hnone := (choose_outer_take hchoose).1
    rw [hst.declared m hm, Bool.eq_false_iff, Ne, hinner.isSome_iff hm, Bool.not_eq_true] at hnone
    exact hst.take hnodup hinner hdefs hnone hchoose hmakes

end Outer

theorem createMaps_outer {p : Proc} {st₁ st : Passes} (hnodup : (defs.map Prod.fst).Nodup)
    (hinner : Inner cfg defs p defs st₁)
    (h : createMaps kernel cfg defs false st₁ = (st, true)) : Outer cfg defs p st₁ defs st :=
  createLoop_rule (Outer.kept hnodup hinner) hinner.outer h

/-! ### Inner maps -/

/-- The definition names a map that is declared. -/
def isNamed (defs : List (Int × MapDef)) (m : Int × MapDef) : Prop :=
  ∃ m' ∈ defs, m'.2.name = m.2.innerMapName

theorem innerMapName_ne {m : Int × MapDef} (h : isNamed defs m) : m.2.innerMapName ≠ "" := by
  obtain ⟨m', -, hname⟩ := h
  exact hname ▸ m'.2.name_ne

namespace Inner

variable {p : Proc} {st : Passes} {m : Int × MapDef}

/-- A map that is declared and named has its descriptor in `inner_map_fds`. -/
theorem innerFd_of_named (h : Inner cfg defs p defs st) (hm : m ∈ defs) (hnamed : isNamed defs m) :
    ∃ m' ∈ defs, isInner defs m' = true ∧ m'.2.name = m.2.innerMapName
      ∧ st.mapFds m'.1 = some (innerFd st m) := by
  have hne := innerMapName_ne hnamed
  obtain ⟨m', hm', hname⟩ := hnamed
  obtain ⟨fd, hfd⟩ := Option.isSome_iff_exists.mp
    (h.known m' hm' (isInner_of_innerMapName hm hne hname))
  rw [hname] at hfd
  rw [innerFd, if_neg hne, hfd]
  exact h.named _ fd hfd

/-- A name that is not declared has none: zero is what it gets. -/
theorem innerFd_of_unnamed (h : Inner cfg defs p defs st) (hnamed : ¬ isNamed defs m) :
    innerFd st m = 0 := by
  have hnone : st.innerMapFds m.2.innerMapName = none := by
    rw [Option.eq_none_iff_forall_ne_some]
    intro fd hfd
    obtain ⟨m', hm', -, hname, -⟩ := h.named _ fd hfd
    exact hnamed ⟨m', hm', hname⟩
  rw [innerFd, hnone]
  simp

end Inner

end Bcc.Maps
