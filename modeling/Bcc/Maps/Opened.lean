import Bcc.Maps.Pass

namespace Bcc.Maps

open List Posix

/-!
# Maps of a module — the maps that a pass has created

* `Opened` — the maps were created in order, each once, with a new descriptor of its own.  None has
  the descriptor zero, which stands for no inner map.
* `Opened.makes` — one more map is created.
* `Opened.isMap_zero_iff` — zero is a map if it was one before.
-/

variable {cfg : Config}

/-- The maps of the definitions `done` were created, in this order and with the inner maps `inner`:
    each has a new descriptor of its own. -/
structure Opened (cfg : Config) (inner : Int × MapDef → Nat) (p : Proc) (done : List (Int × MapDef))
    (st : Passes) : Prop where
  keys : ∀ f, (st.mapFds f).isSome = true → f ∈ done.map Prod.fst
  fds : ∀ m ∈ done, ∃ fd, st.mapFds m.1 = some fd ∧ fd ∉ p.fds.nums
    ∧ (fd, Obj.map (callOf cfg m.2 (inner m))) ∈ st.proc.fds.entries
  inj : ∀ f f' fd, st.mapFds f = some fd → st.mapFds f' = some fd → f = f'
  opened : st.proc.opened = p.opened ++ done.map (fun m => callOf cfg m.2 (inner m))
  isMap : ∀ m ∈ done, isOuter m.2 → st.proc.isMap (inner m) = true
  kept : ∀ e ∈ p.fds.entries, e ∈ st.proc.fds.entries
  only : ∀ e ∈ st.proc.fds.entries, e ∈ p.fds.entries ∨ 3 ≤ e.1

namespace Opened

variable {inner : Int × MapDef → Nat} {p : Proc} {done : List (Int × MapDef)} {st st' : Passes}

theorem nil (innerMapFds : String → Option Nat) :
    Opened cfg inner p [] ⟨p, fun _ => none, innerMapFds⟩ := by
  refine ⟨?_, ?_, ?_, ?_, ?_, fun _ he => he, fun _ he => .inl he⟩ <;> simp

variable (h : Opened cfg inner p done st)
include h

/-- The names of the inner maps have no part in this. -/
theorem congr (hproc : st'.proc = st.proc) (hmapFds : st'.mapFds = st.mapFds) :
    Opened cfg inner p done st' := by
  cases st
  obtain rfl := hproc
  obtain rfl := hmapFds
  exact ⟨h.keys, h.fds, h.inj, h.opened, h.isMap, h.kept, h.only⟩

theorem congr_inner {inner' : Int × MapDef → Nat} (hinner : ∀ m ∈ done, inner m = inner' m) :
    Opened cfg inner' p done st := by
  refine ⟨h.keys, fun m hm => ?_, h.inj, ?_, fun m hm houter => ?_, h.kept, h.only⟩
  · rw [← hinner m hm]
    exact h.fds m hm
  · rw [h.opened]
    congr 1
    exact map_congr_left (fun m hm => by rw [hinner m hm])
  · rw [← hinner m hm]
    exact h.isMap m hm houter

/-- A fake fd that has a descriptor is that of a definition. -/
theorem exists_of_mapFds {f : Int} {fd : Nat} (hf : st.mapFds f = some fd) :
    ∃ m ∈ done, m.1 = f ∧ fd ∉ p.fds.nums
      ∧ (fd, Obj.map (callOf cfg m.2 (inner m))) ∈ st.proc.fds.entries := by
  obtain ⟨m, hm, rfl⟩ := mem_map.mp (h.keys f (by rw [hf]; rfl))
  obtain ⟨fd', hfd', hrest⟩ := h.fds m hm
  obtain rfl : fd' = fd := Option.some.inj (hfd'.symm.trans hf)
  exact ⟨m, hm, rfl, hrest⟩

/-- Zero is a map if it was one: no map that is created gets it. -/
theorem isMap_zero_iff : st.proc.isMap 0 = true ↔ p.isMap 0 = true := by
  rw [isMap_iff, isMap_iff]
  constructor
  · rintro ⟨c, hc⟩
    rcases h.only _ hc with hold | hle
    · exact ⟨c, hold⟩
    · exact absurd hle (Nat.not_succ_le_zero 2)
  · rintro ⟨c, hc⟩
    exact ⟨c, h.kept _ hc⟩

/-- A descriptor that is free is free in the process that the pass started in. -/
theorem freeFrom_notMem : st.proc.fds.freeFrom 3 ∉ p.fds.nums := by
  intro hmem
  obtain ⟨k, hk⟩ := Fds.mem_nums.mp hmem
  exact st.proc.fds.freeFrom_notMem 3 (Fds.mem_nums.mpr ⟨k, h.kept _ hk⟩)

/-- No definition has a descriptor that is free. -/
theorem mapFds_ne_free (f : Int) : st.mapFds f ≠ some (st.proc.fds.freeFrom 3) := by
  intro hf
  obtain ⟨m, -, -, -, hmem⟩ := h.exists_of_mapFds hf
  exact st.proc.fds.freeFrom_notMem 3 (Fds.mem_nums.mpr ⟨_, hmem⟩)

/-- **One more map.** -/
theorem makes {forInnerMap : Bool} {m : Int × MapDef} (hm : m.1 ∉ done.map Prod.fst)
    (hmakes : Makes cfg forInnerMap st m.1 m.2 (inner m) st') :
    Opened cfg inner p (done ++ [m]) st' := by
  constructor
  case keys =>
    intro f hf
    by_cases hfm : f = m.1
    · simp [hfm]
    · rw [hmakes.mapFds_of_ne hfm] at hf
      rw [map_append]
      exact mem_append_left _ (h.keys f hf)
  case fds =>
    intro m' hm'
    rcases mem_append.mp hm' with hm' | hm'
    · obtain ⟨fd, hfd, hnew, hmem⟩ := h.fds m' hm'
      have hne : m'.1 ≠ m.1 := fun heq => hm (heq ▸ mem_map_of_mem hm')
      exact ⟨fd, by rw [hmakes.mapFds_of_ne hne, hfd], hnew, hmakes.kept _ hmem⟩
    · obtain rfl := mem_singleton.mp hm'
      exact ⟨_, hmakes.mapFds_self, h.freeFrom_notMem, by simp [hmakes.entries]⟩
  case inj =>
    -- The descriptor of the new map is free, so that no other definition has it.
    intro f f' fd hf hf'
    by_cases hfm : f = m.1 <;> by_cases hfm' : f' = m.1
    · rw [hfm, hfm']
    · rw [hfm, hmakes.mapFds_self] at hf
      rw [hmakes.mapFds_of_ne hfm', ← hf] at hf'
      exact absurd hf' (h.mapFds_ne_free f')
    · rw [hfm', hmakes.mapFds_self] at hf'
      rw [hmakes.mapFds_of_ne hfm, ← hf'] at hf
      exact absurd hf (h.mapFds_ne_free f)
    · rw [hmakes.mapFds_of_ne hfm] at hf
      rw [hmakes.mapFds_of_ne hfm'] at hf'
      exact h.inj f f' fd hf hf'
  case opened =>
    rw [hmakes.opened, h.opened, map_append, append_assoc]
    rfl
  case isMap =>
    intro m' hm' houter
    apply hmakes.isMap
    rcases mem_append.mp hm' with hm' | hm'
    · exact h.isMap m' hm' houter
    · obtain rfl := mem_singleton.mp hm'
      exact hmakes.inner houter
  case kept =>
    intro e he
    exact hmakes.kept e (h.kept e he)
  case only =>
    intro e he
    rw [hmakes.entries] at he
    rcases mem_cons.mp he with rfl | he
    · exact .inr (Fds.le_freeFrom _ _)
    · exact h.only e he

end Opened

end Bcc.Maps
