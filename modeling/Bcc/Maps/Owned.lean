import Bcc.Maps.Load

namespace Bcc.Maps

open List Option Posix

/-!
# Table storage — who owns a descriptor

* `Owned` — the descriptors in the storage are open, and each is owned by one table;
* `owned_update_iff` — `load_maps` keeps this exactly if no two tables have the same fake fd, since
  they get the same descriptor.
-/

variable {kernel : Kernel} {p p' : Proc} {ts : Storage}

/-- The descriptors in the storage are open, and each is owned by one table. -/
structure Owned (p : Proc) (ts : Storage) : Prop where
  nodup : ts.held.Nodup
  opened : ∀ fd ∈ ts.held, fd ∈ p.fds.nums

theorem mem_close {fd : Option Nat} {n : Nat} :
    n ∈ (p.close fd).fds.nums ↔ n ∈ p.fds.nums ∧ fd ≠ some n := by
  cases fd with
  | none => simp [Proc.close]
  | some fd => simp [Proc.close, eq_comm]

/-- A copy is a new descriptor, if there is one. -/
theorem dup_cases (kernel : Kernel) (p : Proc) (fd : Option Nat) :
    ((p.dup kernel fd).1 = none ∧ (p.dup kernel fd).2.fds = p.fds)
      ∨ ∃ obj, (p.dup kernel fd).1 = some p.fds.free ∧ (p.dup kernel fd).2.fds = p.fds.add obj := by
  cases fd with
  | none => exact .inl ⟨rfl, rfl⟩
  | some fd =>
    simp only [Proc.dup]
    split
    · exact .inl ⟨rfl, rfl⟩
    · next obj _ =>
      split
      · exact .inr ⟨obj, rfl, rfl⟩
      · exact .inl ⟨rfl, rfl⟩

namespace Owned

/-- Descriptors may be opened. -/
theorem mono (h : Owned p ts) (hp : ∀ fd ∈ p.fds.nums, fd ∈ p'.fds.nums) : Owned p' ts :=
  ⟨h.nodup, fun fd hfd => hp fd (h.opened fd hfd)⟩

/-- A table with a descriptor of its own goes into the storage, or goes. -/
theorem insert (h : Owned p ts) (key : String) {d : TableDesc}
    (hd : ∀ fd, d.fd = some fd → fd ∈ p.fds.nums ∧ fd ∉ ts.held) :
    Owned (ts.insert p key d).1 (ts.insert p key d).2 := by
  unfold Storage.insert
  split
  · refine ⟨h.nodup, fun fd hfd => mem_close.mpr ⟨h.opened fd hfd, fun heq => ?_⟩⟩
    exact (hd fd heq).2 hfd
  rename_i hkey
  cases hfd : d.fd with
  | none =>
    have hheld : (ts.add key d hkey).held = ts.held := by simp [Storage.held, Storage.add, hfd]
    exact ⟨hheld ▸ h.nodup, hheld ▸ h.opened⟩
  | some fd =>
    have hheld : (ts.add key d hkey).held = fd :: ts.held := by
      simp [Storage.held, Storage.add, hfd]
    obtain ⟨hopen, hnew⟩ := hd fd hfd
    refine ⟨?_, fun fd' hfd' => ?_⟩
    · rw [hheld]
      exact nodup_cons.mpr ⟨hnew, h.nodup⟩
    · rw [hheld] at hfd'
      rcases mem_cons.mp hfd' with rfl | hfd'
      · exact hopen
      · exact h.opened fd' hfd'

/-- The copy of a table goes into the storage. -/
theorem insert_dup (h : Owned p ts) (kernel : Kernel) (key : String) (d : TableDesc)
    {d' : TableDesc} (hd' : d'.fd = (d.dup kernel p).1.fd) :
    Owned (ts.insert (d.dup kernel p).2 key d').1 (ts.insert (d.dup kernel p).2 key d').2 := by
  have hdup := dup_cases kernel p d.fd
  have hopen : ∀ fd ∈ p.fds.nums, fd ∈ (d.dup kernel p).2.fds.nums := fun fd hfd => by
    rcases hdup with ⟨-, hfds⟩ | ⟨obj, -, hfds⟩
    · rw [TableDesc.dup, hfds]
      exact hfd
    · rw [TableDesc.dup, hfds]
      exact mem_cons_of_mem _ hfd
  refine (h.mono hopen).insert key fun fd hfd => ?_
  rw [hd'] at hfd
  rcases hdup with ⟨hnone, -⟩ | ⟨obj, hsome, hfds⟩
  · cases hnone.symm.trans hfd
  · obtain rfl : p.fds.free = fd := Option.some.inj (hsome.symm.trans hfd)
    refine ⟨?_, fun hheld => p.fds.free_notMem (h.opened _ hheld)⟩
    rw [TableDesc.dup, hfds]
    exact mem_cons_self

theorem mem_closeAll {entries : List (String × TableDesc)} {n : Nat} :
    n ∈ (entries.foldl (fun p e => p.close e.2.fd) p).fds.nums
      ↔ n ∈ p.fds.nums ∧ n ∉ entries.filterMap (fun e => e.2.fd) := by
  induction entries generalizing p with
  | nil => simp
  | cons e entries ih =>
    rw [foldl_cons, ih, mem_close, and_assoc]
    cases hfd : e.2.fd with
    | none => simp [hfd]
    | some fd => simp [hfd, eq_comm]

/-- Tables that go close their own descriptors, and no other. -/
theorem deletePrefix (h : Owned p ts) (key : String) :
    Owned (ts.deletePrefix p key).1 (ts.deletePrefix p key).2 := by
  have hperm : (List.filterMap (fun e => e.2.fd) (ts.entries.filter (Storage.inPrefix key))
      ++ (ts.deletePrefix p key).2.held).Perm ts.held := by
    rw [Storage.held, ← filterMap_append]
    exact (filter_append_perm _ _).filterMap _
  obtain ⟨-, hnodup, hdisjoint⟩ := nodup_append'.mp (hperm.nodup_iff.mpr h.nodup)
  refine ⟨hnodup, fun fd hfd => mem_closeAll.mpr ⟨?_, fun hgone => hdisjoint hgone hfd⟩⟩
  exact h.opened fd (hperm.mem_iff.mp (mem_append_right _ hfd))

end Owned

/-! ### Loading -/

/-- A fake fd of the definitions is that of at most one table. -/
def Distinct (defs : List (Int × MapDef)) (ts : Storage) : Prop :=
  ts.entries.Pairwise (fun e e' => e.2.fakeFd = e'.2.fakeFd → ∀ m ∈ defs, e.2.fakeFd ≠ m.1)

instance (defs : List (Int × MapDef)) (ts : Storage) : Decidable (Distinct defs ts) :=
  inferInstanceAs (Decidable (List.Pairwise _ _))

/-- The descriptor of a table after `load_maps`. -/
def newFd (mapFds : Int → Option Nat) (d : TableDesc) : Option Nat := (mapFds d.fakeFd).or d.fd

theorem setFd_fd (mapFds : Int → Option Nat) (p : Proc) (d : TableDesc) :
    (Storage.setFd mapFds p d).2.fd = newFd mapFds d := by
  unfold Storage.setFd newFd
  split
  · next hnone => rw [hnone, none_or]
  · next fd hfd => rw [hfd]; rfl

theorem held_update {mapFds : Int → Option Nat} (h : mapFds 0 = none) (p : Proc) (ts : Storage) :
    (ts.update mapFds p).2.held = ts.entries.filterMap (fun e => newFd mapFds e.2) := by
  show List.filterMap _ (Storage.updateLoop mapFds p ts.entries).2 = _
  rw [Storage.updateLoop_eq h, filterMap_map]
  exact filterMap_congr fun e _ => setFd_fd mapFds p e.2

variable {cfg : Config} {fakeFds : FakeFdMap} {st : Passes}

/-- Two tables do not share a descriptor after `load_maps`, if they have not before and do not have
    the same fake fd of the module. -/
theorem newFd_ne_iff (hcreated : Created cfg fakeFds.defs p st) {d d' : TableDesc}
    (hd : ∀ fd, d.fd = some fd → fd ∈ p.fds.nums) (hd' : ∀ fd, d'.fd = some fd → fd ∈ p.fds.nums)
    (hne : ∀ fd, d.fd = some fd → ∀ fd', d'.fd = some fd' → fd ≠ fd') :
    (∀ fd, newFd st.mapFds d = some fd → ∀ fd', newFd st.mapFds d' = some fd' → fd ≠ fd')
      ↔ (d.fakeFd = d'.fakeFd → ∀ m ∈ fakeFds.defs, d.fakeFd ≠ m.1) := by
  have hnew : ∀ f fd, st.mapFds f = some fd → fd ∉ p.fds.nums := fun f fd hf => by
    obtain ⟨m, -, -, hfd, -⟩ := hcreated.opened.exists_of_mapFds hf
    exact hfd
  constructor
  · intro h heq m hm hm'
    have hsome := (hcreated.isSome_iff d.fakeFd).mpr ⟨m, hm, hm'⟩
    obtain ⟨fd, hfd⟩ := isSome_iff_exists.mp hsome
    have hfd' : newFd st.mapFds d' = some fd := by rw [newFd, ← heq, hfd, some_or]
    exact h fd (by rw [newFd, hfd, some_or]) fd hfd' rfl
  · rintro h fd hfd fd' hfd' rfl
    simp only [newFd, or_eq_some_iff] at hfd hfd'
    rcases hfd with hfd | ⟨-, hfd⟩ <;> rcases hfd' with hfd' | ⟨-, hfd'⟩
    · -- Both are loaded: the descriptor tells the fake fd.
      obtain ⟨m, hm, hm'⟩ := (hcreated.isSome_iff d.fakeFd).mp (by rw [hfd]; rfl)
      exact h (hcreated.opened.inj _ _ fd hfd hfd') m hm hm'
    · exact hnew _ fd hfd (hd' fd hfd')
    · exact hnew _ fd hfd' (hd fd hfd)
    · exact hne fd hfd fd hfd' rfl

theorem held_pairwise : ts.held.Nodup ↔ ts.entries.Pairwise
    (fun e e' => ∀ fd, e.2.fd = some fd → ∀ fd', e'.2.fd = some fd' → fd ≠ fd') :=
  pairwise_filterMap

/-- The tables after `load_maps` own their descriptors exactly if no two had the same fake fd. -/
theorem owned_update_iff (h : Owned p ts) (hcreated : Created cfg fakeFds.defs p st) :
    Owned st.proc (ts.update st.mapFds st.proc).2 ↔ Distinct fakeFds.defs ts := by
  have hopen : ∀ e ∈ ts.entries, ∀ fd, e.2.fd = some fd → fd ∈ p.fds.nums := fun e he fd hfd =>
    h.opened fd (mem_filterMap.mpr ⟨e, he, hfd⟩)
  have hheld := held_update hcreated.mapFds_zero st.proc ts
  have hnodup : (ts.update st.mapFds st.proc).2.held.Nodup ↔ Distinct fakeFds.defs ts := by
    rw [hheld, List.Nodup, pairwise_filterMap]
    have hpairs := held_pairwise.mp h.nodup
    constructor
    · intro hnew
      exact (hpairs.and hnew).imp_of_mem fun he he' ⟨hne, hnew⟩ =>
        (newFd_ne_iff hcreated (hopen _ he) (hopen _ he') hne).mp hnew
    · intro hdistinct
      exact (hpairs.and hdistinct).imp_of_mem fun he he' ⟨hne, hdistinct⟩ =>
        (newFd_ne_iff hcreated (hopen _ he) (hopen _ he') hne).mpr hdistinct
  constructor
  · exact fun howned => hnodup.mp howned.nodup
  · intro hdistinct
    refine ⟨hnodup.mpr hdistinct, fun fd hfd => ?_⟩
    rw [hheld] at hfd
    obtain ⟨e, he, hfd⟩ := mem_filterMap.mp hfd
    rcases or_eq_some_iff.mp hfd with hfd | ⟨-, hfd⟩
    · obtain ⟨m, -, -, -, hmem⟩ := hcreated.opened.exists_of_mapFds hfd
      exact Fds.mem_nums.mpr ⟨_, hmem⟩
    · obtain ⟨k, hk⟩ := Fds.mem_nums.mp (hopen e he fd hfd)
      exact Fds.mem_nums.mpr ⟨k, hcreated.opened.kept _ hk⟩

end Bcc.Maps
