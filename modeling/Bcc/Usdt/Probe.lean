import Bcc.Order.SortUnique
import Bcc.Usdt.Arch
import Mathlib.Data.String.Basic

namespace Bcc.Usdt

open CText List SortUnique

/-!
# USDT — probes, their locations, and contexts

* `Context` — the probes of one or more binaries: each note of an ELF file is a location of the
  probe with its provider and name;
* `FinalizeLocations` — at last locations are sorted, and repeated ones are dropped.
-/

/-- What the code learns from outside: the files, and the processes they are mapped in. -/
structure World where
  /-- `bcc_elf_is_shared_obj`, as the boolean `in_shared_object` makes of it. -/
  isSharedObj : String → Bool
  /-- `bcc_resolve_global_addr` of process, module, address and `mod_match_inode_only`; `none`
      where it fails. -/
  resolveGlobalAddr : Int → String → UInt64 → UInt8 → Option UInt64
  /-- Global symbols, as `get_global_address` finds them. -/
  globals : GlobalSymbols
  /-- `sysconf(_SC_PAGESIZE)`, a power of two. -/
  pageSize : UInt64
  pageSize_pow : ∃ k < 64, pageSize.toNat = 2 ^ k

/-- A distance of whole pages does not change the offset within the page. -/
theorem World.add_mod_pageSize (w : World) (addr : UInt64) {b : UInt64}
    (h : w.pageSize.toNat ∣ b.toNat) : (addr + b) % w.pageSize = addr % w.pageSize := by
  obtain ⟨k, hk, hpow⟩ := w.pageSize_pow
  have hdvd : w.pageSize.toNat ∣ 2 ^ 64 := by
    rw [hpow]
    exact Nat.pow_dvd_pow 2 hk.le
  rw [← UInt64.toNat_inj, UInt64.toNat_mod, UInt64.toNat_mod, UInt64.toNat_add,
    Nat.mod_mod_of_dvd _ hdvd, Nat.add_mod, Nat.mod_eq_zero_of_dvd h, Nat.add_zero, Nat.mod_mod]

/-- A world without shared objects, with pages of 4 KiB. -/
def World.plain : World where
  isSharedObj := fun _ => false
  resolveGlobalAddr := fun _ _ _ _ => none
  globals := fun _ _ _ => none
  pageSize := 4096
  pageSize_pow := ⟨12, by decide, rfl⟩

/-! ### Locations -/

/-- `USDT::Location`: where the probe stands, and its arguments there. -/
structure Location where
  address : UInt64
  binPath : String
  arguments : List Argument
  deriving DecidableEq, Repr

namespace Location

/-- `Location::Location`; `none` where the parser of the format string throws. -/
def make (A : Arch) (addr : UInt64) (binPath : String) (argFmt : CStr) : Res (Option Location) :=
  mapSome (fun args => ⟨addr, binPath, args⟩) (A.location argFmt)

/-- What `finalize_locations` compares: `std::tie(bin_path_, address_)`. -/
def key (L : Location) : String ×ₗ Nat := toLex (L.binPath, L.address.toNat)

/-- Equal keys are the same place. -/
theorem key_inj {L M : Location} :
    L.key = M.key ↔ L.binPath = M.binPath ∧ L.address = M.address := by
  rw [key, key, EmbeddingLike.apply_eq_iff_eq, Prod.mk.injEq, UInt64.toNat_inj]

end Location

/-! ### Probes -/

/-- `USDT::Probe`.  A probe is created with its first location, and no location is taken away
    but for a duplicate, so it always has one. -/
structure Probe where
  binPath : String
  provider : String
  name : String
  semaphore : UInt64
  semaphoreOffset : UInt64
  locations : List Location
  pid : Option Int
  attachedTo : Option String
  attachedSemaphore : Option UInt64
  modMatchInodeOnly : UInt8
  /-- There is a location. -/
  located : locations ≠ []

namespace Probe

/-- `num_arguments()`: the number of arguments at the first location. -/
def numArguments (p : Probe) : Nat := (p.locations.head p.located).arguments.length

/-- `enabled()`. -/
def enabled (p : Probe) : Bool := p.attachedTo.isSome

/-- `need_enable()`. -/
def needEnable (p : Probe) : Bool := p.semaphore != 0

/-- `resolve_global_address`: an address of an executable is taken as it is, one of a shared
    object is looked up in the process. -/
def resolveGlobalAddress (p : Probe) (w : World) (binPath : String) (addr : UInt64) :
    Option UInt64 :=
  if w.isSharedObj binPath then
    p.pid.bind (fun pid => w.resolveGlobalAddr pid binPath addr p.modMatchInodeOnly)
  else some addr

/-- `add_location`, for a location that could be constructed. -/
def addLocation (p : Probe) (L : Location) : Probe :=
  { p with locations := p.locations ++ [L], located := by simp }

/-- `finalize_locations`: sorted by key, of locations with one key one is kept. -/
structure FinalizeLocations (p q : Probe) : Prop where
  /-- The locations are those left of a sorted order. -/
  locations : ∃ ls, IsSortOf Location.key p.locations ls ∧ q.locations = unique Location.key ls
  /-- Nothing else changes. -/
  rest : q = { p with locations := q.locations, located := q.located }

variable {p q : Probe}

namespace FinalizeLocations

section

variable (h : p.FinalizeLocations q)
include h

/-- After `finalize_locations` the keys are strictly increasing. -/
theorem pairwise_lt : q.locations.Pairwise (fun L M => L.key < M.key) := by
  obtain ⟨ls, hsort, hq⟩ := h.locations
  rw [hq]
  exact unique_pairwise_lt hsort

/-- One location is left of each place. -/
theorem eq_of_key {L M : Location} (hL : L ∈ q.locations) (hM : M ∈ q.locations)
    (hkey : L.key = M.key) : L = M := by
  obtain ⟨ls, hsort, hq⟩ := h.locations
  rw [hq] at hL hM
  exact eq_of_mem_unique hsort hL hM hkey

/-- No location is invented. -/
theorem mem {L : Location} (hL : L ∈ q.locations) : L ∈ p.locations := by
  obtain ⟨ls, hsort, hq⟩ := h.locations
  rw [hq] at hL
  exact hsort.perm.mem_iff.mp (mem_of_mem_unique hL)

/-- No place is lost. -/
theorem exists_key {L : Location} (hL : L ∈ p.locations) : ∃ M ∈ q.locations, M.key = L.key := by
  obtain ⟨ls, hsort, hq⟩ := h.locations
  rw [hq]
  exact exists_mem_unique hsort hL

/-- The first location has the least key. -/
theorem head_key_le {L : Location} (hL : L ∈ p.locations) :
    (q.locations.head q.located).key ≤ L.key := by
  obtain ⟨M, hM, hkey⟩ := h.exists_key hL
  rw [← hkey]
  have hlt := h.pairwise_lt
  rw [← cons_head_tail q.located] at hM hlt
  rcases mem_cons.mp hM with rfl | hM
  · exact le_rfl
  · exact ((pairwise_cons.mp hlt).1 M hM).le

end

/-- Locations with strictly increasing keys stay as they are. -/
theorem self (h : p.locations.Pairwise (fun L M => L.key < M.key)) : p.FinalizeLocations p :=
  ⟨⟨p.locations, (isSortOf_self h).1, (isSortOf_self h).2.symm⟩, rfl⟩

end FinalizeLocations

/-- **Any location may stay.**  Locations with different keys can all survive
    `finalize_locations`. -/
theorem exists_finalizeLocations (p : Probe) {s : Location → Prop}
    (hs : ∀ L M, s L → s M → L.key = M.key → L = M) :
    ∃ q, p.FinalizeLocations q ∧ ∀ L ∈ p.locations, s L → L ∈ q.locations := by
  obtain ⟨ls, hsort, hkeep⟩ := exists_sort_choosing p.locations hs
  have hne : unique Location.key ls ≠ [] := by
    obtain ⟨L, hL⟩ := exists_mem_of_ne_nil _ p.located
    obtain ⟨M, hM, -⟩ := exists_mem_unique hsort hL
    exact ne_nil_of_mem hM
  exact ⟨{ p with locations := unique Location.key ls, located := hne },
    ⟨⟨ls, hsort, rfl⟩, rfl⟩, hkeep⟩

end Probe

/-! ### Contexts -/

/-- `bcc_elf_usdt`: one note of an ELF file. -/
structure Note where
  pc : UInt64
  semaphore : UInt64
  semaphoreOffset : UInt64
  provider : String
  name : String
  argFmt : CStr

/-- The note is a location of the probe. -/
def Note.IsOf (n : Note) (p : Probe) : Prop := p.provider = n.provider ∧ p.name = n.name

instance (n : Note) (p : Probe) : Decidable (n.IsOf p) :=
  inferInstanceAs (Decidable (p.provider = n.provider ∧ p.name = n.name))

/-- `USDT::Context`: the probes found so far, and the process they are to be read in. -/
structure Context where
  probes : List Probe
  pid : Option Int
  cmdBinPath : String
  modMatchInodeOnly : UInt8

namespace Context

/-- The context before any note is read. -/
def new (pid : Option Int) (cmdBinPath : String) (modMatchInodeOnly : UInt8) : Context :=
  ⟨[], pid, cmdBinPath, modMatchInodeOnly⟩

/-- `Probe::Probe`, with the location it is given at once. -/
def newProbe (ctx : Context) (binPath : String) (n : Note) (L : Location) : Probe where
  binPath := binPath
  provider := n.provider
  name := n.name
  semaphore := n.semaphore
  semaphoreOffset := n.semaphoreOffset
  locations := [L]
  pid := ctx.pid
  attachedTo := none
  attachedSemaphore := none
  modMatchInodeOnly := ctx.modMatchInodeOnly
  located := cons_ne_nil L []

/-- The loop of `add_probe`: the first probe with the provider and the name of the note gets
    the location, and a new probe if there is none. -/
def place (ctx : Context) (binPath : String) (n : Note) (L : Location) : List Probe → List Probe
  | [] => [ctx.newProbe binPath n L]
  | p :: ps =>
    if n.IsOf p then p.addLocation L :: ps else p :: ctx.place binPath n L ps

/-- `add_probe`; `none` where the exception of the location's constructor leaves it. -/
def addProbe (A : Arch) (ctx : Context) (binPath : String) (n : Note) : Res (Option Context) := do
  match ← Location.make A n.pc binPath n.argFmt with
  | none => return none
  | some L => return some { ctx with probes := ctx.place binPath n L ctx.probes }

/-- `add_probe` of each note in turn. -/
def addProbes (A : Arch) (ctx : Context) : List (String × Note) → Res (Option Context)
  | [] => .ok (some ctx)
  | (binPath, n) :: ns => do
    match ← ctx.addProbe A binPath n with
    | none => return none
    | some ctx' => ctx'.addProbes A ns

/-- `finalize_locations` of every probe. -/
structure Finalize (ctx ctx' : Context) : Prop where
  probes : List.Forall₂ Probe.FinalizeLocations ctx.probes ctx'.probes
  rest : ctx' = { ctx with probes := ctx'.probes }

end Context

/-! ### The locations of a probe -/

/-- The arguments parsed from a note, if its format string can be parsed. -/
def Note.arguments (A : Arch) (n : Note) : List Argument :=
  match A.location n.argFmt with
  | .ok (some args) => args
  | _ => []

/-- The location that a note of a binary stands for. -/
def noteLocation (A : Arch) (c : String × Note) : Location :=
  ⟨c.2.pc, c.1, c.2.arguments A⟩

/-- The notes with the provider and the name of a probe. -/
def notesOf (ns : List (String × Note)) (p : Probe) : List (String × Note) :=
  ns.filter (fun c => c.2.IsOf p)

theorem mem_notesOf {ns : List (String × Note)} {p : Probe} {c : String × Note} :
    c ∈ notesOf ns p ↔ c ∈ ns ∧ c.2.IsOf p := by
  simp [notesOf]

/-- One more note. -/
theorem notesOf_concat (ns : List (String × Note)) (c : String × Note) (p : Probe) :
    notesOf (ns ++ [c]) p = if c.2.IsOf p then notesOf ns p ++ [c] else notesOf ns p := by
  by_cases hc : c.2.IsOf p <;> simp [hc, notesOf]

/-- The probes hold the notes, grouped by provider and name. -/
structure Grouped (A : Arch) (ns : List (String × Note)) (ps : List Probe) : Prop where
  /-- A probe has the locations of its notes, in order. -/
  locations : ∀ p ∈ ps, p.locations = (notesOf ns p).map (noteLocation A)
  /-- Every note has its probe. -/
  complete : ∀ c ∈ ns, ∃ p ∈ ps, c.2.IsOf p
  /-- No two probes share provider and name. -/
  distinct : ps.Pairwise (fun p q => ¬ (p.provider = q.provider ∧ p.name = q.name))

namespace Context

variable {A : Arch} {ctx ctx' : Context} {binPath : String} {n : Note} {L : Location}
  {ps : List Probe}

/-- `place` changes one probe, or adds one. -/
theorem place_cases (ctx : Context) (binPath : String) (n : Note) (L : Location)
    (ps : List Probe) :
    (∃ front p back, ps = front ++ p :: back ∧ n.IsOf p
      ∧ ctx.place binPath n L ps = front ++ p.addLocation L :: back)
    ∨ ((∀ p ∈ ps, ¬ n.IsOf p) ∧ ctx.place binPath n L ps = ps ++ [ctx.newProbe binPath n L]) := by
  induction ps with
  | nil => exact .inr ⟨by simp, rfl⟩
  | cons p ps ih =>
    by_cases hp : n.IsOf p
    · exact .inl ⟨[], p, ps, rfl, hp, if_pos hp⟩
    have hstep : ctx.place binPath n L (p :: ps) = p :: ctx.place binPath n L ps := if_neg hp
    rcases ih with ⟨front, q, back, rfl, hq, hplace⟩ | ⟨hnone, hplace⟩
    · exact .inl ⟨p :: front, q, back, rfl, hq, by rw [hstep, hplace]; rfl⟩
    · refine .inr ⟨?_, by rw [hstep, hplace]; rfl⟩
      intro q hq
      rcases mem_cons.mp hq with rfl | hq
      · exact hp
      · exact hnone q hq

/-- One more note keeps the grouping. -/
theorem grouped_place {ns : List (String × Note)} (h : Grouped A ns ps) :
    Grouped A (ns ++ [(binPath, n)])
      (ctx.place binPath n (noteLocation A (binPath, n)) ps) := by
  -- a probe that is not the note's keeps its locations
  have hkeep : ∀ p ∈ ps, ¬ n.IsOf p →
      p.locations = (notesOf (ns ++ [(binPath, n)]) p).map (noteLocation A) := by
    intro p hp hn
    rw [notesOf_concat, if_neg hn]
    exact h.locations p hp
  rcases place_cases ctx binPath n (noteLocation A (binPath, n)) ps with
    ⟨front, p, back, rfl, hp, hplace⟩ | ⟨hnone, hplace⟩
  · rw [hplace]
    obtain ⟨hfront, hback, hcross⟩ := pairwise_append.mp h.distinct
    have hother : ∀ q ∈ front ++ back, ¬ n.IsOf q := by
      intro q hq hnq
      rcases mem_append.mp hq with hq | hq
      · exact hcross q hq p mem_cons_self ⟨hnq.1.trans hp.1.symm, hnq.2.trans hp.2.symm⟩
      · exact (pairwise_cons.mp hback).1 q hq
          ⟨hp.1.trans hnq.1.symm, hp.2.trans hnq.2.symm⟩
    refine ⟨?_, ?_, ?_⟩
    · intro q hq
      rcases mem_append.mp hq with hq | hq
      · exact hkeep q (mem_append_left _ hq) (hother q (mem_append_left _ hq))
      · rcases mem_cons.mp hq with rfl | hq
        · show p.locations ++ [_] = _
          rw [notesOf_concat, if_pos (show n.IsOf (p.addLocation _) from hp), map_append,
            h.locations p (by simp)]
          rfl
        · exact hkeep q (by simp [hq]) (hother q (mem_append_right _ hq))
    · intro c hc
      rcases mem_append.mp hc with hc | hc
      · obtain ⟨q, hq, hcq⟩ := h.complete c hc
        rcases mem_append.mp hq with hq | hq
        · exact ⟨q, mem_append_left _ hq, hcq⟩
        · rcases mem_cons.mp hq with rfl | hq
          · exact ⟨q.addLocation _, mem_append_right _ mem_cons_self, hcq⟩
          · exact ⟨q, by simp [hq], hcq⟩
      · obtain rfl := mem_singleton.mp hc
        exact ⟨p.addLocation _, mem_append_right _ mem_cons_self, hp⟩
    · obtain ⟨hp1, hp2⟩ := pairwise_cons.mp hback
      refine pairwise_append.mpr ⟨hfront, pairwise_cons.mpr ⟨hp1, hp2⟩, ?_⟩
      intro a ha b hb
      rcases mem_cons.mp hb with rfl | hb
      · exact hcross a ha p mem_cons_self
      · exact hcross a ha b (mem_cons_of_mem p hb)
  · rw [hplace]
    refine ⟨?_, ?_, ?_⟩
    · intro q hq
      rcases mem_append.mp hq with hq | hq
      · exact hkeep q hq (hnone q hq)
      obtain rfl := mem_singleton.mp hq
      have hempty : notesOf ns (ctx.newProbe binPath n (noteLocation A (binPath, n))) = [] := by
        rw [eq_nil_iff_forall_not_mem]
        intro c hc
        obtain ⟨hc, hcn⟩ := mem_notesOf.mp hc
        obtain ⟨p, hp, hcp⟩ := h.complete c hc
        exact hnone p hp ⟨hcp.1.trans hcn.1.symm, hcp.2.trans hcn.2.symm⟩
      rw [notesOf_concat, if_pos ⟨rfl, rfl⟩, hempty]
      rfl
    · intro c hc
      rcases mem_append.mp hc with hc | hc
      · obtain ⟨q, hq, hcq⟩ := h.complete c hc
        exact ⟨q, mem_append_left _ hq, hcq⟩
      · obtain rfl := mem_singleton.mp hc
        exact ⟨_, mem_append_right _ (mem_singleton_self _), rfl, rfl⟩
    · refine pairwise_append.mpr ⟨h.distinct, pairwise_singleton _ _, ?_⟩
      intro p hp q hq
      obtain rfl := mem_singleton.mp hq
      exact hnone p hp

/-- A note whose format string could be parsed is placed. -/
theorem addProbe_eq_some (h : ctx.addProbe A binPath n = .ok (some ctx')) :
    ctx' = { ctx with
      probes := ctx.place binPath n (noteLocation A (binPath, n)) ctx.probes } := by
  obtain ⟨o, ho, h⟩ := bind_eq_ok_iff.mp h
  cases o with
  | none => simp at h
  | some L =>
    obtain ⟨args, hargs, rfl⟩ := mapSome_eq_some_iff.mp ho
    have hL : noteLocation A (binPath, n) = ⟨n.pc, binPath, args⟩ := by
      simp [noteLocation, Note.arguments, hargs]
    rw [hL]
    simpa [eq_comm] using h

/-- Reading notes keeps the grouping. -/
theorem addProbes_grouped_append {pre ns : List (String × Note)} (hpre : Grouped A pre ctx.probes)
    (h : ctx.addProbes A ns = .ok (some ctx')) : Grouped A (pre ++ ns) ctx'.probes := by
  induction ns generalizing ctx pre with
  | nil =>
    obtain rfl : ctx = ctx' := by simpa [addProbes] using h
    rwa [append_nil]
  | cons c ns ih =>
    obtain ⟨o, hadd, h⟩ := bind_eq_ok_iff.mp h
    cases o with
    | none => simp at h
    | some ctx₁ =>
      obtain rfl := addProbe_eq_some hadd
      rw [← singleton_append, ← append_assoc]
      exact ih (grouped_place hpre) h

/-- **Grouping.**  The probes of a context hold the notes it was built from. -/
theorem addProbes_grouped {pid : Option Int} {cmdBinPath : String} {m : UInt8}
    {ns : List (String × Note)} (h : (new pid cmdBinPath m).addProbes A ns = .ok (some ctx)) :
    Grouped A ns ctx.probes := by
  have hnew : Grouped A [] (new pid cmdBinPath m).probes :=
    ⟨fun p hp => absurd hp not_mem_nil, fun c hc => absurd hc not_mem_nil,
      List.Pairwise.nil⟩
  exact addProbes_grouped_append hnew h

/-- Whatever one probe may become, `finalize_locations` of all probes may make of it. -/
theorem exists_finalize {p q : Probe} (hp : p ∈ ctx.probes) (hq : p.FinalizeLocations q) :
    ∃ ctx', ctx.Finalize ctx' ∧ q ∈ ctx'.probes := by
  have hall : ∀ ps : List Probe, p ∈ ps →
      ∃ qs, List.Forall₂ Probe.FinalizeLocations ps qs ∧ q ∈ qs := by
    have hsome : ∀ ps : List Probe, ∃ qs, List.Forall₂ Probe.FinalizeLocations ps qs := by
      intro ps
      induction ps with
      | nil => exact ⟨[], .nil⟩
      | cons p₁ ps ih =>
        obtain ⟨qs, hqs⟩ := ih
        obtain ⟨q₁, hq₁, -⟩ := p₁.exists_finalizeLocations (fun _ _ h _ _ => absurd h not_false)
        exact ⟨q₁ :: qs, .cons hq₁ hqs⟩
    intro ps hmem
    obtain ⟨front, back, rfl⟩ := append_of_mem hmem
    obtain ⟨fs, hfs⟩ := hsome front
    obtain ⟨bs, hbs⟩ := hsome back
    exact ⟨fs ++ q :: bs, rel_append hfs (.cons hq hbs), by simp⟩
  obtain ⟨qs, hqs, hmem⟩ := hall ctx.probes hp
  exact ⟨{ ctx with probes := qs }, ⟨hqs, rfl⟩, hmem⟩

end Context

end Bcc.Usdt
