import Bcc.Order.Cursor
import Bcc.Usdt.Probe
import Bcc.Usdt.Reader
import Mathlib.Data.List.Dedup

namespace Bcc.Usdt

open CText List

/-!
# USDT — `usdt_getarg`: which location's argument is read

The reader of an argument has to find out at which of the probe's locations the program stands.

* `caseLabel` — it switches on the instruction pointer modulo the page size if that tells the
  locations apart, otherwise on all of it, with the addresses in the process;
* `readerBody_dispatches`, `usdtGetarg_storesOwn_iff` — what is read.
-/

namespace Probe

/-- The loop of `largest_arg_type`: the first of the widest operands. -/
def largestArg (n : Nat) : List Location → Option Argument → Res (Option Argument)
  | [], largest => .ok largest
  | L :: ls, largest => do
    let candidate ← element L.arguments n
    match largest with
    | none => largestArg n ls (some candidate)
    | some a =>
      if a.size.natAbs < candidate.size.natAbs then largestArg n ls (some candidate)
      else largestArg n ls (some a)

variable (p : Probe) (w : World)

/-- `largest_arg_type`. -/
def largestArgType (n : Nat) : Res CType := do
  match ← largestArg n p.locations none with
  | none => .error .assertion
  | some a => a.ctypeName

/-- `page_offsets`: the offsets within a page, as a set of `int`. -/
def pageOffsets : List Int :=
  (p.locations.map (fun L => toInt32 (L.address % w.pageSize).toNat)).dedup

/-- The offsets tell the locations apart. -/
def byPage : Bool := (p.pageOffsets w).length == p.locations.length

/-- The case label of a location; `none` where its address cannot be resolved. -/
def caseLabel (L : Location) : Option UInt64 :=
  if p.byPage w then some (L.address % w.pageSize)
  else p.resolveGlobalAddress w L.binPath L.address

/-- The statement emitted for argument `n` at a location. -/
def statement (n : Nat) (L : Location) : Res (Option Assign) := do
  let a ← element L.arguments n
  a.assignToLocal w.globals L.binPath p.pid

/-- The case emitted for a location. -/
def switchCase (n : Nat) (L : Location) : Res (Option (UInt64 × Assign)) :=
  match p.caseLabel w L with
  | none => .ok none
  | some label => mapSome (fun stmt => (label, stmt)) (p.statement w n L)

/-- The switch of the reader of argument `n`. -/
def switchBody (n : Nat) : Res (Option Body) :=
  mapSome (Body.switch (if p.byPage w then some w.pageSize else none))
    (collect (p.switchCase w n) p.locations)

/-- The body of the reader of argument `n`: no switch is needed for one location. -/
def readerBody (n : Nat) : Res (Option Body) :=
  match p.locations with
  | [L] => mapSome Body.single (p.statement w n L)
  | _ => p.switchBody w n

/-- The reader of argument `n`. -/
def reader (func : String) (n : Nat) : Res (Option Reader) := do
  let t ← p.largestArgType n
  mapSome (fun body => ⟨func, n + 1, t, body⟩) (p.readerBody w n)

/-- `usdt_getarg(stream, probe_func)`: the readers it emits; `none` where it returns false. -/
def usdtGetargFor (func : String) : Res (Option (List Reader)) :=
  collect (p.reader w func) (List.range p.numArguments)

/-- `usdt_getarg(stream)`. -/
def usdtGetarg : Res (Option (List Reader)) :=
  match p.attachedTo with
  | none => .ok none
  | some func => if func = "" then .ok none else p.usdtGetargFor w func

/-! ### What is emitted for a location -/

variable {p : Probe} {w : World} {n : Nat} {L : Location} {func : String} {r : Reader}
  {body : Body}

/-- A statement is that of the location's own argument. -/
theorem statement_eq_some_iff {stmt : Assign} :
    p.statement w n L = .ok (some stmt) ↔ ∃ a, L.arguments[n]? = some a
      ∧ a.assignToLocal w.globals L.binPath p.pid = .ok (some stmt) := by
  simp only [statement, bind_eq_ok_iff, element_eq_ok_iff]

/-- A case is a label of the location with its statement. -/
theorem switchCase_eq_some_iff {c : UInt64 × Assign} :
    p.switchCase w n L = .ok (some c)
      ↔ p.caseLabel w L = some c.1 ∧ p.statement w n L = .ok (some c.2) := by
  obtain ⟨label, stmt⟩ := c
  unfold switchCase
  cases p.caseLabel w L with
  | none => simp
  | some l => simp [mapSome_eq_some_iff, and_comm]

/-- The parts of a reader. -/
theorem reader_eq_some (h : p.reader w func n = .ok (some r)) :
    r.probeFunc = func ∧ r.argNo = n + 1 ∧ p.largestArgType n = .ok r.ctype
      ∧ p.readerBody w n = .ok (some r.body) := by
  obtain ⟨t, ht, h⟩ := bind_eq_ok_iff.mp h
  obtain ⟨body, hbody, rfl⟩ := mapSome_eq_some_iff.mp h
  exact ⟨rfl, rfl, ht, hbody⟩

/-- The body is one statement, or a switch with a case for each location. -/
theorem readerBody_cases (h : p.readerBody w n = .ok (some body)) :
    (∃ L stmt, p.locations = [L] ∧ p.statement w n L = .ok (some stmt) ∧ body = .single stmt)
    ∨ ∃ cases, body = .switch (if p.byPage w then some w.pageSize else none) cases
        ∧ List.Forall₂ (fun L c => p.caseLabel w L = some c.1
            ∧ p.statement w n L = .ok (some c.2)) p.locations cases := by
  unfold readerBody at h
  split at h
  · next L hL =>
    obtain ⟨stmt, hstmt, rfl⟩ := mapSome_eq_some_iff.mp h
    exact .inl ⟨L, stmt, hL, hstmt, rfl⟩
  · obtain ⟨cases, hcases, rfl⟩ := mapSome_eq_some_iff.mp h
    exact .inr ⟨cases, rfl, (collect_eq_some_iff.mp hcases).imp
      fun _ _ hc => switchCase_eq_some_iff.mp hc⟩

/-! ### Dispatch -/

/-- Where the binaries are mapped: each at a multiple of the page size from the addresses in
    the file, `resolve_global_address` finds addresses there, and it does not take two places
    for one. -/
structure LoadedAt (p : Probe) (w : World) (bias : String → UInt64) : Prop where
  page : ∀ binPath, w.pageSize.toNat ∣ (bias binPath).toNat
  resolved : ∀ L ∈ p.locations, ∀ g, p.resolveGlobalAddress w L.binPath L.address = some g →
    g = L.address + bias L.binPath
  injective : ∀ L ∈ p.locations, ∀ M ∈ p.locations, ∀ g,
    p.resolveGlobalAddress w L.binPath L.address = some g →
    p.resolveGlobalAddress w M.binPath M.address = some g → L.key = M.key

/-- The page offsets are as many as the locations only if they are pairwise different. -/
theorem nodup_of_byPage (h : p.byPage w = true) :
    (p.locations.map (fun L => L.address % w.pageSize)).Nodup := by
  have hlen : (p.pageOffsets w).length
      = (p.locations.map (fun L => toInt32 (L.address % w.pageSize).toNat)).length := by
    rw [length_map]
    exact eq_of_beq h
  have hnodup := dedup_eq_self.mp ((dedup_sublist _).eq_of_length hlen)
  have hmap : p.locations.map (fun L => toInt32 (L.address % w.pageSize).toNat)
      = (p.locations.map (fun L => L.address % w.pageSize)).map (fun x => toInt32 x.toNat) := by
    rw [map_map, Function.comp_def]
  rw [hmap] at hnodup
  exact hnodup.of_map

variable {bias : String → UInt64}

/-- The labels of different places are different. -/
theorem caseLabel_nodup (hload : p.LoadedAt w bias)
    (hkeys : p.locations.Pairwise (fun L M => L.key < M.key))
    (hsome : ∀ L ∈ p.locations, (p.caseLabel w L).isSome) :
    (p.locations.map (p.caseLabel w)).Nodup := by
  by_cases hpage : p.byPage w = true
  · have hlabel : p.locations.map (p.caseLabel w)
        = (p.locations.map (fun L => L.address % w.pageSize)).map some := by
      rw [map_map]
      exact map_congr_left fun L _ => if_pos hpage
    rw [hlabel]
    exact (nodup_of_byPage hpage).map (Option.some_injective _)
  · rw [List.Nodup, pairwise_map]
    refine hkeys.imp_of_mem ?_
    intro L M hL hM hlt heq
    obtain ⟨g, hg⟩ := Option.isSome_iff_exists.mp (hsome L hL)
    have hres : ∀ {K : Location}, p.caseLabel w K = some g →
        p.resolveGlobalAddress w K.binPath K.address = some g := by
      intro K hK
      rwa [caseLabel, if_neg hpage] at hK
    exact absurd (hload.injective L hL M hM g (hres hg) (hres (heq ▸ hg))) hlt.ne

/-- **Dispatch.**  The labels of a reader are pairwise different, and at the runtime address of
    a location the statement emitted for that location runs. -/
theorem readerBody_dispatches (hload : p.LoadedAt w bias)
    (hkeys : p.locations.Pairwise (fun L M => L.key < M.key))
    (h : p.readerBody w n = .ok (some body)) :
    body.labels.Nodup ∧ ∀ L ∈ p.locations, ∃ stmt, p.statement w n L = .ok (some stmt)
      ∧ body.select (L.address + bias L.binPath) = some stmt := by
  rcases readerBody_cases h with ⟨M, stmt, hM, hstmt, rfl⟩ | ⟨cases, rfl, hcases⟩
  · refine ⟨nodup_nil, ?_⟩
    intro L hL
    rw [hM, mem_singleton] at hL
    exact ⟨stmt, hL ▸ hstmt, rfl⟩
  · have hlabels : p.locations.map (p.caseLabel w) = (cases.map Prod.fst).map some := by
      rw [map_map, ← forall₂_eq_eq_eq, forall₂_map_left_iff, forall₂_map_right_iff]
      exact hcases.imp fun _ _ hc => hc.1
    have hcase : ∀ L ∈ p.locations, ∃ c ∈ cases, p.caseLabel w L = some c.1
        ∧ p.statement w n L = .ok (some c.2) := by
      intro L hL
      exact exists_of_forall₂ hcases hL
    have hnodup : (cases.map Prod.fst).Nodup := by
      apply List.Nodup.of_map some
      rw [← hlabels]
      refine caseLabel_nodup hload hkeys ?_
      intro L hL
      obtain ⟨c, -, hc, -⟩ := hcase L hL
      rw [hc]
      rfl
    refine ⟨hnodup, ?_⟩
    intro L hL
    obtain ⟨⟨label, stmt⟩, hmem, hlabel, hstmt⟩ := hcase L hL
    refine ⟨stmt, hstmt, ?_⟩
    rw [← Cursor.lookup_of_mem hnodup hmem]
    -- the switch is on the offset within the page, or on the whole address
    by_cases hpage : p.byPage w = true
    · rw [if_pos hpage]
      have : L.address % w.pageSize = label := by
        rw [caseLabel, if_pos hpage] at hlabel
        exact Option.some.inj hlabel
      rw [Body.select, w.add_mod_pageSize _ (hload.page _), this]
    · rw [if_neg hpage, Body.select]
      rw [caseLabel, if_neg hpage] at hlabel
      rw [hload.resolved L hL label hlabel]

/-! ### The type of a reader -/

/-- The loop of `largest_arg_type` ends with an operand that is one of those it looked at, and
    as wide as any of them. -/
theorem largestArg_spec {ls : List Location} {largest : Option Argument} {a : Argument}
    (h : largestArg n ls largest = .ok (some a)) :
    (largest = some a ∨ ∃ L ∈ ls, L.arguments[n]? = some a)
      ∧ (∀ b, largest = some b → b.size.natAbs ≤ a.size.natAbs)
      ∧ ∀ L ∈ ls, ∃ b, L.arguments[n]? = some b ∧ b.size.natAbs ≤ a.size.natAbs := by
  induction ls generalizing largest with
  | nil =>
    obtain rfl : largest = some a := Except.ok.inj h
    refine ⟨.inl rfl, ?_, fun L hL => absurd hL not_mem_nil⟩
    rintro b ⟨⟩
    exact Nat.le_refl _
  | cons L ls ih =>
    obtain ⟨c, hc, h⟩ := bind_eq_ok_iff.mp h
    rw [element_eq_ok_iff] at hc
    -- with `c` or the operand before it as the widest so far
    have hstep : ∀ {d : Argument}, largestArg n ls (some d) = .ok (some a) →
        (d = c ∨ largest = some d) → c.size.natAbs ≤ d.size.natAbs →
        (∀ b, largest = some b → b.size.natAbs ≤ d.size.natAbs) →
        (largest = some a ∨ ∃ M ∈ L :: ls, M.arguments[n]? = some a)
          ∧ (∀ b, largest = some b → b.size.natAbs ≤ a.size.natAbs)
          ∧ ∀ M ∈ L :: ls, ∃ b, M.arguments[n]? = some b ∧ b.size.natAbs ≤ a.size.natAbs := by
      intro d hd hor hcd hbd
      obtain ⟨hsrc, hmax, hall⟩ := ih hd
      have hda : d.size.natAbs ≤ a.size.natAbs := hmax d rfl
      refine ⟨?_, fun b hb => (hbd b hb).trans hda, ?_⟩
      · rcases hsrc with hda | ⟨M, hM, hMa⟩
        · cases hda
          rcases hor with rfl | hor
          · exact .inr ⟨L, mem_cons_self, hc⟩
          · exact .inl hor
        · exact .inr ⟨M, mem_cons_of_mem L hM, hMa⟩
      · intro M hM
        rcases mem_cons.mp hM with rfl | hM
        · exact ⟨c, hc, hcd.trans hda⟩
        · exact hall M hM
    cases largest with
    | none => exact hstep h (.inl rfl) (Nat.le_refl _) (fun b hb => by cases hb)
    | some e =>
      dsimp only at h
      split at h
      · next hlt =>
        refine hstep h (.inl rfl) (Nat.le_refl _) ?_
        rintro b ⟨⟩
        exact hlt.le
      · next hge =>
        refine hstep h (.inr rfl) (by omega) ?_
        rintro b ⟨⟩
        exact Nat.le_refl _

/-- The reader's type is that of an operand, and at least as wide as that of each. -/
theorem largestArgType_spec {t : CType} (h : p.largestArgType n = .ok t) :
    (∃ L ∈ p.locations, ∃ a, L.arguments[n]? = some a ∧ a.ctypeName = .ok t)
      ∧ ∀ L ∈ p.locations, ∀ b t', L.arguments[n]? = some b → b.ctypeName = .ok t' →
        t'.sizeof ≤ t.sizeof := by
  obtain ⟨o, ho, h⟩ := bind_eq_ok_iff.mp h
  cases o with
  | none => cases h
  | some a =>
    obtain ⟨hsrc, -, hall⟩ := largestArg_spec ho
    refine ⟨?_, ?_⟩
    · rcases hsrc with hsrc | ⟨L, hL, ha⟩
      · cases hsrc
      · exact ⟨L, hL, a, ha, h⟩
    · intro L hL b t' hb ht'
      obtain ⟨b', hb', hle⟩ := hall L hL
      cases hb.symm.trans hb'
      rw [Argument.sizeof_of_ctypeName h, Argument.sizeof_of_ctypeName ht',
        Nat.log2_eq_log_two, Nat.log2_eq_log_two]
      exact Nat.pow_le_pow_right (by decide) (Nat.log_mono_right hle)

/-! ### What the readers store -/

/-- At the runtime address of each location, the reader of argument `n` stores the value that
    the location's own argument denotes. -/
def StoresOwn (p : Probe) (w : World) (bias : String → UInt64) (n : Nat) (r : Reader) : Prop :=
  ∀ L ∈ p.locations, ∀ m : Machine, m.ip = L.address + bias L.binPath →
    ∃ a v, L.arguments[n]? = some a ∧ a.denote m w.globals L.binPath p.pid = some v
      ∧ r.exec m r.ctype.sizeof = some (r.ctype.convert v)

/-- A reader stores each location's own value exactly if the operands fit its type. -/
theorem storesOwn_iff (hload : p.LoadedAt w bias)
    (hkeys : p.locations.Pairwise (fun L M => L.key < M.key))
    (h : p.readerBody w n = .ok (some r.body)) :
    p.StoresOwn w bias n r
      ↔ ∀ L ∈ p.locations, ∀ a, L.arguments[n]? = some a → a.FitsReader r.ctype := by
  refine forall₂_congr fun L hL => ?_
  obtain ⟨stmt, hstmt, hselect⟩ := (readerBody_dispatches hload hkeys h).2 L hL
  obtain ⟨a, ha, hassign⟩ := statement_eq_some_iff.mp hstmt
  have hexec : ∀ m : Machine, m.ip = L.address + bias L.binPath →
      r.exec m r.ctype.sizeof = some (r.ctype.convert (stmt.eval m)) := by
    intro m hm
    rw [Reader.exec, if_pos rfl, hm, hselect]
    rfl
  have hfits := Argument.stores_iff hassign r.ctype (L.address + bias L.binPath)
  constructor
  · intro hall b hb
    cases ha.symm.trans hb
    refine hfits.mp ?_
    intro m hm
    obtain ⟨b, v, hb, hden, hv⟩ := hall m hm
    cases ha.symm.trans hb
    rw [hden, Option.map_some, ← hv, hexec m hm]
  · intro hall m hm
    have hval := hfits.mpr (hall a ha) m hm
    obtain ⟨v, hden, hv⟩ := Option.map_eq_some_iff.mp hval.symm
    exact ⟨a, v, ha, hden, by rw [hexec m hm, hv]⟩

/-- The readers, by argument number. -/
theorem usdtGetargFor_getElem {rs : List Reader} (h : p.usdtGetargFor w func = .ok (some rs)) :
    rs.length = p.numArguments
      ∧ ∀ n r, rs[n]? = some r → p.reader w func n = .ok (some r) := by
  obtain ⟨hlen, hget⟩ := forall₂_iff_get.mp (collect_eq_some_iff.mp h)
  rw [length_range] at hlen
  refine ⟨hlen.symm, ?_⟩
  intro n r hr
  obtain ⟨hn, rfl⟩ := List.getElem?_eq_some_iff.mp hr
  simpa using hget n (by rw [length_range]; omega) hn

/-- **Own values.**  For a probe with finalized locations, mapped by whole pages into a process
    where addresses are resolved one-to-one, the labels of each reader are pairwise different
    and it stores at each location the value of the location's own argument, exactly if every
    operand that is a register is at least as wide as the type of that argument at any of the
    locations, and can be read. -/
theorem usdtGetarg_storesOwn_iff {q : Probe} {bias : String → UInt64} {rs : List Reader}
    (hfin : p.FinalizeLocations q) (hload : q.LoadedAt w bias)
    (h : q.usdtGetargFor w func = .ok (some rs)) :
    (∀ n r, rs[n]? = some r → r.body.labels.Nodup ∧ q.StoresOwn w bias n r)
      ↔ ∀ n < q.numArguments, ∀ L ∈ q.locations, ∀ M ∈ q.locations, ∀ a b t,
        L.arguments[n]? = some a → M.arguments[n]? = some b → b.ctypeName = .ok t →
        a.FitsReader t := by
  obtain ⟨hlen, hreader⟩ := usdtGetargFor_getElem h
  have hkeys := hfin.pairwise_lt
  constructor
  · intro hall n hn L hL M hM a b t ha hb ht
    have hr : rs[n]? = some (rs.get ⟨n, hlen ▸ hn⟩) := getElem?_eq_getElem _
    obtain ⟨-, -, htype, hbody⟩ := reader_eq_some (hreader n _ hr)
    have hfits := (storesOwn_iff hload hkeys hbody).mp (hall n _ hr).2 L hL a ha
    exact hfits.mono ((largestArgType_spec htype).2 M hM b t hb ht)
  · intro hcond n r hr
    have hn : n < q.numArguments := by
      obtain ⟨hn, -⟩ := List.getElem?_eq_some_iff.mp hr
      omega
    obtain ⟨-, -, htype, hbody⟩ := reader_eq_some (hreader n r hr)
    obtain ⟨⟨M, hM, b, hb, hbt⟩, -⟩ := largestArgType_spec htype
    refine ⟨(readerBody_dispatches hload hkeys hbody).1, ?_⟩
    exact (storesOwn_iff hload hkeys hbody).mpr
      fun L hL a ha => hcond n hn L hL M hM a b _ ha hb hbt

/-- A probe with one argument and two locations, 16 bytes apart in one executable. -/
def twoSites (a b : Argument) : Probe where
  binPath := "/bin/a"
  provider := "p"
  name := "n"
  semaphore := 0
  semaphoreOffset := 0
  locations := [⟨16, "/bin/a", [a]⟩, ⟨32, "/bin/a", [b]⟩]
  pid := none
  attachedTo := none
  attachedSemaphore := none
  modMatchInodeOnly := 1
  located := cons_ne_nil _ _

/-- The register `ax`, as an integer of a given size. -/
def axOfSize (size : Int) : Argument :=
  { Argument.empty with argSize := some size, baseRegisterName := some "ax" }

theorem twoSites_finalized (a b : Argument) : (twoSites a b).FinalizeLocations (twoSites a b) := by
  apply FinalizeLocations.self
  have hlt : (⟨16, "/bin/a", [a]⟩ : Location).key < (⟨32, "/bin/a", [b]⟩ : Location).key :=
    Prod.Lex.toLex_lt_toLex.mpr (.inr ⟨rfl, show 16 < 32 by decide⟩)
  simpa [twoSites] using hlt

theorem twoSites_loaded (a b : Argument) : (twoSites a b).LoadedAt World.plain (fun _ => 0) where
  page := fun _ => Nat.dvd_zero _
  resolved := by
    intro L _ g hg
    simpa [resolveGlobalAddress, World.plain, eq_comm] using hg
  injective := by
    intro L hL M hM g hg hg'
    have heq : L.address = M.address := by
      simp only [resolveGlobalAddress, World.plain, Bool.false_eq_true, if_false,
        Option.some.injEq] at hg hg'
      exact hg.trans hg'.symm
    have hpath : ∀ K ∈ (twoSites a b).locations, K.binPath = "/bin/a" := by
      simp [twoSites]
    exact Location.key_inj.mpr ⟨(hpath L hL).trans (hpath M hM).symm, heq⟩

/-- Two registers of eight bytes are read as they are. -/
theorem usdtGetarg_storesOwn_eight :
    (twoSites (axOfSize (-8)) (axOfSize 8)).StoresOwn World.plain (fun _ => 0) 0
      ⟨"f", 1, .int64, .switch (some 4096) [(16, .reg "ax"), (32, .reg "ax")]⟩ := by
  have hget : (twoSites (axOfSize (-8)) (axOfSize 8)).usdtGetargFor World.plain "f"
      = .ok (some [⟨"f", 1, .int64, .switch (some 4096) [(16, .reg "ax"), (32, .reg "ax")]⟩]) := by
    decide
  have hwide : ∀ t, ∀ a ∈ [axOfSize (-8), axOfSize 8], a.FitsReader t := by
    intro t a ha base hbase
    have hax : ∀ a ∈ [axOfSize (-8), axOfSize 8],
        a.baseRegisterName = some "ax" ∧ a.size.natAbs = 8 := by decide
    obtain rfl : "ax" = base := Option.some.inj ((hax a ha).1.symm.trans hbase.2.2)
    rw [if_neg (by decide), (hax a ha).2]
    exact t.sizeof_le
  refine ((usdtGetarg_storesOwn_iff (twoSites_finalized _ _) (twoSites_loaded _ _) hget).mpr
    ?_ 0 _ rfl).2
  intro n hn L hL M _ a b t ha _ _
  obtain rfl : n = 0 := Nat.lt_one_iff.mp hn
  refine hwide t a ?_
  simp only [twoSites, mem_cons, not_mem_nil, or_false] at hL
  rcases hL with rfl | rfl
  · exact mem_cons.mpr (.inl (Option.some.inj ha).symm)
  · exact mem_cons_of_mem _ (mem_singleton.mpr (Option.some.inj ha).symm)

/-- A register of four bytes is not narrowed to them when the argument has eight bytes at the
    other location: `-4@%eax` holding -1 is read as 4294967295. -/
theorem narrow_register_misread :
    (twoSites (axOfSize (-8)) (axOfSize (-4))).FinalizeLocations
        (twoSites (axOfSize (-8)) (axOfSize (-4)))
      ∧ (twoSites (axOfSize (-8)) (axOfSize (-4))).LoadedAt World.plain (fun _ => 0)
      ∧ (twoSites (axOfSize (-8)) (axOfSize (-4))).usdtGetargFor World.plain "f"
        = .ok (some [⟨"f", 1, .int64, .switch (some 4096) [(16, .reg "ax"), (32, .reg "ax")]⟩])
      ∧ ¬ (twoSites (axOfSize (-8)) (axOfSize (-4))).StoresOwn World.plain (fun _ => 0) 0
        ⟨"f", 1, .int64, .switch (some 4096) [(16, .reg "ax"), (32, .reg "ax")]⟩ := by
  refine ⟨twoSites_finalized _ _, twoSites_loaded _ _, by decide, ?_⟩
  intro hown
  obtain ⟨a, v, ha, hv, hexec⟩ := hown ⟨32, "/bin/a", [axOfSize (-4)]⟩ (by simp [twoSites])
    ⟨32, fun _ => 4294967295, fun _ _ => 0⟩ rfl
  obtain rfl : axOfSize (-4) = a := Option.some.inj ha
  obtain rfl : -1 = v := Option.some.inj ((by decide : _ = _).trans hv)
  exact absurd hexec (by decide)

end Probe

end Bcc.Usdt
