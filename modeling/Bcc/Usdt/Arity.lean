import Bcc.Usdt.Getarg

namespace Bcc.Usdt

open CText List

/-!
# USDT — the number of arguments of a probe

The number of arguments of a probe is taken from its first location only.

* `Context.InRange` — every consumer indexes the arguments of all locations below that number;
* `finalize_inRange_iff` — when that is in range.
-/

/-- `Context::get`: the first probe with the provider and the name. -/
def Context.get (ctx : Context) (provider name : String) : Option Probe :=
  ctx.probes.find? (fun p => p.provider == provider && p.name == name)

/-- `bcc_usdt_get_argument`: the size and the fields of an argument that are present; `none`
    where it returns -1. -/
def Context.getArgument (ctx : Context) (provider name : String)
    (locationIndex argumentIndex : Int) : Res (Option Argument) :=
  match ctx.get provider name with
  | none => .ok none
  | some p =>
    if argumentIndex < 0 ∨ p.numArguments ≤ argumentIndex.toNat then .ok none
    else if locationIndex < 0 ∨ p.locations.length ≤ locationIndex.toNat then .ok none
    else do
      let L ← element p.locations locationIndex.toNat
      let a ← element L.arguments argumentIndex.toNat
      return some { a with argSize := some a.size }

/-- No consumer of arguments indexes past the end of a vector. -/
structure Context.InRange (ctx : Context) : Prop where
  /-- Every location has the arguments that the first one has. -/
  arity : ∀ p ∈ ctx.probes, ∀ n < p.numArguments, ∀ L ∈ p.locations, n < L.arguments.length
  largestArgType : ∀ p ∈ ctx.probes, ∀ n < p.numArguments,
    p.largestArgType n ≠ .error .vectorIndex
  usdtGetarg : ∀ p ∈ ctx.probes, ∀ w func, p.usdtGetargFor w func ≠ .error .vectorIndex
  getArgument : ∀ provider name i n, ctx.getArgument provider name i n ≠ .error .vectorIndex

/-! ### Where a vector is indexed past its end -/

namespace Probe

variable {p : Probe} {w : World} {n : Nat} {L : Location} {func : String} {e : Fault}

theorem exists_of_largestArg_error {ls : List Location} {largest : Option Argument}
    (h : largestArg n ls largest = .error e) : ∃ L ∈ ls, L.arguments.length ≤ n := by
  induction ls generalizing largest with
  | nil => cases h
  | cons L ls ih =>
    rcases bind_eq_error_iff.mp h with h | ⟨c, -, h⟩
    · exact ⟨L, mem_cons_self, (element_eq_error_iff.mp h).2⟩
    have htail : ∃ M ∈ ls, M.arguments.length ≤ n := by
      cases largest with
      | none => exact ih h
      | some a =>
        dsimp only at h
        split at h <;> exact ih h
    obtain ⟨M, hM, hle⟩ := htail
    exact ⟨M, mem_cons_of_mem L hM, hle⟩

/-- `largest_arg_type` indexes past the end only at a location with too few arguments. -/
theorem exists_of_largestArgType_error (h : p.largestArgType n = .error .vectorIndex) :
    ∃ L ∈ p.locations, L.arguments.length ≤ n := by
  rcases bind_eq_error_iff.mp h with h | ⟨o, -, h⟩
  · exact exists_of_largestArg_error h
  -- the table of type names is no vector
  cases o with
  | none => cases h
  | some a =>
    simp only [Argument.ctypeName] at h
    split at h
    · cases h
    · split at h <;> cases h

theorem length_le_of_statement_error (h : p.statement w n L = .error .vectorIndex) :
    L.arguments.length ≤ n := by
  rcases bind_eq_error_iff.mp h with h | ⟨a, -, h⟩
  · exact (element_eq_error_iff.mp h).2
  · cases assignToLocal_error h

/-- `usdt_getarg` indexes past the end only at a location with too few arguments. -/
theorem exists_of_usdtGetarg_error (h : p.usdtGetargFor w func = .error .vectorIndex) :
    ∃ n < p.numArguments, ∃ L ∈ p.locations, L.arguments.length ≤ n := by
  obtain ⟨n, hn, h⟩ := exists_of_collect_error h
  refine ⟨n, mem_range.mp hn, ?_⟩
  rcases bind_eq_error_iff.mp h with h | ⟨t, -, h⟩
  · exact exists_of_largestArgType_error h
  rw [mapSome_eq_error_iff, readerBody] at h
  split at h
  · next L hL =>
    rw [mapSome_eq_error_iff] at h
    exact ⟨L, hL ▸ mem_singleton_self L, length_le_of_statement_error h⟩
  · rw [switchBody, mapSome_eq_error_iff] at h
    obtain ⟨L, hL, h⟩ := exists_of_collect_error h
    unfold switchCase at h
    split at h
    · cases h
    · exact ⟨L, hL, length_le_of_statement_error (mapSome_eq_error_iff.mp h)⟩

end Probe

/-- A probe that is looked up is one of the context. -/
theorem Context.mem_of_get {ctx : Context} {provider name : String} {p : Probe}
    (h : ctx.get provider name = some p) : p ∈ ctx.probes :=
  mem_of_find?_eq_some h

/-- **Range.**  No consumer indexes past the end, exactly if each location has the arguments of
    the first one. -/
theorem Context.inRange_iff {ctx : Context} :
    ctx.InRange ↔ ∀ p ∈ ctx.probes, ∀ L ∈ p.locations, p.numArguments ≤ L.arguments.length := by
  constructor
  · intro h p hp L hL
    by_contra hlt
    exact Nat.lt_irrefl _ (h.arity p hp L.arguments.length (by omega) L hL)
  · intro h
    refine ⟨fun p hp n hn L hL => hn.trans_le (h p hp L hL), ?_, ?_, ?_⟩
    · intro p hp n hn herr
      obtain ⟨L, hL, hle⟩ := Probe.exists_of_largestArgType_error herr
      have := h p hp L hL
      omega
    · intro p hp w func herr
      obtain ⟨n, hn, L, hL, hle⟩ := Probe.exists_of_usdtGetarg_error herr
      have := h p hp L hL
      omega
    · intro provider name i n herr
      unfold Context.getArgument at herr
      split at herr
      · cases herr
      rename_i p hget
      have hp := Context.mem_of_get hget
      split at herr
      · cases herr
      split at herr
      · cases herr
      rcases bind_eq_error_iff.mp herr with herr | ⟨L, hL, herr⟩
      · have := (element_eq_error_iff.mp herr).2
        omega
      · have hmem := mem_of_getElem? (element_eq_ok_iff.mp hL)
        rcases bind_eq_error_iff.mp herr with herr | ⟨a, -, herr⟩
        · have h1 := (element_eq_error_iff.mp herr).2
          have h2 := h p hp L hmem
          omega
        · cases herr

/-! ### In terms of the notes -/

/-- Two notes of one probe. -/
def Note.SameProbe (c d : Note) : Prop := c.provider = d.provider ∧ c.name = d.name

/-- Where a note of a binary stands. -/
def notePlace (c : String × Note) : String ×ₗ Nat := toLex (c.1, c.2.pc.toNat)

variable {A : Arch} {ctx : Context} {ns : List (String × Note)}

/-- The locations of a probe, before they are finalized, are those of its notes. -/
theorem Grouped.mem_locations {ps : List Probe} (h : Grouped A ns ps) {p : Probe} (hp : p ∈ ps)
    {L : Location} : L ∈ p.locations ↔ ∃ c ∈ ns, c.2.IsOf p ∧ noteLocation A c = L := by
  rw [h.locations p hp, mem_map]
  simp only [mem_notesOf, and_assoc]

/-- Of the notes of each probe, those at the least place have no more arguments than those at
    another place. -/
def FewestFirst (A : Arch) (ns : List (String × Note)) : Prop :=
  ∀ c ∈ ns, ∀ d ∈ ns, c.2.SameProbe d.2 →
    (∀ e ∈ ns, c.2.SameProbe e.2 → notePlace c ≤ notePlace e) →
    notePlace c < notePlace d → (c.2.arguments A).length ≤ (d.2.arguments A).length

/-- **Arity.**  Whatever order `std::sort` gives to locations at one place, the context built
    from the notes keeps every consumer in range, exactly if the notes of each probe have the
    fewest arguments at the least place. -/
theorem finalize_inRange_iff {pid : Option Int} {cmdBinPath : String} {m : UInt8}
    (h : (Context.new pid cmdBinPath m).addProbes A ns = .ok (some ctx)) :
    (∀ ctx', ctx.Finalize ctx' → ctx'.InRange) ↔ FewestFirst A ns := by
  have hgroup := Context.addProbes_grouped h
  constructor
  · intro hall c hc d hd hcd hleast hlt
    -- let the sort put the locations of `c` and `d` in front of others at their places
    obtain ⟨p, hp, hcp⟩ := hgroup.complete c hc
    have hdp : d.2.IsOf p := ⟨hcp.1.trans hcd.1, hcp.2.trans hcd.2⟩
    obtain ⟨q, hq, hkeep⟩ := p.exists_finalizeLocations
      (s := fun L => L = noteLocation A c ∨ L = noteLocation A d) (by
        rintro L M (rfl | rfl) (rfl | rfl) hkey
        · rfl
        · exact absurd hkey hlt.ne
        · exact absurd hkey hlt.ne'
        · rfl)
    have hmem : ∀ e ∈ ns, e.2.IsOf p → noteLocation A e ∈ p.locations :=
      fun e he hep => (hgroup.mem_locations hp).mpr ⟨e, he, hep, rfl⟩
    have hcq := hkeep _ (hmem c hc hcp) (.inl rfl)
    have hdq := hkeep _ (hmem d hd hdp) (.inr rfl)
    -- the first location is that of `c`
    have hhead : q.locations.head q.located = noteLocation A c := by
      have hin := head_mem q.located
      obtain ⟨e, he, hep, heq⟩ := (hgroup.mem_locations hp).mp (hq.mem hin)
      have hge : notePlace c ≤ notePlace e :=
        hleast e he ⟨hcp.1.symm.trans hep.1, hcp.2.symm.trans hep.2⟩
      rw [← heq] at hin ⊢
      refine hq.eq_of_key hin hcq (le_antisymm ?_ hge)
      rw [heq]
      exact hq.head_key_le (hmem c hc hcp)
    obtain ⟨ctx', hfin, hqmem⟩ := Context.exists_finalize hp hq
    have hle := Context.inRange_iff.mp (hall ctx' hfin) q hqmem _ hdq
    rwa [Probe.numArguments, hhead] at hle
  · intro hcond ctx' hfin
    rw [Context.inRange_iff]
    intro q hq L hL
    obtain ⟨p, hp, hpq⟩ := exists_of_forall₂ hfin.probes.flip hq
    have hin := head_mem q.located
    obtain ⟨c, hc, hcp, hcL⟩ := (hgroup.mem_locations hp).mp (hpq.mem hin)
    obtain ⟨d, hd, hdp, hdL⟩ := (hgroup.mem_locations hp).mp (hpq.mem hL)
    have hle : ∀ e ∈ ns, e.2.IsOf p → notePlace c ≤ notePlace e := by
      intro e he hep
      have := hpq.head_key_le ((hgroup.mem_locations hp).mpr ⟨e, he, hep, rfl⟩)
      rwa [← hcL] at this
    rw [Probe.numArguments]
    rcases (hle d hd hdp).lt_or_eq with hlt | heq
    · rw [← hcL, ← hdL]
      refine hcond c hc d hd ⟨hcp.1.symm.trans hdp.1, hcp.2.symm.trans hdp.2⟩ ?_ hlt
      intro e he hce
      exact hle e he ⟨hcp.1.trans hce.1, hcp.2.trans hce.2⟩
    · -- both stand at one place, of which one location is left
      have hsame : q.locations.head q.located = L := by
        apply hpq.eq_of_key hin hL
        rw [← hcL, ← hdL]
        exact heq
      rw [hsame]

/-- A note of the probe `p:n` of an executable. -/
def siteNote (pc : UInt64) (argFmt : CStr) : String × Note :=
  ("/bin/a", ⟨pc, 0, 0, "p", "n", argFmt⟩)

/-- A context with the probe `p:n`. -/
def siteContext (ls : List Location) (h : ls ≠ []) : Context :=
  ⟨[⟨"/bin/a", "p", "n", 0, 0, ls, none, none, none, 1, h⟩], none, "", 1⟩

/-- Two locations in their order are left as they are. -/
theorem siteContext_finalize (as bs : List Argument) :
    (siteContext [⟨16, "/bin/a", as⟩, ⟨32, "/bin/a", bs⟩] (cons_ne_nil _ _)).Finalize
      (siteContext [⟨16, "/bin/a", as⟩, ⟨32, "/bin/a", bs⟩] (cons_ne_nil _ _)) := by
  refine ⟨.cons (Probe.FinalizeLocations.self ?_) .nil, rfl⟩
  have hlt : (⟨16, "/bin/a", as⟩ : Location).key < (⟨32, "/bin/a", bs⟩ : Location).key :=
    Prod.Lex.toLex_lt_toLex.mpr (.inr ⟨rfl, show 16 < 32 by decide⟩)
  simpa using hlt

/-- Two notes with one argument each. -/
theorem finalize_inRange_two_notes :
    (siteContext [⟨16, "/bin/a", [Probe.axOfSize 8]⟩, ⟨32, "/bin/a", [Probe.axOfSize 4]⟩]
      (cons_ne_nil _ _)).InRange := by
  have hadd : (Context.new none "" 1).addProbes .x64
      [siteNote 16 (CStr.ofString "8@%rax"), siteNote 32 (CStr.ofString "4@%eax")]
        = .ok (some (siteContext
          [⟨16, "/bin/a", [Probe.axOfSize 8]⟩, ⟨32, "/bin/a", [Probe.axOfSize 4]⟩]
            (cons_ne_nil _ _))) := rfl
  refine (finalize_inRange_iff hadd).mpr ?_ _ (siteContext_finalize _ _)
  have hone : ∀ c ∈ [siteNote 16 (CStr.ofString "8@%rax"), siteNote 32 (CStr.ofString "4@%eax")],
      (c.2.arguments .x64).length = 1 := by
    intro c hc
    simp only [mem_cons, not_mem_nil, or_false] at hc
    rcases hc with rfl | rfl <;> rfl
  intro c hc d hd _ _ _
  rw [hone c hc, hone d hd]

/-- The second note of a probe has one argument less than the first: `largest_arg_type` of the
    second argument indexes past the end. -/
theorem shorter_location_out_of_range :
    ∃ ctx, (Context.new none "" 1).addProbes .x64
        [siteNote 16 (CStr.ofString "8@%rax 8@%rax"), siteNote 32 (CStr.ofString "8@%rax")]
          = .ok (some ctx)
      ∧ ctx.Finalize ctx ∧ ∃ p ∈ ctx.probes, 1 < p.numArguments
        ∧ p.largestArgType 1 = .error .vectorIndex := by
  refine ⟨_, rfl, siteContext_finalize [Probe.axOfSize 8, Probe.axOfSize 8] [Probe.axOfSize 8],
    _, mem_singleton_self _, ?_, rfl⟩
  show 1 < 2
  decide

end Bcc.Usdt
