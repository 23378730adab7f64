import Bcc.Text.Search
import Bcc.Usdt.Getarg

namespace Bcc.Usdt

open CText List

/-!
# USDT — `bcc_usdt_genargs`: the readers of all enabled probes

* `genargs` — the readers of all enabled probes of several contexts.  A probe is skipped if one with
  its binary, provider and name was seen before;
* `definedOnce_iff` — but a reader is named after the function its probe is attached to.
-/

/-- The text handed to the compiler: the header and the readers, or nothing at all. -/
structure Program where
  header : Bool
  readers : List Reader

/-- How often the program defines a function. -/
def Program.definitions (prog : Program) (symbol : String) : Nat :=
  prog.readers.countP (fun r => r.symbol == symbol)

/-- What identifies a probe for `bcc_usdt_genargs`. -/
def Context.probeKey (ctx : Context) (p : Probe) : String :=
  ctx.cmdBinPath ++ "*" ++ p.provider ++ "*" ++ p.name

/-- The probes of the contexts in turn, with their keys. -/
def keyedProbes (ctxs : List Context) : List (String × Probe) :=
  ctxs.flatMap (fun ctx => ctx.probes.map (fun p => (ctx.probeKey p, p)))

/-- The loop of `bcc_usdt_genargs`, with the keys in `generated_probes` and the readers so
    far. -/
def genLoop (w : World) : List (String × Probe) → List String → List Reader →
    Res (Option (List Reader))
  | [], _, out => .ok (some out)
  | (key, p) :: ps, keys, out =>
    if p.enabled = false then genLoop w ps keys out
    else if key ∈ keys then genLoop w ps keys out
    else do
      match ← p.usdtGetarg w with
      | none => return none
      | some rs => genLoop w ps (key :: keys) (out ++ rs)

/-- `bcc_usdt_genargs`. -/
def genargs (w : World) (ctxs : List Context) : Res (Option Program) :=
  if ctxs = [] then .ok (some ⟨false, []⟩)
  else mapSome (Program.mk true) (genLoop w (keyedProbes ctxs) [] [])

/-- The enabled probes that are the first with their key. -/
def representatives : List (String × Probe) → List String → List Probe
  | [], _ => []
  | (key, p) :: ps, keys =>
    if p.enabled = false then representatives ps keys
    else if key ∈ keys then representatives ps keys
    else p :: representatives ps (key :: keys)

/-! ### The name of a reader -/

/-- The function and the number of the argument can be read off the name. -/
theorem Reader.symbolOf_inj {f g : String} {i j : Nat} :
    symbolOf f i = symbolOf g j ↔ f = g ∧ i = j := by
  constructor
  · intro h
    have hdigits : ∀ n : Nat, '_' ∉ Nat.toDigits 10 n := by
      intro n hmem
      exact absurd (Nat.isDigit_of_mem_toDigits (by decide) (by decide) hmem) (by decide)
    have htext : ∀ f n, (symbolOf f n).toList
        = "_bpf_readarg_".toList ++ (f.toList ++ '_' :: Nat.toDigits 10 n) := by
      unfold symbolOf
      generalize "_bpf_readarg_" = pre
      simp
    have hlist := congrArg String.toList h
    rw [htext, htext] at hlist
    obtain ⟨hf, hn⟩ := append_cons_inj_last (hdigits i) (hdigits j)
      (append_cancel_left hlist)
    refine ⟨String.toList_inj.mp hf, ?_⟩
    rw [← digitsValue_toDigits i, hn, digitsValue_toDigits]
  · rintro ⟨rfl, rfl⟩
    rfl

/-! ### Which readers there are -/

variable {w : World}

/-- A run that ends puts out the readers of the representatives. -/
theorem genLoop_eq_some {ps : List (String × Probe)} {keys : List String} {out rs : List Reader}
    (h : genLoop w ps keys out = .ok (some rs)) :
    ∃ rss, List.Forall₂ (fun p rs => p.usdtGetarg w = .ok (some rs)) (representatives ps keys) rss
      ∧ rs = out ++ rss.flatten := by
  induction ps generalizing keys out with
  | nil => exact ⟨[], .nil, by simpa [genLoop, eq_comm] using h⟩
  | cons kp ps ih =>
    rw [genLoop] at h
    rw [representatives]
    split at h
    · next hen => rw [if_pos hen]; exact ih h
    rename_i hen
    rw [if_neg hen]
    split at h
    · next hkey => rw [if_pos hkey]; exact ih h
    rename_i hkey
    rw [if_neg hkey]
    obtain ⟨o, ho, h⟩ := bind_eq_ok_iff.mp h
    cases o with
    | none => simp at h
    | some rs₁ =>
      obtain ⟨rss, hrss, rfl⟩ := ih h
      exact ⟨rs₁ :: rss, .cons ho hrss, by simp⟩

/-- The readers of a probe are those of its arguments, for the function it is attached to. -/
theorem Probe.usdtGetarg_names {p : Probe} {rs : List Reader}
    (h : p.usdtGetarg w = .ok (some rs)) :
    ∃ f, p.attachedTo = some f
      ∧ rs.map Reader.symbol = (List.range p.numArguments).map (fun i => Reader.symbolOf f (i + 1))
    := by
  unfold Probe.usdtGetarg at h
  split at h
  · cases h
  rename_i f hf
  split at h
  · cases h
  · refine ⟨f, hf, ?_⟩
    rw [← forall₂_eq_eq_eq, forall₂_map_left_iff, forall₂_map_right_iff]
    refine ((collect_eq_some_iff.mp h).flip).imp ?_
    intro r n hr
    obtain ⟨hfunc, hno, -, -⟩ := Probe.reader_eq_some hr
    rw [Reader.symbol, hfunc, hno]

/-- A probe defines the reader of an argument once, if it has that argument. -/
theorem Probe.usdtGetarg_count {p : Probe} {rs : List Reader}
    (h : p.usdtGetarg w = .ok (some rs)) (f : String) (i : Nat) :
    rs.countP (fun r => r.symbol == Reader.symbolOf f i)
      = if p.attachedTo = some f ∧ 1 ≤ i ∧ i ≤ p.numArguments then 1 else 0 := by
  obtain ⟨g, hg, hnames⟩ := Probe.usdtGetarg_names h
  have hcount : rs.countP (fun r => r.symbol == Reader.symbolOf f i)
      = (rs.map Reader.symbol).count (Reader.symbolOf f i) := by
    rw [List.count, countP_map]
    rfl
  have hnodup : ((List.range p.numArguments).map (fun i => Reader.symbolOf g (i + 1))).Nodup := by
    refine nodup_range.map ?_
    intro a b hab
    exact Nat.succ.inj (Reader.symbolOf_inj.mp hab).2
  rw [hcount, hnames, hnodup.count, hg]
  refine if_congr ?_ rfl rfl
  simp only [mem_map, mem_range, Reader.symbolOf_inj, Option.some.injEq]
  constructor
  · rintro ⟨n, hn, rfl, rfl⟩
    exact ⟨rfl, by omega, by omega⟩
  · rintro ⟨rfl, h1, h2⟩
    exact ⟨i - 1, by omega, rfl, by omega⟩

/-- **Definitions.**  A reader is defined once for each representative that is attached to its
    function and has its argument. -/
theorem definitions_eq {ctxs : List Context} {prog : Program}
    (h : genargs w ctxs = .ok (some prog)) (f : String) (i : Nat) :
    prog.definitions (Reader.symbolOf f i)
      = (representatives (keyedProbes ctxs) []).countP
          (fun q => q.attachedTo = some f ∧ 1 ≤ i ∧ i ≤ q.numArguments) := by
  have hflat : ∀ {ps : List Probe} {rss : List (List Reader)},
      List.Forall₂ (fun p rs => p.usdtGetarg w = .ok (some rs)) ps rss →
      rss.flatten.countP (fun r => r.symbol == Reader.symbolOf f i)
        = ps.countP (fun q => q.attachedTo = some f ∧ 1 ≤ i ∧ i ≤ q.numArguments) := by
    intro ps rss hps
    induction hps with
    | nil => rfl
    | cons hp _ ih =>
      rw [flatten_cons, countP_append, countP_cons, ih, Probe.usdtGetarg_count hp, Nat.add_comm]
      simp
  unfold genargs at h
  split at h
  · next hnil =>
    cases h
    rw [hnil]
    rfl
  · obtain ⟨rs, hrs, rfl⟩ := mapSome_eq_some_iff.mp h
    obtain ⟨rss, hrss, rfl⟩ := genLoop_eq_some hrs
    exact hflat hrss

/-! ### One definition each -/

/-- Every enabled probe finds each of its readers defined exactly once. -/
def DefinedOnce (ctxs : List Context) (prog : Program) : Prop :=
  ∀ ctx ∈ ctxs, ∀ p ∈ ctx.probes, ∀ f, p.attachedTo = some f →
    ∀ i, 1 ≤ i → i ≤ p.numArguments → prog.definitions (Reader.symbolOf f i) = 1

/-- Among the enabled probes that are the first with their key, exactly one with arguments is
    attached to `f`, and one that is has at least `n` arguments. -/
def OneReaderFor (ctxs : List Context) (f : String) (n : Nat) : Prop :=
  (representatives (keyedProbes ctxs) []).countP
      (fun q => q.attachedTo = some f ∧ 1 ≤ q.numArguments) = 1
    ∧ ∃ q ∈ representatives (keyedProbes ctxs) [], q.attachedTo = some f ∧ n ≤ q.numArguments

/-- Counting the arguments of the representatives attached to one function. -/
theorem countP_eq_one_iff {ps : List Probe} {f : String} {n : Nat} (hn : 1 ≤ n) :
    (∀ i, 1 ≤ i → i ≤ n →
        ps.countP (fun q => q.attachedTo = some f ∧ 1 ≤ i ∧ i ≤ q.numArguments) = 1)
      ↔ ps.countP (fun q => q.attachedTo = some f ∧ 1 ≤ q.numArguments) = 1
        ∧ ∃ q ∈ ps, q.attachedTo = some f ∧ n ≤ q.numArguments := by
  have hone : ps.countP (fun q => q.attachedTo = some f ∧ 1 ≤ 1 ∧ 1 ≤ q.numArguments)
      = ps.countP (fun q => q.attachedTo = some f ∧ 1 ≤ q.numArguments) := by
    simp
  constructor
  · intro hall
    refine ⟨hone ▸ hall 1 (Nat.le_refl 1) hn, ?_⟩
    have hpos : 0 < ps.countP (fun q => q.attachedTo = some f ∧ 1 ≤ n ∧ n ≤ q.numArguments) := by
      rw [hall n hn (Nat.le_refl n)]
      exact Nat.one_pos
    obtain ⟨q, hq, hqf⟩ := countP_pos_iff.mp hpos
    obtain ⟨hf, -, hle⟩ := of_decide_eq_true hqf
    exact ⟨q, hq, hf, hle⟩
  · rintro ⟨hcount, q, hq, hf, hle⟩ i h1 hi
    apply Nat.le_antisymm
    · -- a probe with argument `i` has arguments
      rw [← hcount]
      apply countP_mono_left
      intro q _ hqi
      obtain ⟨hqf, -, hqn⟩ := of_decide_eq_true hqi
      exact decide_eq_true ⟨hqf, h1.trans hqn⟩
    · exact countP_pos_iff.mpr ⟨q, hq, decide_eq_true ⟨hf, h1, hi.trans hle⟩⟩

/-- **One definition each.**  On arrays of contexts for which a program is generated, every
    enabled probe finds each of its readers defined exactly once, exactly if for every enabled
    probe with arguments there is one reader for its function. -/
theorem definedOnce_iff {ctxs : List Context} {prog : Program}
    (h : genargs w ctxs = .ok (some prog)) :
    DefinedOnce ctxs prog ↔ ∀ ctx ∈ ctxs, ∀ p ∈ ctx.probes, ∀ f, p.attachedTo = some f →
      1 ≤ p.numArguments → OneReaderFor ctxs f p.numArguments := by
  simp only [DefinedOnce, definitions_eq h]
  refine forall₂_congr fun ctx _ => forall₂_congr fun p _ => forall₂_congr fun f _ => ?_
  constructor
  · intro hall hn
    exact (countP_eq_one_iff hn).mp hall
  · intro hone i h1 hi
    exact (countP_eq_one_iff (h1.trans hi)).mpr (hone (h1.trans hi)) i h1 hi

/-- A probe of the provider `p` with one argument, attached to a function. -/
def attachedSite (pid : Option Int) (name func : String) : Probe where
  binPath := "/bin/a"
  provider := "p"
  name := name
  semaphore := 0
  semaphoreOffset := 0
  locations := [⟨16, "/bin/a", [Probe.axOfSize 8]⟩]
  pid := pid
  attachedTo := some func
  attachedSemaphore := none
  modMatchInodeOnly := 1
  located := cons_ne_nil _ _

/-- Two probes with a function each. -/
theorem definedOnce_two_functions :
    ∃ prog, genargs World.plain
        [⟨[attachedSite none "a" "f", attachedSite none "b" "g"], none, "/bin/a", 1⟩]
          = .ok (some prog)
      ∧ DefinedOnce
        [⟨[attachedSite none "a" "f", attachedSite none "b" "g"], none, "/bin/a", 1⟩] prog := by
  refine ⟨_, rfl, (definedOnce_iff (w := World.plain) rfl).mpr ?_⟩
  have hreps : representatives (keyedProbes
      [⟨[attachedSite none "a" "f", attachedSite none "b" "g"], none, "/bin/a", 1⟩]) []
        = [attachedSite none "a" "f", attachedSite none "b" "g"] := rfl
  intro ctx hctx p hp f hf _
  obtain rfl := mem_singleton.mp hctx
  have hp : p = attachedSite none "a" "f" ∨ p = attachedSite none "b" "g" := by simpa using hp
  obtain rfl | rfl := hp
  · cases hf
    exact ⟨rfl, attachedSite none "a" "f", by rw [hreps]; simp, rfl, Nat.le_refl _⟩
  · cases hf
    exact ⟨rfl, attachedSite none "b" "g", by rw [hreps]; simp, rfl, Nat.le_refl _⟩

/-- Two probes attached to one function define its reader twice; and of one probe in two
    contexts, attached to two functions, the second finds no reader. -/
theorem shared_handler_redefines :
    (∃ prog, genargs World.plain
        [⟨[attachedSite none "a" "f", attachedSite none "b" "f"], none, "/bin/a", 1⟩]
          = .ok (some prog)
      ∧ prog.definitions (Reader.symbolOf "f" 1) = 2)
    ∧ ∃ prog, genargs World.plain
        [⟨[attachedSite (some 1) "a" "f"], some 1, "/bin/a", 1⟩,
          ⟨[attachedSite (some 2) "a" "g"], some 2, "/bin/a", 1⟩]
          = .ok (some prog)
      ∧ prog.definitions (Reader.symbolOf "g" 1) = 0 := by
  exact ⟨⟨_, rfl, rfl⟩, _, rfl, rfl⟩

end Bcc.Usdt
