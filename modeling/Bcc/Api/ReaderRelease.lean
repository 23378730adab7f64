import Bcc.Api.ReaderMoves

namespace Bcc.Api.PerfBuffer

open List Run

/-!
# The C++ API — each perf reader is freed once

A reader that stays in `cpu_readers_` although it was freed is freed again, by the destructor at the
latest.  Until it is gone from there no epoll instance is made, so it is never read.

* `inOrder_iff` — when readers are freed once and never read afterwards.
-/

/-! ### Opening that fails -/

/-- The CPUs that were opened before one on which it has failed, after those in `opened`. -/
def beforeFailure (epoll : Bool) : List (Int × Results) → List Int → Option (List Int)
  | [], _ => none
  | (cpu, r) :: rest, opened =>
    if cpu ∈ opened ∨ opens epoll r = false then some opened
    else beforeFailure epoll rest (opened ++ [cpu])

/-- When a failure is found, the CPUs in the table are those before it. -/
theorem openCpus_beforeFailure {epoll : Bool} {cpus : List (Int × Results)} {opened : List Int}
    {s s' : State} {ok : Bool} (hepoll : s.epoll.isSome = epoll)
    (hopened : ∀ cpu, cpu ∈ s.readers ↔ cpu ∈ opened) (hs' : openCpus cpus s = (ok, s')) :
    (ok = true → beforeFailure epoll cpus opened = none) ∧
      (ok = false → ∃ opened', beforeFailure epoll cpus opened = some opened'
        ∧ ∀ cpu, cpu ∈ s'.readers ↔ cpu ∈ opened') := by
  induction cpus generalizing s opened with
  | nil =>
    cases hs'
    exact ⟨fun _ => rfl, fun h => Bool.noConfusion h⟩
  | cons head rest ih =>
    obtain ⟨cpu, r⟩ := head
    unfold openCpus at hs'
    unfold beforeFailure
    rcases openOnCpu_cases cpu r s with ⟨hfail, h⟩ | ⟨hcpu, hopens, registered, hsome, h⟩
    · rw [hopened, hepoll] at hfail
      rw [if_pos hfail]
      have hsame : ok = false ∧ ∀ c, c ∈ s'.readers ↔ c ∈ s.readers := by
        rcases h with h | h
        · rw [h] at hs'
          cases hs'
          exact ⟨rfl, fun _ => Iff.rfl⟩
        · rw [h] at hs'
          cases hs'
          exact ⟨rfl, fun _ => Iff.rfl⟩
      obtain ⟨rfl, hreaders⟩ := hsame
      exact ⟨fun h => Bool.noConfusion h,
        fun _ => ⟨opened, rfl, fun c => (hreaders c).trans (hopened c)⟩⟩
    · rw [hopened] at hcpu
      rw [hepoll] at hopens
      rw [if_neg (not_or.mpr ⟨hcpu, ne_false_of_eq_true hopens⟩)]
      rw [h] at hs'
      refine ih (by rw [← hepoll, hsome]; rfl) (fun c => ?_) hs'
      rw [AList.mem_insert, hopened, mem_append, mem_singleton, or_comm]

/-- All elements of the map that the operation has to delete are deleted: those of all CPUs, or, if
    opening fails on some CPU, of those before it. -/
def Careful (s : State) : Op → Prop
  | .openAllCpu epoll cpus remove => s.readers.keys = [] → s.epoll = none →
    ∀ opened, beforeFailure epoll cpus [] = some opened → ∀ cpu ∈ opened, remove cpu = true
  | .closeAllCpu remove => ∀ cpu ∈ s.readers, remove cpu = true
  | _ => True

theorem openAllCpu_moves {s s' : State} (epoll : Bool) (cpus : List (Int × Results))
    (remove : Int → Bool) (hinv : Inv s) (hbooks : s.ledger.Books)
    (hs' : s' = (openAllCpu epoll cpus remove s).2) :
    Inv s' ∧ ∃ new extra, Ledger.Moves s.ledger s'.ledger new extra
      ∧ (extra = 0 ↔ Careful s (.openAllCpu epoll cpus remove)) := by
  unfold openAllCpu at hs'
  split at hs'
  · next hopen =>
    obtain rfl := hs'
    refine ⟨hinv, 0, 0, .refl _, iff_of_true rfl fun hkeys hnone => ?_⟩
    rcases hopen with hlen | hsome
    · rw [hkeys] at hlen
      exact absurd rfl hlen
    · rw [hnone] at hsome
      cases hsome
  · next hclosed =>
    obtain ⟨hlen, hnone⟩ := not_or.mp hclosed
    have hkeys : s.readers.keys = [] := length_eq_zero_iff.mp (not_not.mp hlen)
    have hnone : s.epoll = none := Option.not_isSome_iff_eq_none.mp hnone
    have hentries : s.readers.entries = [] := map_eq_nil_iff.mp hkeys
    have hinv₀ : Inv { s with epoll := if epoll then some [] else none } := by
      refine ⟨hinv.fresh, fun registered hsome x hx => ?_, fun _ x hx => ?_⟩
      · split at hsome
        · cases hsome
          cases hx
        · cases hsome
      · change x ∈ readersOf s.readers.entries at hx
        rw [hentries] at hx
        cases hx
    have hepoll : (if epoll then some ([] : List Nat) else none).isSome = epoll := by
      cases epoll <;> rfl
    have hopened : ∀ cpu, cpu ∈ s.readers ↔ cpu ∈ ([] : List Int) := fun cpu => by
      rw [AList.mem_keys, hkeys]
    obtain ⟨hinv₁, new, hmoves⟩ := openCpus_moves cpus hinv₀ hbooks rfl
    rcases hloop : openCpus cpus { s with epoll := if epoll then some [] else none } with ⟨ok, s₁⟩
    obtain ⟨hall, hfirst⟩ := openCpus_beforeFailure
      (s := { s with epoll := if epoll then some [] else none }) hepoll hopened hloop
    rw [hloop] at hs' hinv₁ hmoves
    cases ok with
    | true =>
      obtain rfl := hs'
      refine ⟨hinv₁, new, 0, hmoves, iff_of_true rfl fun _ _ opened hbefore => ?_⟩
      cases (hall rfl).symm.trans hbefore
    | false =>
      obtain ⟨opened, hbefore, hreaders⟩ := hfirst rfl
      obtain ⟨hinv₂, extra, hmoves', hextra⟩ :=
        closeAllCpu_moves remove hinv₁ (hbooks.moves hmoves) hs'
      refine ⟨hinv₂, new + 0, 0 + extra, hmoves.trans hmoves', ?_⟩
      rw [zero_add, hextra]
      constructor
      · intro hremove _ _ opened' hbefore' cpu hcpu
        cases hbefore.symm.trans hbefore'
        exact hremove cpu ((hreaders cpu).mpr hcpu)
      · intro hcareful cpu hcpu
        exact hcareful hkeys hnone opened hbefore cpu ((hreaders cpu).mp hcpu)

theorem step_moves (s : State) (op : Op) (hinv : Inv s) (hbooks : s.ledger.Books) :
    Inv (step s op) ∧ ∃ new extra, Ledger.Moves s.ledger (step s op).ledger new extra
      ∧ (extra = 0 ↔ Careful s op) := by
  cases op with
  | openAllCpu epoll cpus remove => exact openAllCpu_moves epoll cpus remove hinv hbooks rfl
  | closeAllCpu remove =>
    obtain ⟨hinv', extra, hmoves, hextra⟩ := closeAllCpu_moves remove hinv hbooks rfl
    exact ⟨hinv', 0, extra, hmoves, hextra⟩
  | poll | consume => exact ⟨hinv, 0, 0, .refl _, iff_of_true rfl trivial⟩

/-! ### Whole runs -/

/-- With an epoll instance or without, no reader that was freed is read. -/
theorem reads_alive {s : State} (hinv : Inv s) (op : Op) : ∀ x ∈ reads s op, x ∉ s.released := by
  intro x hx
  cases op with
  | openAllCpu | closeAllCpu => cases hx
  | poll ready =>
    unfold reads at hx
    cases hepoll : s.epoll with
    | none =>
      rw [hepoll] at hx
      cases hx
    | some registered =>
      rw [hepoll] at hx
      have hmem := (mem_filter.mp (mem_of_mem_take hx)).2
      have hregistered := hinv.registered registered hepoll x (of_decide_eq_true hmem)
      exact hinv.alive (hepoll ▸ rfl) x hregistered
  | consume =>
    change x ∈ if s.epoll.isSome then s.values else [] at hx
    split at hx
    · next hsome => exact hinv.alive hsome x hx
    · cases hx

/-- What a run of operations that the destructor ends is to be. -/
structure InOrder (ops : List Op) (remove : Int → Bool) : Prop where
  /-- In the end each reader that was made has been freed once. -/
  once : ∀ x ∈ (closeAllCpu remove (ops.foldl step start)).acquired,
    (closeAllCpu remove (ops.foldl step start)).released.count x = 1
  /-- `poll` and `consume` read no reader that was freed. -/
  reads : Each step (fun s op => ∀ x ∈ reads s op, x ∉ s.released) start ops
  /-- At any time `cpu_readers_` has the readers that were made and not freed. -/
  table : ∀ run, run <+: ops → ∀ x, x ∈ (run.foldl step start).values
    ↔ x ∈ (run.foldl step start).acquired ∧ x ∉ (run.foldl step start).released

/-- **Perf buffers.** A run is in order exactly if each of its operations deletes all elements of
    the map that it has to. -/
theorem inOrder_iff (ops : List Op) (remove : Int → Bool) :
    InOrder ops remove ↔ Each step Careful start ops := by
  have hbooks : start.ledger.Books := ⟨Multiset.nodup_zero, le_rfl, fun _ hx => hx⟩
  have hbalanced : start.ledger.Balanced := rfl
  have hrun := fun run => Ledger.balanced_run_iff step_moves start_inv hbooks run
  have honce : (∀ x ∈ (closeAllCpu remove (ops.foldl step start)).acquired,
      (closeAllCpu remove (ops.foldl step start)).released.count x = 1)
        ↔ Each step Careful start ops := by
    obtain ⟨-, hbooks', -⟩ := hrun ops
    have hacquired : (closeAllCpu remove (ops.foldl step start)).acquired
        = (ops.foldl step start).acquired :=
      (closeCpus_moves (s := { ops.foldl step start with epoll := none }) remove
        (ops.foldl step start).readers.keys_nodup hbooks' rfl).1.acquired
    rw [hacquired, closeAllCpu_released]
    exact Ledger.once_run_iff step_moves start_inv hbooks hbalanced ops rfl rfl
  constructor
  · exact fun h => honce.mp h.once
  · intro hcareful
    refine ⟨honce.mpr hcareful, ?_, ?_⟩
    · have hstep : ∀ s op, Inv s ∧ s.ledger.Books → (∀ x ∈ reads s op, x ∉ s.released)
          ∧ Inv (step s op) ∧ (step s op).ledger.Books := by
        rintro s op ⟨hinv, hbooks⟩
        obtain ⟨hinv', new, extra, hmoves, -⟩ := step_moves s op hinv hbooks
        exact ⟨reads_alive hinv op, hinv', hbooks.moves hmoves⟩
      exact each_of_inv hstep ⟨start_inv, hbooks⟩ ops
    · rintro run ⟨rest, rfl⟩ x
      obtain ⟨-, hbooks', hiff⟩ := hrun run
      have hrest := (each_append.mp hcareful).1
      exact hbooks'.mem_held_iff (hiff.mpr ⟨hbalanced, hrest⟩) x

/-- The element of a CPU cannot be deleted when the buffer is closed, and the destructor frees its
    reader again. -/
theorem not_inOrder_of_remove_failed :
    ¬ InOrder [.openAllCpu true [(0, ⟨true, true, true⟩)] fun _ => true,
      .closeAllCpu fun _ => false] fun _ => true := by
  intro h
  have hcount := h.once 0 (by decide)
  cases hcount

end Bcc.Api.PerfBuffer
