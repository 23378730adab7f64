import Bcc.Api.PerfBuffer

namespace Bcc.Api.PerfBuffer

open List Run

/-!
# The C++ API — opening and closing on all CPUs

The ledger of a perf buffer has the readers that were made, those that were freed, and those in
`cpu_readers_`.

* `openCpus_moves` — opening makes readers that are recorded or freed again;
* `closeCpus_moves` — closing frees a reader, and keeps it if its element of the map stays.
-/

/-! ### The ledger and the invariant -/

def State.ledger (s : State) : Ledger Nat := ⟨s.acquired, s.released, s.values⟩

/-- The numbers of readers are used up, and with an epoll instance no reader that can be found is
    freed. -/
structure Inv (s : State) : Prop where
  fresh : ∀ x ∈ s.acquired, x < s.next
  registered : ∀ registered, s.epoll = some registered → ∀ x ∈ registered, x ∈ s.values
  alive : s.epoll.isSome → ∀ x ∈ s.values, x ∉ s.released

theorem start_inv : Inv start := ⟨nofun, nofun, nofun⟩

theorem mem_acquired_of_uses {s : State} (h : s.ledger.Books) {x : Nat}
    (hx : x ∈ s.released ∨ x ∈ s.values) : x ∈ s.acquired := by
  apply h.mem_acquired x
  exact Multiset.mem_add.mpr hx

/-! ### Opening -/

/-- When `open_on_cpu` succeeds on a CPU without a reader. -/
def opens (epoll : Bool) (r : Results) : Bool := r.create && r.update && epoll && r.ctl

/-- It makes no reader, frees the one that it has made, or records it. -/
theorem openOnCpu_cases (cpu : Int) (r : Results) (s : State) :
    (cpu ∈ s.readers ∨ opens s.epoll.isSome r = false) ∧
      (openOnCpu cpu r s = (false, s)
        ∨ openOnCpu cpu r s = (false, { s with
          next := s.next + 1
          acquired := s.acquired ++ [s.next]
          released := s.released ++ [s.next] }))
    ∨ cpu ∉ s.readers ∧ opens s.epoll.isSome r = true ∧ ∃ registered, s.epoll = some registered ∧
      openOnCpu cpu r s = (true, { s with
        next := s.next + 1
        readers := s.readers.insert cpu s.next
        epoll := some (registered ++ [s.next])
        acquired := s.acquired ++ [s.next] }) := by
  unfold openOnCpu opens
  obtain ⟨create, update, ctl⟩ := r
  split
  · next hcpu => exact .inl ⟨.inl hcpu, .inl rfl⟩
  rename_i hcpu
  cases create with
  | false => exact .inl ⟨.inr rfl, .inl rfl⟩
  | true =>
    cases update with
    | false => exact .inl ⟨.inr rfl, .inr rfl⟩
    | true =>
      cases s.epoll with
      | none => exact .inl ⟨.inr rfl, .inr rfl⟩
      | some registered =>
        cases ctl with
        | false => exact .inl ⟨.inr rfl, .inr rfl⟩
        | true => exact .inr ⟨hcpu, rfl, registered, rfl, rfl⟩

section Opening

variable {s s' : State}

/-- A reader was made, and is recorded or was freed. -/
theorem make_moves (hinv : Inv s) (hacquired : s'.acquired = s.acquired ++ [s.next])
    (huses : (s'.released ++ s'.values).Perm (s.released ++ s.values ++ [s.next])) :
    Ledger.Moves s.ledger s'.ledger {s.next} 0 := by
  refine .acquire (Multiset.nodup_singleton _) (fun x hx hold => ?_) ?_
    (Multiset.coe_eq_coe.mpr huses)
  · obtain rfl := Multiset.mem_singleton.mp hx
    exact Nat.lt_irrefl _ (hinv.fresh _ (Multiset.mem_coe.mp hold))
  · show (s'.acquired : Multiset Nat) = _
    rw [hacquired]
    rfl

theorem values_insert {cpu : Int} (reader : Nat) (hcpu : cpu ∉ s.readers) :
    readersOf (s.readers.insert cpu reader).entries = reader :: s.values := by
  rw [AList.entries_insert_of_notMem hcpu]
  rfl

theorem openOnCpu_moves (cpu : Int) (r : Results) (hinv : Inv s) (hbooks : s.ledger.Books)
    (hs' : s' = (openOnCpu cpu r s).2) :
    Inv s' ∧ ∃ new, Ledger.Moves s.ledger s'.ledger new 0 := by
  have hfresh : ∀ x ∈ s.acquired ++ [s.next], x < s.next + 1 := by
    intro x hx
    rcases mem_append.mp hx with hx | hx
    · exact Nat.lt_succ_of_lt (hinv.fresh x hx)
    · rw [mem_singleton.mp hx]
      exact Nat.lt_succ_self _
  have hnew : s.next ∉ s.acquired := fun hmem => Nat.lt_irrefl _ (hinv.fresh _ hmem)
  rcases openOnCpu_cases cpu r s with ⟨-, h | h⟩ | ⟨hcpu, -, registered, hepoll, h⟩
  · obtain rfl : s' = s := hs'.trans (congrArg Prod.snd h)
    exact ⟨hinv, 0, .refl _⟩
  · rw [h] at hs'
    subst hs'
    refine ⟨⟨hfresh, hinv.registered, fun hsome x hx => ?_⟩, _, make_moves hinv rfl ?_⟩
    · rw [mem_append, not_or]
      refine ⟨hinv.alive hsome x hx, fun hlast => ?_⟩
      exact hnew (mem_singleton.mp hlast ▸ mem_acquired_of_uses hbooks (.inr hx))
    · show (s.released ++ [s.next] ++ s.values).Perm _
      rw [append_assoc, append_assoc]
      exact List.Perm.append_left _ perm_append_comm
  · rw [h] at hs'
    subst hs'
    have hvalues := values_insert s.next hcpu
    refine ⟨⟨hfresh, fun registered' hsome x hx => ?_, fun _ x hx => ?_⟩, _, make_moves hinv rfl ?_⟩
    · cases hsome
      show x ∈ readersOf (s.readers.insert cpu s.next).entries
      rw [hvalues]
      rcases mem_append.mp hx with hx | hx
      · exact mem_cons_of_mem _ (hinv.registered registered hepoll x hx)
      · rw [mem_singleton.mp hx]
        exact mem_cons_self
    · change x ∈ readersOf (s.readers.insert cpu s.next).entries at hx
      rw [hvalues] at hx
      rcases mem_cons.mp hx with rfl | hx
      · exact fun hrel => hnew (mem_acquired_of_uses hbooks (.inl hrel))
      · exact hinv.alive (Option.isSome_iff_exists.mpr ⟨_, hepoll⟩) x hx
    · show (s.released ++ readersOf (s.readers.insert cpu s.next).entries).Perm _
      rw [hvalues, append_assoc]
      exact List.Perm.append_left _ (perm_append_singleton _ _).symm

/-- **The loop of `open_all_cpu`** keeps nothing that it has freed. -/
theorem openCpus_moves (cpus : List (Int × Results)) (hinv : Inv s) (hbooks : s.ledger.Books)
    (hs' : s' = (openCpus cpus s).2) :
    Inv s' ∧ ∃ new, Ledger.Moves s.ledger s'.ledger new 0 := by
  induction cpus generalizing s with
  | nil =>
    obtain rfl := hs'
    exact ⟨hinv, 0, .refl _⟩
  | cons head rest ih =>
    obtain ⟨cpu, r⟩ := head
    obtain ⟨hinv', new, hmoves⟩ := openOnCpu_moves cpu r hinv hbooks rfl
    unfold openCpus at hs'
    rcases hopen : openOnCpu cpu r s with ⟨ok, s₁⟩
    rw [hopen] at hs' hinv' hmoves
    cases ok with
    | false =>
      obtain rfl := hs'
      exact ⟨hinv', new, hmoves⟩
    | true =>
      obtain ⟨hinv'', new', hmoves'⟩ := ih hinv' (hbooks.moves hmoves) hs'
      exact ⟨hinv'', new + new', hmoves.trans hmoves'⟩

end Opening

/-! ### Closing -/

section Closing

variable {s s' : State}

/-- What closing on one CPU leaves as it is. -/
structure Keeps (s s' : State) : Prop where
  next : s'.next = s.next
  epoll : s'.epoll = s.epoll
  acquired : s'.acquired = s.acquired

theorem Keeps.trans {s'' : State} (h : Keeps s s') (h' : Keeps s' s'') : Keeps s s'' :=
  ⟨h'.next.trans h.next, h'.epoll.trans h.epoll, h'.acquired.trans h.acquired⟩

/-- The reader is freed, and stays if its element cannot be deleted. -/
theorem closeOnCpu_moves (cpu : Int) (remove : Bool) (hbooks : s.ledger.Books)
    (hs' : s' = (closeOnCpu cpu remove s).2) :
    Keeps s s' ∧ ∃ extra, Ledger.Moves s.ledger s'.ledger 0 extra
      ∧ (extra = 0 ↔ (cpu ∈ s.readers → remove = true)) := by
  unfold closeOnCpu at hs'
  cases hfind : s.readers.lookup cpu with
  | none =>
    rw [hfind] at hs'
    obtain rfl := hs'
    refine ⟨⟨rfl, rfl, rfl⟩, 0, .refl _, iff_of_true rfl fun hmem => ?_⟩
    exact absurd hmem (AList.lookup_eq_none.mp hfind)
  | some reader =>
    rw [hfind] at hs'
    have hmem : cpu ∈ s.readers := AList.lookup_isSome.mp (hfind ▸ rfl)
    have hperm : s.values.Perm (reader :: readersOf (s.readers.erase cpu).entries) :=
      (entries_perm_erase hfind).map _
    cases remove with
    | true =>
      obtain rfl := hs'
      refine ⟨⟨rfl, rfl, rfl⟩, 0, hbooks.touch nofun rfl ?_, iff_of_true rfl fun _ => rfl⟩
      rw [add_zero]
      apply Multiset.coe_eq_coe.mpr
      show (s.released ++ [reader] ++ readersOf (s.readers.erase cpu).entries).Perm _
      rw [append_assoc]
      exact hperm.symm.append_left _
    | false =>
      obtain rfl := hs'
      refine ⟨⟨rfl, rfl, rfl⟩, {reader}, hbooks.touch (fun x hx => ?_) rfl ?_,
        iff_of_false (Multiset.singleton_ne_zero _) fun h => nomatch h hmem⟩
      · rw [Multiset.mem_singleton.mp hx]
        exact Multiset.mem_coe.mpr (hperm.mem_iff.mpr mem_cons_self)
      · apply Multiset.coe_eq_coe.mpr
        show (s.released ++ [reader] ++ s.values).Perm (s.released ++ s.values ++ [reader])
        rw [append_assoc, append_assoc]
        exact List.Perm.append_left _ perm_append_comm

/-- Closing on one CPU leaves the readers of the others. -/
theorem closeOnCpu_lookup (cpu : Int) (remove : Bool) (s : State) {c : Int} (hc : c ≠ cpu) :
    (closeOnCpu cpu remove s).2.readers.lookup c = s.readers.lookup c := by
  unfold closeOnCpu
  cases s.readers.lookup cpu with
  | none => rfl
  | some reader =>
    cases remove with
    | false => rfl
    | true => exact AList.lookup_erase_ne hc

variable (remove : Int → Bool)

/-- **The loop of `close_all_cpu`.** -/
theorem closeCpus_moves {cpus : List Int} (hnodup : cpus.Nodup) (hbooks : s.ledger.Books)
    (hs' : s' = closeCpus remove cpus s) :
    Keeps s s' ∧ ∃ extra, Ledger.Moves s.ledger s'.ledger 0 extra
      ∧ (extra = 0 ↔ ∀ cpu ∈ cpus, cpu ∈ s.readers → remove cpu = true) := by
  induction cpus generalizing s with
  | nil =>
    obtain rfl := hs'
    exact ⟨⟨rfl, rfl, rfl⟩, 0, .refl _, iff_of_true rfl nofun⟩
  | cons cpu cpus ih =>
    obtain ⟨hnot, hnodup'⟩ := nodup_cons.mp hnodup
    obtain ⟨hkeeps, extra, hmoves, hextra⟩ := closeOnCpu_moves cpu (remove cpu) hbooks rfl
    obtain ⟨hkeeps', extra', hmoves', hextra'⟩ := ih hnodup' (hbooks.moves hmoves) hs'
    refine ⟨hkeeps.trans hkeeps', extra + extra',
      add_zero (0 : Multiset Nat) ▸ hmoves.trans hmoves', ?_⟩
    rw [← Multiset.card_eq_zero, Multiset.card_add, Nat.add_eq_zero_iff, Multiset.card_eq_zero,
      Multiset.card_eq_zero, hextra, hextra', forall_mem_cons]
    refine and_congr_right fun _ => forall₂_congr fun c hc => ?_
    have hne : c ≠ cpu := fun heq => hnot (heq ▸ hc)
    rw [← AList.lookup_isSome, closeOnCpu_lookup _ _ _ hne, AList.lookup_isSome]

/-- Closing all CPUs keeps nothing exactly if all elements of the map are deleted. -/
theorem closeAllCpu_moves (hinv : Inv s) (hbooks : s.ledger.Books)
    (hs' : s' = closeAllCpu remove s) :
    Inv s' ∧ ∃ extra, Ledger.Moves s.ledger s'.ledger 0 extra
      ∧ (extra = 0 ↔ ∀ cpu ∈ s.readers, remove cpu = true) := by
  obtain ⟨hkeeps, extra, hmoves, hextra⟩ := closeCpus_moves (s := { s with epoll := none }) remove
    s.readers.keys_nodup hbooks hs'
  have hnone : s'.epoll = none := hkeeps.epoll
  refine ⟨⟨fun x hx => ?_, fun registered hsome => ?_, fun hsome => ?_⟩, extra, hmoves,
    hextra.trans ?_⟩
  · rw [hkeeps.next]
    exact hinv.fresh x (hkeeps.acquired ▸ hx)
  · cases hnone.symm.trans hsome
  · rw [hnone] at hsome
    cases hsome
  · exact forall₂_congr fun cpu hcpu => imp_iff_right (AList.mem_keys.mpr hcpu)

theorem closeOnCpu_released (cpu : Int) (remove : Bool) (s : State) :
    (closeOnCpu cpu remove s).2.released = s.released ++ (s.readers.lookup cpu).toList := by
  unfold closeOnCpu
  cases s.readers.lookup cpu with
  | none => exact (append_nil _).symm
  | some reader => cases remove <;> rfl

/-- The readers of the CPUs are freed, whatever happens. -/
theorem closeCpus_released {cpus : List Int} (hnodup : cpus.Nodup) (s : State) :
    (closeCpus remove cpus s).released
      = s.released ++ cpus.filterMap fun c => s.readers.lookup c := by
  induction cpus generalizing s with
  | nil => exact (append_nil _).symm
  | cons cpu cpus ih =>
    obtain ⟨hnot, hnodup'⟩ := nodup_cons.mp hnodup
    have hothers : cpus.filterMap (fun c => (closeOnCpu cpu (remove cpu) s).2.readers.lookup c)
        = cpus.filterMap fun c => s.readers.lookup c := by
      apply filterMap_congr
      intro c hc
      exact closeOnCpu_lookup cpu (remove cpu) s fun heq => hnot (heq ▸ hc)
    show (closeCpus remove cpus (closeOnCpu cpu (remove cpu) s).2).released = _
    rw [ih hnodup', closeOnCpu_released, hothers, append_assoc, filterMap_cons]
    cases s.readers.lookup cpu <;> rfl

theorem keys_filterMap_lookup (readers : AList fun _ : Int => Nat) :
    (readers.keys.filterMap fun c => readers.lookup c) = readersOf readers.entries := by
  unfold readersOf
  rw [show readers.keys = readers.entries.map Sigma.fst from rfl, filterMap_map, ← filterMap_eq_map]
  apply filterMap_congr
  intro e he
  exact AList.mem_lookup_iff.mpr he

/-- After the destructor, everything that was used has been freed. -/
theorem closeAllCpu_released (s : State) :
    (closeAllCpu remove s).released = s.released ++ s.values := by
  unfold closeAllCpu
  rw [closeCpus_released remove s.readers.keys_nodup]
  congr 1
  exact keys_filterMap_lookup s.readers

end Closing

end Bcc.Api.PerfBuffer
