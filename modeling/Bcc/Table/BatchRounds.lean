import Bcc.Table.Batch
import Mathlib.Data.List.Perm.Basic

namespace Bcc.Table

open CText List

/-!
# Tables — what the batches add up to

* `Plan`, `Plays` — a kernel that is called as documented, each time with the cursor it has handed
  out and the room that is left, splits the map into batches;
* `yieldsAll_iff` — the generator stores the room into the cell that it has the cursor in, so that
  it is the room that the kernel gets.
-/

/-- The batches: the last one, or one with the cursor that was handed out and those that follow. -/
inductive Plan (E : Type) where
  | last (run : List E)
  | more (run : List E) (cursor : UInt32) (rest : Plan E)

namespace Plan

variable {E : Type}

/-- The content of the map, in the order of the batches. -/
def entries : Plan E → List E
  | .last run => run
  | .more run _ rest => run ++ rest.entries

/-- The map has room for so many entries, and a batch that is not the last has some of them. -/
def Fits : Plan E → Nat → Prop
  | .last run, room => run.length ≤ room
  | .more run _ rest, room => run ≠ [] ∧ run.length < room ∧ rest.Fits (room - run.length)

/-- Every cursor is the room that is left when it is handed out. -/
def CursorsAreRoom : Plan E → Nat → Prop
  | .last _, _ => True
  | .more run c rest, room =>
    c = UInt32.ofNat (room - run.length) ∧ rest.CursorsAreRoom (room - run.length)

end Plan

variable {σ K V : Type}

/-- From its state, the kernel goes on with the batches of a plan when it gets the cursor and the
    count.  The last batch is marked by `ENOENT`, or it fills the arrays. -/
def Plays (kernel : Kernel σ K V) (cmd : Cmd) : Plan (K × V) → σ → Option UInt32 → Nat → Prop
  | .last run, s, c, room => run.length ≤ room ∧ ∃ c' status s',
    kernel cmd s c (UInt32.ofNat room) = (⟨run, c', status⟩, s')
      ∧ (status = .enoent ∨ status = .success ∧ run.length = room)
  | .more run c' rest, s, c, room => run ≠ [] ∧ run.length < room ∧ ∃ s',
    kernel cmd s c (UInt32.ofNat room) = (⟨run, some c', .success⟩, s')
      ∧ Plays kernel cmd rest s' (some c') (room - run.length)

section Rounds

variable {kernel : Kernel σ K V} {cmd : Cmd} {ctOutBatch ctCnt : Cell} {size : UInt32}

variable {st : Loop σ K V}

/-- A batch that is not the last: the loop goes on, with the cursor that was handed out or with the
    room that is left. -/
theorem round_more {es run : List (K × V)} {c : UInt32} {s : σ}
    (hst : Collected st size.toNat es) (hne : run ≠ [])
    (hroom : run.length < size.toNat - es.length)
    (hk : kernel cmd st.kernel (cursor ctOutBatch ctCnt size st)
      (UInt32.ofNat (size.toNat - es.length)) = (⟨run, some c, .success⟩, s)) :
    ∃ st', round kernel cmd ctOutBatch ctCnt size st = .ok (.again st')
      ∧ Collected st' size.toNat (es ++ run) ∧ st'.kernel = s
      ∧ cursor ctOutBatch ctCnt size st' = some (if ctOutBatch = ctCnt
        then UInt32.ofNat (size.toNat - (es ++ run).length) else c) := by
  obtain ⟨st', hst', hs, hcell, hround⟩ := round_eq hst hk (by simpa using by omega)
  have hpos : 0 < run.length := length_pos_of_ne_nil hne
  have htotal : st'.total = es.length + run.length := by rw [hst'.total, length_append]
  refine ⟨st', ?_, hst', hs, ?_⟩
  · have hchecks : checks cmd size.toNat run.length st' .success = .again st' := by
      rw [checks, if_neg (by omega), if_neg (by omega)]
    rw [hround, ← hchecks]
  · rw [cursor, if_neg (by omega), htotal, length_append]
    split
    · rfl
    · next h => rw [hcell c rfl h]

/-- The last batch: the loop is left. -/
theorem round_last {es run : List (K × V)} {c' : Option UInt32} {status : Status}
    {s : σ} (hst : Collected st size.toNat es) (hes : es.length ≤ size.toNat)
    (hroom : run.length ≤ size.toNat - es.length)
    (hk : kernel cmd st.kernel (cursor ctOutBatch ctCnt size st)
      (UInt32.ofNat (size.toNat - es.length)) = (⟨run, c', status⟩, s))
    (hstatus : status = .enoent ∨ status = .success ∧ run.length = size.toNat - es.length) :
    ∃ st', round kernel cmd ctOutBatch ctCnt size st = .ok (.leave st')
      ∧ Collected st' size.toNat (es ++ run) := by
  have hfits : es.length + run.length ≤ size.toNat := by omega
  obtain ⟨st', hst', -, -, hround⟩ := round_eq hst hk hfits
  refine ⟨st', ?_, hst'⟩
  rcases hstatus with rfl | ⟨rfl, hfull⟩
  · exact hround
  · have htotal : st'.total = es.length + run.length := by rw [hst'.total, length_append]
    have hchecks : checks cmd size.toNat run.length st' .success = .leave st' := by
      rw [checks, if_pos (by omega)]
    rw [hround, ← hchecks]

theorem loop_again {st' : Loop σ K V} {fuel : Nat}
    (h : round kernel cmd ctOutBatch ctCnt size st = .ok (.again st')) :
    loop kernel cmd ctOutBatch ctCnt size (fuel + 1) st
      = loop kernel cmd ctOutBatch ctCnt size fuel st' := by
  rw [loop, h, ok_bind]

theorem loop_leave {st' : Loop σ K V} {fuel : Nat}
    (h : round kernel cmd ctOutBatch ctCnt size st = .ok (.leave st')) :
    loop kernel cmd ctOutBatch ctCnt size (fuel + 1) st = .ok (.ok st') := by
  rw [loop, h]
  rfl

/-- **All entries are collected** if each round passes the cursor that was handed out. -/
theorem loop_plays {plan : Plan (K × V)} {es : List (K × V)}
    (hst : Collected st size.toNat es) (hes : es.length ≤ size.toNat)
    (hplays : Plays kernel cmd plan st.kernel (cursor ctOutBatch ctCnt size st)
      (size.toNat - es.length))
    (hcursors : ctOutBatch = ctCnt → plan.CursorsAreRoom (size.toNat - es.length))
    {fuel : Nat} (hfuel : size.toNat - es.length < fuel) :
    ∃ st', loop kernel cmd ctOutBatch ctCnt size fuel st = .ok (.ok st')
      ∧ Collected st' size.toNat (es ++ plan.entries) := by
  obtain ⟨fuel, rfl⟩ : ∃ n, fuel = n + 1 := ⟨fuel - 1, by omega⟩
  induction plan generalizing st es fuel with
  | last run =>
    obtain ⟨hroom, c', status, s', hk, hstatus⟩ := hplays
    obtain ⟨st', hround, hst'⟩ := round_last hst hes hroom hk hstatus
    exact ⟨st', loop_leave hround, hst'⟩
  | more run c rest ih =>
    obtain ⟨hne, hroom, s', hk, hrest⟩ := hplays
    obtain ⟨st', hround, hst', hs, hcursor⟩ := round_more hst hne hroom hk
    have hpos : 0 < run.length := length_pos_of_ne_nil hne
    have hleft : size.toNat - (es ++ run).length = size.toNat - es.length - run.length := by
      rw [length_append]
      omega
    -- The cursor of the next round is the one that this round got.
    have hsame : cursor ctOutBatch ctCnt size st' = some c := by
      rw [hcursor]
      split
      · next h => rw [hleft, (hcursors h).1]
      · rfl
    rw [← hs, ← hsame, ← hleft] at hrest
    obtain ⟨fuel, rfl⟩ : ∃ n, fuel = n + 1 := ⟨fuel - 1, by omega⟩
    obtain ⟨st'', hloop, hst''⟩ := ih hst' (by omega) hrest
      (fun h => by rw [hleft]; exact (hcursors h).2) fuel (by omega)
    refine ⟨st'', (loop_again hround).trans hloop, ?_⟩
    rw [Plan.entries, ← append_assoc]
    exact hst''

end Rounds

/-! ### A kernel for every plan -/

/-- A kernel that plays the plan in its state when it gets the cursor in its state, and answers
    anything else with `ENOENT` and entries that it is given. -/
def scripted (junk : List (K × V)) : Kernel (Plan (K × V) × Option UInt32) K V :=
  fun _ s c _ =>
    if c = s.2 then
      match s.1 with
      | .last run => (⟨run, none, .enoent⟩, s)
      | .more run c' rest => (⟨run, some c', .success⟩, (rest, some c'))
    else (⟨junk, none, .enoent⟩, s)

theorem plays_scripted (junk : List (K × V)) (cmd : Cmd) {plan : Plan (K × V)} {room : Nat}
    (hfits : plan.Fits room) (c : Option UInt32) :
    Plays (scripted junk) cmd plan (plan, c) c room := by
  induction plan generalizing room c with
  | last run => exact ⟨hfits, none, .enoent, (.last run, c), by simp [scripted], .inl rfl⟩
  | more run c' rest ih =>
    obtain ⟨hne, hroom, hrest⟩ := hfits
    exact ⟨hne, hroom, (rest, some c'), by simp [scripted], ih hrest (some c')⟩

/-- With one cell, the cursor after a batch of the script is the room. -/
theorem round_scripted (junk : List (K × V)) (cmd : Cmd) (cell : Cell) {size : UInt32}
    {st : Loop (Plan (K × V) × Option UInt32) K V} {es run : List (K × V)} {c' : UInt32}
    {rest : Plan (K × V)} {c : Option UInt32} (hst : Collected st size.toNat es)
    (hkernel : st.kernel = (.more run c' rest, c)) (hcursor : cursor cell cell size st = c)
    (hne : run ≠ []) (hroom : run.length < size.toNat - es.length) :
    ∃ st', round (scripted junk) cmd cell cell size st = .ok (.again st')
      ∧ Collected st' size.toNat (es ++ run) ∧ st'.kernel = (rest, some c')
      ∧ cursor cell cell size st'
        = some (UInt32.ofNat (size.toNat - es.length - run.length)) := by
  have hk : scripted junk cmd st.kernel (cursor cell cell size st)
      (UInt32.ofNat (size.toNat - es.length)) = (⟨run, some c', .success⟩, (rest, some c')) := by
    rw [hkernel, hcursor]
    simp [scripted]
  obtain ⟨st', hround, hst', hs, hcursor'⟩ := round_more hst hne hroom hk
  rw [if_pos rfl, length_append, ← Nat.sub_sub] at hcursor'
  exact ⟨st', hround, hst', hs, hcursor'⟩

/-- **A cursor that is not the room is lost**: with one cell, there are entries for wrong cursors
    with which the number of entries collected is not that of the plan. -/
theorem loop_scripted (cmd : Cmd) (cell : Cell) {size : UInt32} {plan : Plan (K × V)} {room : Nat}
    (hfits : plan.Fits room) (hcursors : ¬ plan.CursorsAreRoom room) :
    ∃ junk, ∀ {st : Loop (Plan (K × V) × Option UInt32) K V} {es : List (K × V)}
      {c : Option UInt32}, Collected st size.toNat es → es.length + room = size.toNat →
      st.kernel = (plan, c) → cursor cell cell size st = c → ∀ {fuel : Nat}, room < fuel →
      ∃ st' es', loop (scripted junk) cmd cell cell size fuel st = .ok (.ok st')
        ∧ Collected st' size.toNat es' ∧ es'.length ≠ (es ++ plan.entries).length := by
  induction plan generalizing room with
  | last run => exact absurd trivial hcursors
  | more run c' rest ih =>
    obtain ⟨hne, hroom, hrest⟩ := hfits
    by_cases hc : c' = UInt32.ofNat (room - run.length)
    · -- This cursor survives; a later one does not.
      obtain ⟨junk, hjunk⟩ := ih hrest (fun h => hcursors ⟨hc, h⟩)
      refine ⟨junk, fun {st es c} hst hsize hkernel hcursor {fuel} hfuel => ?_⟩
      obtain ⟨st', hround, hst', hs, hcursor'⟩ :=
        round_scripted junk cmd cell hst hkernel hcursor hne (by omega)
      have hroom' : size.toNat - es.length = room := by omega
      rw [hroom', ← hc] at hcursor'
      obtain ⟨fuel, rfl⟩ : ∃ n, fuel = n + 1 := ⟨fuel - 1, by omega⟩
      have hpos : 0 < run.length := length_pos_of_ne_nil hne
      obtain ⟨st'', es', hloop, hst'', hlength⟩ := hjunk hst' (by rw [length_append]; omega)
        hs hcursor' (by omega : room - run.length < fuel)
      refine ⟨st'', es', (loop_again hround).trans hloop, hst'', ?_⟩
      rw [Plan.entries, ← append_assoc]
      exact hlength
    · -- The kernel gets another cursor: what it answers makes one entry too many, or is too little.
      obtain ⟨e, -⟩ := exists_mem_of_ne_nil run hne
      let junk := if rest.entries = [] then [e] else []
      refine ⟨junk, fun {st es c} hst hsize hkernel hcursor {fuel} hfuel => ?_⟩
      obtain ⟨st', hround, hst', hs, hcursor'⟩ :=
        round_scripted junk cmd cell hst hkernel hcursor hne (by omega)
      have hroom' : size.toNat - es.length = room := by omega
      rw [hroom'] at hcursor'
      have hk : scripted junk cmd st'.kernel (Table.cursor cell cell size st')
          (UInt32.ofNat (size.toNat - (es ++ run).length))
            = (⟨junk, none, .enoent⟩, st'.kernel) := by
        rw [hs, hcursor']
        simp [scripted, Ne.symm hc]
      have hjunk : junk.length ≤ 1 ∧ junk.length ≠ rest.entries.length := by
        by_cases hnil : rest.entries = []
        · simp [junk, hnil]
        · simpa [junk, hnil] using Ne.symm (mt length_eq_zero_iff.mp hnil)
      obtain ⟨st'', hround', hst''⟩ := round_last hst' (by rw [length_append]; omega)
        (by rw [length_append]; omega) hk (.inl rfl)
      obtain ⟨fuel, rfl⟩ : ∃ n, fuel = n + 2 := ⟨fuel - 2, by omega⟩
      refine ⟨st'', _, (loop_again hround).trans (loop_leave hround'), hst'', ?_⟩
      simp only [Plan.entries, length_append]
      omega

/-! ### The generator -/

section Generator

variable [Inhabited K] [Inhabited V]

theorem collected_entered (s : σ) (size : Nat) :
    Collected (entered s size : Loop σ K V) size [] := by
  constructor <;> simp [entered]

theorem itemsBatchWith_eq {kernel : Kernel σ K V} {cmd : Cmd} {ctOutBatch ctCnt : Cell}
    {size : UInt32} {s : σ} {st : Loop σ K V} {es : List (K × V)}
    (h : loop kernel cmd ctOutBatch ctCnt size (size.toNat + 1) (entered s size.toNat)
      = .ok (.ok st)) (hst : Collected st size.toNat es) :
    itemsBatchWith kernel cmd ctOutBatch ctCnt size s = .ok (.ok es) := by
  have hloop : itemsBatchWith kernel cmd ctOutBatch ctCnt size s
      = .ok (.ok ((st.keys.take st.total).zip (st.values.take st.total))) := by
    rw [itemsBatchWith, h]
    rfl
  rw [hloop, hst.entries]

/-- All entries are yielded with a cell for the cursor and another one for the count, and with a
    common cell if the cursors are the room. -/
theorem itemsBatchWith_plays {kernel : Kernel σ K V} {cmd : Cmd} {ctOutBatch ctCnt : Cell}
    {size : UInt32} {s : σ} {plan : Plan (K × V)} (hplays : Plays kernel cmd plan s none size.toNat)
    (hcursors : ctOutBatch = ctCnt → plan.CursorsAreRoom size.toNat) :
    itemsBatchWith kernel cmd ctOutBatch ctCnt size s = .ok (.ok plan.entries) := by
  obtain ⟨st, hloop, hst⟩ := loop_plays (collected_entered s size.toNat) (Nat.zero_le _) hplays
    hcursors (Nat.lt_succ_self _)
  exact itemsBatchWith_eq hloop hst

/-- The generator yields every entry once. -/
def YieldsAll (kernel : Kernel σ K V) (delete : Bool) (maxEntries : UInt32) (s : σ)
    (entries : List (K × V)) : Prop :=
  ∃ es, itemsBatch kernel delete maxEntries s = .ok (.ok es) ∧ es.Perm entries

/-- **The generator.**  Every kernel that plays a plan has all its entries yielded, each once, if
    and only if the cursors of the plan are the room that is left. -/
theorem yieldsAll_iff (delete : Bool) {maxEntries : UInt32} {plan : Plan (K × V)}
    (hfits : plan.Fits maxEntries.toNat) :
    (∀ (σ : Type) (kernel : Kernel σ K V) (s : σ),
        Plays kernel (command delete) plan s none maxEntries.toNat →
          YieldsAll kernel delete maxEntries s plan.entries)
      ↔ plan.CursorsAreRoom maxEntries.toNat := by
  constructor
  · intro h
    by_contra hcursors
    obtain ⟨junk, hjunk⟩ := loop_scripted (command delete) 0 hfits hcursors
    obtain ⟨st, es', hloop, hst, hlength⟩ := hjunk
      (collected_entered (plan, none) maxEntries.toNat) (Nat.zero_add _) rfl rfl
      (Nat.lt_succ_self maxEntries.toNat)
    obtain ⟨es, hes, hperm⟩ := h _ (scripted junk) (plan, none) (plays_scripted junk _ hfits none)
    obtain rfl : es' = es := by
      simpa using (itemsBatchWith_eq hloop hst).symm.trans hes
    exact hlength hperm.length_eq
  · intro hcursors σ kernel s hplays
    exact ⟨plan.entries, itemsBatchWith_plays hplays (fun _ => hcursors), .refl _⟩

end Generator

/-- A hash map with two buckets, of which a call returns one; the cursor is the next bucket. -/
def twoBuckets : Kernel Unit Nat Nat := fun _ s c _ =>
  if c = none then (⟨[(1, 10)], some 1, .success⟩, s)
  else if c = some 1 then (⟨[(2, 20)], some 2, .enoent⟩, s)
  else (⟨[], none, .enoent⟩, s)

/-- With room for two entries, the room that is left is the next bucket. -/
theorem yieldsAll_of_cursors : YieldsAll twoBuckets true 2 () [(1, 10), (2, 20)] := by
  have hfits : Plan.Fits (.more [(1, 10)] 1 (.last [(2, 20)])) (2 : UInt32).toNat :=
    ⟨by decide, by decide, show 1 ≤ 2 - 1 by decide⟩
  have hall := (yieldsAll_iff true hfits).mpr ⟨rfl, trivial⟩
  apply hall Unit twoBuckets ()
  exact ⟨by decide, by decide, (), rfl, by decide, some 2, .enoent, (), rfl, .inl rfl⟩

/-- With room for four entries, the second call asks for bucket three. -/
theorem not_yieldsAll_of_two_batches :
    Plays twoBuckets .lookupBatch (.more [(1, 10)] 1 (.last [(2, 20)])) () none 4
      ∧ itemsBatch twoBuckets false 4 () = .ok (.ok [(1, 10)])
      ∧ ¬ YieldsAll twoBuckets false 4 () [(1, 10), (2, 20)] := by
  have hitems : itemsBatch twoBuckets false 4 () = .ok (.ok [(1, 10)]) := rfl
  refine ⟨⟨by decide, by decide, (), rfl, by decide, some 2, .enoent, (), rfl, .inl rfl⟩,
    hitems, ?_⟩
  rintro ⟨es, hes, hperm⟩
  cases hes
  cases hperm.length_eq

end Bcc.Table
