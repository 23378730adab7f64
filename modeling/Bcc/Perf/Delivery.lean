import Bcc.Perf.Steps

namespace Bcc.Perf

open Bytes CText List

/-!
# Perf events — every record is delivered once

* `run_holds` — what one step of the kernel or of the reader keeps, a run of both keeps;
* `delivers_of_aligned` — every record is delivered once.
-/

/-! ### Whole runs -/

section Runs

variable {n : Nat} {s s' : State} {done pend : List Record}

theorem call_holds (h : Holds n s done pend) : Holds n (call s) done pend := by
  unfold call
  split
  · next hpc =>
    have hdel := h.pc
    simp only [PcHolds, hpc] at hdel
    exact { h with started := Nat.le_refl _, pc := hdel }
  · exact h

theorem next_holds (hn : RingSize n) (h : Holds n s done pend) (hstep : Next n s s') :
    ∃ done' pend', Holds n s' done' pend' := by
  cases hstep with
  | kernel hkernel => exact ⟨done, kernel_holds hn h hkernel⟩
  | call => exact ⟨done, pend, call_holds h⟩
  | reader hreader =>
    rcases reader_holds hn h with hpc | ⟨s'', done', pend', hok, h', -⟩
    · -- there is no call
      unfold reader at hreader
      rw [hpc] at hreader
      cases hreader
      exact ⟨done, pend, h⟩
    · cases hreader.symm.trans hok
      exact ⟨done', pend', h'⟩

theorem start_holds (mem : Nat → UInt8) {tail : Nat} (htail : tail < 2 ^ 64) (haligned : 8 ∣ tail) :
    Holds n (start mem tail) [] [] :=
  ⟨rfl, by simp, htail, haligned, (Nat.mod_eq_of_lt htail).symm, Nat.zero_le _, rfl, Nat.le_refl _,
    rfl⟩

/-- The invariant of whole runs. -/
theorem run_holds (hn : RingSize n) (mem : Nat → UInt8) {tail : Nat} (htail : tail < 2 ^ 64)
    (haligned : 8 ∣ tail) (hrun : Relation.ReflTransGen (Next n) (start mem tail) s) :
    ∃ done pend, Holds n s done pend := by
  induction hrun with
  | refl => exact ⟨[], [], start_holds mem htail haligned⟩
  | tail _ hstep ih =>
    obtain ⟨done, pend, h⟩ := ih
    exact next_holds hn h hstep

/-- The call comes to its end if it is left alone. -/
theorem Holds.returns (hn : RingSize n) (h : Holds n s done pend) :
    ∃ s', Relation.ReflTransGen (fun s s' => reader n s = .ok s') s s' ∧ s'.pc = .idle := by
  induction hleft : 8 * pend.length + rank s.pc using Nat.strong_induction_on
    generalizing s done pend with
  | _ left ih =>
    rcases reader_holds hn h with hpc | ⟨s', done', pend', hok, h', hlt⟩
    · exact ⟨s, .refl, hpc⟩
    · obtain ⟨s'', hsteps, hidle⟩ := ih _ (hleft ▸ hlt) h' rfl
      exact ⟨s'', hsteps.head hok, hidle⟩

/-- What was delivered belongs to the first records. -/
theorem Holds.delivered_isPrefix (h : Holds n s done pend) :
    s.delivered <+: s.records.map Record.event := by
  have hdone : done.map Record.event <+: s.records.map Record.event := by
    rw [h.records]
    exact (prefix_append done pend).map _
  have hcall := h.pc
  unfold PcHolds at hcall
  split at hcall
  case h_1 | h_2 =>
    rw [hcall]
    exact hdone
  case h_9 =>
    -- the first record in the ring was delivered too
    obtain ⟨-, r, rest, rfl, hdel⟩ := hcall
    have hfirst : done ++ [r] <+: done ++ r :: rest := ⟨rest, (append_cons done r rest).symm⟩
    rw [hdel, h.records]
    exact hfirst.map _
  all_goals
    rw [hcall.1]
    exact hdone

/-- A call that returns has delivered what was published when it read `data_head` last. -/
theorem Holds.returned (hn : RingSize n) (h : Holds n s done pend) {head : Nat}
    (hpc : s.pc = .compare head) (heq : s.tail = head) :
    (s.tail, done.length) ∈ s.heads ∧ s.callAt ≤ done.length
      ∧ s.delivered = (s.records.take done.length).map Record.event := by
  have hcall := h.pc
  simp only [PcHolds, hpc] at hcall
  obtain ⟨hdel, pre, post, rfl, hhead, hmem, hstarted⟩ := hcall
  have hnil : pre = [] := by
    cases pre with
    | nil => rfl
    | cons r rest =>
      have hsize := (h.fits r (mem_append_left _ mem_cons_self)).size_ge
      have hroom := h.room
      have hlt := hn.lt
      rw [total_append, total_cons] at hroom
      rw [total_cons] at hhead
      omega
  subst hnil
  rw [append_nil] at hmem hstarted
  refine ⟨heq ▸ hmem, hstarted, ?_⟩
  rw [hdel, h.records, take_left]

end Runs

/-- What is to hold at any time of a run. -/
structure Delivers (n : Nat) (s : State) : Prop where
  /-- The callbacks were called for the first records, for each of them once and in order. -/
  ordered : s.delivered <+: s.records.map Record.event
  /-- The reader can take its next step. -/
  runs : ∃ s', reader n s = .ok s'
  /-- When the call is about to return, `data_tail` is a value of `data_head` that it has read, and
      everything that was published by then was delivered. -/
  returned : ∀ head, s.pc = .compare head → s.tail = head → ∃ seen, (s.tail, seen) ∈ s.heads
    ∧ s.callAt ≤ seen ∧ s.delivered = (s.records.take seen).map Record.event
  /-- It returns if the kernel publishes nothing more. -/
  returns : ∃ s', Relation.ReflTransGen (fun s s' => reader n s = .ok s') s s' ∧ s'.pc = .idle

/-- **Delivery.** In a ring whose size is a power of two, from any `data_tail` that is a multiple of
    eight, in every run of the kernel and of calls of `perf_reader_event_read`. -/
theorem delivers_of_aligned {k : Nat} (hk : k < 64) (mem : Nat → UInt8) {tail : Nat}
    (htail : tail < 2 ^ 64) (haligned : 8 ∣ tail) {s : State}
    (hrun : Relation.ReflTransGen (Next (2 ^ k)) (start mem tail) s) : Delivers (2 ^ k) s := by
  have hn := ringSize_pow hk
  obtain ⟨done, pend, h⟩ := run_holds hn mem htail haligned hrun
  refine ⟨h.delivered_isPrefix, ?_, fun head hpc heq => ⟨done.length, h.returned hn hpc heq⟩,
    h.returns hn⟩
  rcases reader_holds hn h with hpc | ⟨s', -, -, hok, -⟩
  · refine ⟨s, ?_⟩
    unfold reader
    rw [hpc]
  · exact ⟨s', hok⟩

/-- A sample of four bytes. -/
def fourBytes : Record := .sample 0 [1, 2, 3, 4]

/-- Memory of a ring of 4096 bytes that has it at `pos`. -/
def holding (pos : Nat) (i : Nat) : UInt8 := fourBytes.bytes.getD ((i + (4096 - pos)) % 4096) 0

theorem fourBytes_fits : fourBytes.Fits 4096 :=
  ⟨by decide, by decide, by decide, by decide, nofun⟩

theorem publish_fourBytes (pos tail : Nat) (htail : tail < 2 ^ 64)
    (hbytes : around (holding pos) 4096 tail 16 = fourBytes.bytes) :
    Next (2 ^ 12) (start (holding pos) tail)
      ⟨holding pos, (tail + fourBytes.size) % 2 ^ 64, tail, .idle, [], [fourBytes], [], 0⟩ := by
  refine .kernel (.publish fourBytes fourBytes_fits ?_ hbytes)
  show (tail + (2 ^ 64 - tail)) % 2 ^ 64 + 16 ≤ 4096
  omega

/-- The state of a call that reads the record at the end of the ring. -/
def reading (pc : Pc) : State :=
  ⟨holding 4088, 8, 2 ^ 64 - 8, pc, [], [fourBytes], [(8, 1)], 1⟩

/-- A record that wraps around the ring, and with it the counters, is delivered. -/
theorem delivers_fourBytes_at_wrap :
    ∃ s, s.delivered = [fourBytes.event] ∧ s.pc = .compare 8 ∧ s.tail = 8
      ∧ Relation.ReflTransGen (Next (2 ^ 12)) (start (holding 4088) (2 ^ 64 - 8)) s
      ∧ Delivers (2 ^ 12) s := by
  have hpublish : Next (2 ^ 12) (start (holding 4088) (2 ^ 64 - 8)) _ :=
    publish_fourBytes 4088 (2 ^ 64 - 8) (by decide) (by decide +kernel)
  have hfound : Relation.ReflTransGen (Next (2 ^ 12)) (start (holding 4088) (2 ^ 64 - 8))
      (reading (.found (2 ^ 64 - 8))) :=
    .tail (.tail (.tail (.single hpublish) .call) (.reader rfl)) (.reader rfl)
  -- the two parts of the record are copied to the buffer
  have hready : Relation.ReflTransGen (Next (2 ^ 12)) (start (holding 4088) (2 ^ 64 - 8))
      (reading (.ready (2 ^ 64 - 8) (.inBuf fourBytes.bytes))) :=
    .tail (.tail (.tail hfound (.reader rfl)) (.reader rfl)) (.reader rfl)
  have hrun : Relation.ReflTransGen (Next (2 ^ 12)) (start (holding 4088) (2 ^ 64 - 8))
      ⟨holding 4088, 8, 8, .compare 8, [fourBytes.event], [fourBytes], [(8, 1), (8, 1)], 1⟩ :=
    .tail (.tail (.tail hready (.reader rfl)) (.reader rfl)) (.reader rfl)
  exact ⟨_, rfl, rfl, rfl, hrun, delivers_of_aligned (by decide) _ (by decide) (by decide) hrun⟩

/-- From a `data_tail` that is not a multiple of eight the header may wrap, and the size of the
    record is looked for behind the ring. -/
theorem not_delivers_unaligned :
    ∃ s, s.records = [fourBytes]
      ∧ Relation.ReflTransGen (Next (2 ^ 12)) (start (holding 4092) 4092) s
      ∧ ¬ Delivers (2 ^ 12) s := by
  have hpublish : Next (2 ^ 12) (start (holding 4092) 4092) _ :=
    publish_fourBytes 4092 4092 (by decide) (by decide +kernel)
  refine ⟨⟨holding 4092, 4108, 4092, .found 4092, [], [fourBytes], [(4108, 1)], 1⟩, rfl, ?_, ?_⟩
  · exact .tail (.tail (.tail (.single hpublish) .call) (.reader rfl)) (.reader rfl)
  · rintro ⟨-, ⟨s', hok⟩, -, -⟩
    cases hok

end Bcc.Perf
