import Bcc.Perf.Held

namespace Bcc.Perf

open Bytes CText List Nat

/-!
# Perf events — the steps of the reader

The first record in the ring is there as a whole, in one piece or in two, and its header does not
wrap as long as `data_tail` is a multiple of eight.

* `reader_holds` — so the reader passes on what it holds, and gives it back.
-/

/-- How many steps the call can still take, at most, if no record comes. -/
def rank : Pc → Nat
  | .idle => 0
  | .called _ => 1
  | .ready .. => 2
  | .half .. => 3
  | .wraps _ => 4
  | .found _ => 5
  | .compare _ => 6
  | .top => 7

/-- The reader takes a step that keeps the invariant, and comes closer to its end. -/
def Advances (n : Nat) (s : State) (pend : List Record) : Prop :=
  ∃ s' done' pend', reader n s = .ok s' ∧ Holds n s' done' pend'
    ∧ 8 * pend'.length + rank s'.pc < 8 * pend.length + rank s.pc

section Steps

variable {n : Nat} (hn : RingSize n) {s : State} {done pend : List Record}
include hn

/-! ### The first record -/

variable {r : Record} {rest : List Record}

omit hn in
theorem Holds.first_bytes (h : Holds n s done (r :: rest)) :
    around s.mem n s.tail r.size = r.bytes := by
  have hbytes := h.bytes
  rw [total_cons, around_add, bytesOf_cons] at hbytes
  exact append_inj_left hbytes (by rw [length_around, r.length_bytes])

/-- The header of a record does not wrap. -/
theorem Holds.header_le (h : Holds n s done (r :: rest)) : s.tail % n + 8 ≤ n := by
  have fits := h.fits r mem_cons_self
  have hlarge : 16 < n := Nat.lt_of_le_of_lt fits.size_ge fits.size_lt
  have hlt : s.tail % n < n := mod_lt _ (by omega)
  have hdvd := hn.aligned hlarge
  have hmod : 8 ∣ s.tail % n := (dvd_mod_iff hdvd).mpr h.tail_dvd
  omega

theorem Holds.header_eq (h : Holds n s done (r :: rest)) :
    flat s.mem (s.tail % n) 4 = le 4 r.type ∧ flat s.mem (s.tail % n + 6) 2 = le 2 r.size := by
  have hle := h.header_le hn
  have hfirst := h.first_bytes
  rw [show r.size = 8 + r.body.length from rfl, around_add, around_eq_flat hle,
    show 8 = 4 + (2 + 2) from rfl, flat_add, flat_add, append_assoc, append_assoc]
    at hfirst
  obtain ⟨htype, hfirst⟩ := append_inj hfirst (by rw [length_flat, length_le])
  obtain ⟨-, hfirst⟩ := append_inj hfirst (by rw [length_flat, length_le])
  exact ⟨htype, append_inj_left hfirst (by rw [length_flat, length_le])⟩

theorem Holds.eSize_eq (h : Holds n s done (r :: rest)) :
    eSize n s.mem (s.tail % n) = .ok r.size := by
  have hle := h.header_le hn
  have hfield : r.size < 256 ^ 2 := (h.fits r mem_cons_self).size_field
  rw [eSize, readFlat, if_pos (by omega), (h.header_eq hn).2]
  show Except.ok (leNat (le 2 r.size)) = _
  rw [leNat_le, mod_eq_of_lt hfield]

theorem Holds.eType_eq (h : Holds n s done (r :: rest)) :
    eType n s.mem (s.tail % n) = .ok r.type := by
  have hle := h.header_le hn
  rw [eType, readFlat, if_pos (by omega), (h.header_eq hn).1]
  show Except.ok (leNat (le 4 r.type)) = _
  rw [leNat_le]
  cases r <;> rfl

/-- **The wrap test** on the reduced pointers, `end < begin`, finds the records that reach the end
    of the ring. -/
theorem Holds.end_lt_begin_iff (h : Holds n s done (r :: rest)) :
    (s.tail + r.size) % 2 ^ 64 % n < s.tail % n ↔ n ≤ s.tail % n + r.size := by
  have hsize := (h.fits r mem_cons_self).size_lt
  have hlt : s.tail % n < n := mod_lt _ (by omega)
  rw [mod_mod_of_dvd _ hn.dvd, add_mod, mod_eq_of_lt hsize]
  by_cases hwrap : n ≤ s.tail % n + r.size
  · rw [mod_eq_sub_mod hwrap, mod_eq_of_lt (by omega)]
    omega
  · rw [mod_eq_of_lt (by omega)]
    omega

omit hn in
/-- The two parts of a record that wraps. -/
theorem Holds.parts_eq (h : Holds n s done (r :: rest)) (hwrap : n ≤ s.tail % n + r.size) :
    flat s.mem (s.tail % n) (n - s.tail % n) = r.bytes.take (n - s.tail % n)
      ∧ r.bytes.take (n - s.tail % n) ++ flat s.mem 0 (r.size - (n - s.tail % n)) = r.bytes := by
  have hsize := (h.fits r mem_cons_self).size_lt
  have hfirst := h.first_bytes
  rw [around_eq_flat_append (by omega) hwrap hsize.le] at hfirst
  have htake : r.bytes.take (n - s.tail % n) = flat s.mem (s.tail % n) (n - s.tail % n) := by
    rw [← hfirst]
    exact take_left' (length_flat _ _ _)
  exact ⟨htake.symm, htake ▸ hfirst⟩

/-! ### The steps of the reader -/

omit hn in
/-- The call reads `data_head`. -/
theorem reader_top (h : Holds n s done pend) (hpc : s.pc = .top) : Advances n s pend := by
  have hdel := h.pc
  simp only [PcHolds, hpc] at hdel
  have hlen : (done ++ pend).length = s.records.length := by rw [h.records]
  refine ⟨{ s with pc := .compare s.head, heads := s.heads ++ [(s.head, s.records.length)] }, done,
    pend, ?_, { h with pc := ?_ }, ?_⟩
  · unfold reader
    rw [hpc]
  · refine ⟨hdel, pend, [], (append_nil _).symm, h.head, ?_, ?_⟩
    · rw [hlen]
      exact mem_append_right _ (mem_singleton.mpr rfl)
    · rw [hlen]
      exact h.started
  · rw [hpc]
    exact lt_succ_self _

omit hn in
/-- It returns, or there is a record. -/
theorem reader_compare {head : Nat} (h : Holds n s done pend) (hpc : s.pc = .compare head) :
    Advances n s pend := by
  have hcall := h.pc
  simp only [PcHolds, hpc] at hcall
  obtain ⟨hdel, pre, post, hpend, hhead, -⟩ := hcall
  by_cases heq : s.tail = head
  · refine ⟨{ s with pc := .idle }, done, pend, ?_, { h with pc := hdel }, ?_⟩
    · unfold reader
      rw [hpc]
      exact if_pos heq
    · rw [hpc]
      exact Nat.add_lt_add_left (show _ < _ by simp only [rank]; omega) _
  · refine ⟨{ s with pc := .found s.tail }, done, pend, ?_, { h with pc := ⟨hdel, rfl, ?_⟩ }, ?_⟩
    · unfold reader
      rw [hpc]
      exact if_neg heq
    · -- without a record `data_head` would have been `data_tail`
      rintro rfl
      obtain ⟨rfl, -⟩ := append_eq_nil_iff.mp hpend.symm
      exact heq (hhead.trans (mod_eq_of_lt h.tail_lt)).symm
    · rw [hpc]
      exact lt_succ_self _

variable {tail : Nat} (h : Holds n s done pend)
include h

/-- It finds out whether the record wraps. -/
theorem reader_found (hpc : s.pc = .found tail) : Advances n s pend := by
  have hcall := h.pc
  simp only [PcHolds, hpc] at hcall
  obtain ⟨hdel, rfl, hne⟩ := hcall
  obtain ⟨r, rest, rfl⟩ := exists_cons_of_ne_nil hne
  have hiff := h.end_lt_begin_iff hn
  by_cases hwrap : n ≤ s.tail % n + r.size
  · refine ⟨{ s with pc := .wraps s.tail }, done, r :: rest, ?_,
      { h with pc := ⟨hdel, rfl, r, rest, rfl, hwrap⟩ }, ?_⟩
    · unfold reader
      rw [hpc]
      dsimp only
      rw [h.eSize_eq hn, ok_bind, if_pos (hiff.mpr hwrap)]
      rfl
    · rw [hpc]
      exact lt_succ_self _
  · refine ⟨{ s with pc := .ready s.tail .inRing }, done, r :: rest, ?_,
      { h with pc := ⟨hdel, rfl, r, rest, rfl, Nat.le_of_not_le hwrap⟩ }, ?_⟩
    · unfold reader
      rw [hpc]
      dsimp only
      rw [h.eSize_eq hn, ok_bind, if_neg (mt hiff.mp hwrap)]
      rfl
    · rw [hpc]
      exact Nat.add_lt_add_left (show _ < _ by simp only [rank]; omega) _

/-- It copies the part up to the end of the ring, -/
theorem reader_wraps (hpc : s.pc = .wraps tail) : Advances n s pend := by
  have hcall := h.pc
  simp only [PcHolds, hpc] at hcall
  obtain ⟨hdel, rfl, r, rest, rfl, hwrap⟩ := hcall
  have hlt : s.tail % n < n :=
    Nat.lt_of_lt_of_le (Nat.lt_add_of_pos_right (by decide)) (h.header_le hn)
  refine ⟨{ s with pc := .half s.tail r.size (flat s.mem (s.tail % n) (n - s.tail % n)) }, done,
    r :: rest, ?_, { h with pc := ⟨hdel, rfl, r, rest, rfl, hwrap, rfl, (h.parts_eq hwrap).1⟩ }, ?_⟩
  · unfold reader
    rw [hpc]
    dsimp only
    rw [h.eSize_eq hn, ok_bind, if_neg (by omega), readFlat, if_pos (by omega)]
    rfl
  · rw [hpc]
    exact lt_succ_self _

/-- and then the part from its start. -/
theorem reader_half {alloc : Nat} {buf : List UInt8} (hpc : s.pc = .half tail alloc buf) :
    Advances n s pend := by
  have hcall := h.pc
  simp only [PcHolds, hpc] at hcall
  obtain ⟨hdel, rfl, r, rest, rfl, hwrap, rfl, rfl⟩ := hcall
  have hsize := (h.fits r mem_cons_self).size_lt
  refine ⟨{ s with pc := .ready s.tail (.inBuf r.bytes) }, done, r :: rest, ?_,
    { h with pc := ⟨hdel, rfl, r, rest, rfl, rfl⟩ }, ?_⟩
  · unfold reader
    rw [hpc]
    dsimp only
    rw [h.eSize_eq hn, ok_bind, if_neg (by omega), readFlat, if_pos (by omega), ok_bind,
      (h.parts_eq hwrap).2]
    rfl
  · rw [hpc]
    exact lt_succ_self _

/-- The memory from `ptr` on starts with the record. -/
theorem Holds.exists_data {place : Place} (hpc : s.pc = .ready tail place) :
    tail = s.tail ∧ s.delivered = done.map Record.event ∧
      ∃ r rest data, pend = r :: rest ∧ place.data n s.mem (s.tail % n) = .ok data
        ∧ At data 0 r.bytes := by
  have hcall := h.pc
  simp only [PcHolds, hpc] at hcall
  cases place with
  | inRing =>
    obtain ⟨hdel, rfl, r, rest, rfl, hin⟩ := hcall
    have hle := h.header_le hn
    have hrest : n - s.tail % n = r.size + (n - s.tail % n - r.size) := by omega
    refine ⟨rfl, hdel, r, rest, _, rfl, if_pos (by omega), ?_⟩
    rw [hrest, flat_add, ← around_eq_flat hin, h.first_bytes]
    exact prefix_append _ _
  | inBuf buf =>
    obtain ⟨hdel, rfl, r, rest, rfl, rfl⟩ := hcall
    exact ⟨rfl, hdel, r, rest, r.bytes, rfl, rfl, prefix_rfl⟩

/-- The callback is called with what the record holds. -/
theorem reader_ready {place : Place} (hpc : s.pc = .ready tail place) : Advances n s pend := by
  obtain ⟨rfl, hdel, r, rest, data, rfl, hplace, hdata⟩ := h.exists_data hn hpc
  have hevent := dispatch_eq (h.fits r mem_cons_self) (h.eType_eq hn) (h.eSize_eq hn) hdata
  refine ⟨{ s with pc := .called s.tail, delivered := s.delivered ++ [r.event] }, done, r :: rest,
    ?_, { h with pc := ⟨rfl, r, rest, rfl, ?_⟩ }, ?_⟩
  · unfold reader
    rw [hpc]
    dsimp only
    rw [hplace, ok_bind, hevent]
    rfl
  · show s.delivered ++ [r.event] = _
    rw [hdel, map_append]
    rfl
  · rw [hpc]
    exact lt_succ_self _

/-- The record is given back. -/
theorem reader_called (hpc : s.pc = .called tail) : Advances n s pend := by
  have hcall := h.pc
  simp only [PcHolds, hpc] at hcall
  obtain ⟨rfl, r, rest, rfl, hdel⟩ := hcall
  have htotal := total_cons r rest
  have hsize := (h.fits r mem_cons_self).size_dvd
  refine ⟨{ s with pc := .top, tail := (s.tail + r.size) % 2 ^ 64 }, done ++ [r], rest, ?_,
    ⟨?_, ?_, mod_lt _ (by decide), ?_, ?_, ?_, ?_, h.started, hdel⟩, ?_⟩
  · unfold reader
    rw [hpc]
    dsimp only
    rw [h.eSize_eq hn]
    rfl
  · exact h.records.trans (append_cons done r rest)
  · exact fun r' hr' => h.fits r' (mem_cons_of_mem _ hr')
  · exact (dvd_mod_iff (by decide)).mpr (Nat.dvd_add h.tail_dvd hsize)
  · show s.head = _
    rw [h.head, htotal, mod_add_mod, Nat.add_assoc]
  · exact Nat.le_trans (by omega) h.room
  · have hbytes := h.bytes
    rw [htotal, around_add, bytesOf_cons] at hbytes
    show around s.mem n ((s.tail + r.size) % 2 ^ 64) (total rest) = _
    rw [around_mod _ hn.dvd]
    exact append_inj_right hbytes (by rw [length_around, r.length_bytes])
  · rw [hpc, length_cons]
    show 8 * rest.length + 7 < 8 * (rest.length + 1) + 1
    omega

/-- **The reader** does not fail, keeps the invariant, and comes closer to its end. -/
theorem reader_holds : s.pc = .idle ∨ Advances n s pend := by
  cases hpc : s.pc with
  | idle => exact .inl rfl
  | top => exact .inr (reader_top h hpc)
  | compare head => exact .inr (reader_compare h hpc)
  | found tail => exact .inr (reader_found hn h hpc)
  | wraps tail => exact .inr (reader_wraps hn h hpc)
  | half tail alloc buf => exact .inr (reader_half hn h hpc)
  | ready tail place => exact .inr (reader_ready hn h hpc)
  | called tail => exact .inr (reader_called hn h hpc)

end Steps

end Bcc.Perf
