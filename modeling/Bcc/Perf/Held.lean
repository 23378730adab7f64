import Bcc.Perf.Reader

namespace Bcc.Perf

open Bytes CText List

/-!
# Perf events — the records in the ring

* `Holds` — the records that are published and not yet given back stand in the ring behind each
  other, from `data_tail` on;
* `kernel_holds` — the kernel writes elsewhere.
-/

/-! ### Records in the ring -/

variable (r : Record) (rs : List Record)

/-- The bytes of records behind each other. -/
def bytesOf : List UInt8 := rs.flatMap Record.bytes

def total : Nat := (rs.map Record.size).sum

theorem Record.length_bytes : r.bytes.length = r.size := by
  rw [Record.bytes, length_append, length_append, length_append, length_le,
    length_le, length_le, Record.size]
  omega

theorem total_cons : total (r :: rs) = r.size + total rs := by
  rfl

theorem total_append (rs rs' : List Record) : total (rs ++ rs') = total rs + total rs' := by
  rw [total, map_append, sum_append]
  rfl

theorem bytesOf_cons : bytesOf (r :: rs) = r.bytes ++ bytesOf rs := flatMap_cons

theorem bytesOf_concat (r : Record) : bytesOf (rs ++ [r]) = bytesOf rs ++ r.bytes := by
  rw [bytesOf, flatMap_append]
  congr 1
  exact flatMap_singleton _ _

/-- Sizes of rings: powers of two that a counter of 64 bits can be divided by. -/
structure RingSize (n : Nat) : Prop where
  dvd : n ∣ 2 ^ 64
  lt : n < 2 ^ 64
  aligned : 16 < n → 8 ∣ n

theorem ringSize_pow {k : Nat} (hk : k < 64) : RingSize (2 ^ k) := by
  refine ⟨Nat.pow_dvd_pow 2 hk.le, Nat.pow_lt_pow_right (by decide) hk, fun h => ?_⟩
  have hlog : 4 < k := (Nat.pow_lt_pow_iff_right (by decide)).mp (show 2 ^ 4 < 2 ^ k from h)
  exact Nat.pow_dvd_pow 2 (show 3 ≤ k by omega)

/-- The body of a record follows its header. -/
theorem Record.at_body {r : Record} {data : List UInt8} (h : At data 0 r.bytes) :
    At data 8 r.body := by
  obtain ⟨-, h⟩ := at_append.mp h
  obtain ⟨-, h⟩ := at_append.mp h
  obtain ⟨-, h⟩ := at_append.mp h
  simpa only [length_le] using h

/-- **A record that is in one piece** is delivered as what it is. -/
theorem dispatch_eq {n begin : Nat} {mem : Nat → UInt8} {r : Record} {data : List UInt8}
    (fits : r.Fits n) (htype : eType n mem begin = .ok r.type)
    (hsize : eSize n mem begin = .ok r.size) (hdata : At data 0 r.bytes) :
    dispatch n mem begin data = .ok (some r.event) := by
  have hbody := Record.at_body hdata
  unfold dispatch
  rw [htype]
  cases r with
  | sample misc raw =>
    have hsz : Record.size (.sample misc raw) = 12 + raw.length := by
      rw [Record.size, Record.body, length_append, length_le]
      omega
    have hfield := fits.size_field
    obtain ⟨hlen, hraw⟩ := at_append.mp hbody
    rw [length_le] at hraw
    have hge : 12 ≤ data.length := by
      refine Nat.le_trans ?_ (hlen.le_length ?_)
      · rw [length_le]
      · exact ne_nil_of_length_pos (by rw [length_le]; decide)
    show (do let size ← eSize n mem begin; parseSw data size) = _
    rw [hsize, ok_bind, parseSw, if_neg (by omega), hlen.readLE (by decide) (by omega), ok_bind,
      if_neg (by omega), if_neg (by omega), hraw.readBytes hge]
    rfl
  | lost misc id count more =>
    have hcount : count < 256 ^ 8 := fits.count_field count rfl
    obtain ⟨-, hbody⟩ := at_append.mp hbody
    obtain ⟨hlost, -⟩ := at_append.mp hbody
    rw [length_le] at hlost
    show (do let lost ← readLE data 16 8; return some (Event.lost lost)) = _
    rw [hlost.readLE (by decide) hcount]
    rfl

/-! ### The invariant -/

/-- What holds at each place of a call, when the records `done` were given back and the records
    `pend` stand in the ring. -/
def PcHolds (n : Nat) (s : State) (done pend : List Record) : Prop :=
  match s.pc with
  | .idle | .top => s.delivered = done.map Record.event
  | .compare head => s.delivered = done.map Record.event ∧ ∃ pre post, pend = pre ++ post
      ∧ head = (s.tail + total pre) % 2 ^ 64 ∧ (head, (done ++ pre).length) ∈ s.heads
      ∧ s.callAt ≤ (done ++ pre).length
  | .found tail => s.delivered = done.map Record.event ∧ tail = s.tail ∧ pend ≠ []
  | .wraps tail => s.delivered = done.map Record.event ∧ tail = s.tail ∧ ∃ r rest, pend = r :: rest
      ∧ n ≤ s.tail % n + r.size
  | .half tail alloc buf => s.delivered = done.map Record.event ∧ tail = s.tail ∧ ∃ r rest,
      pend = r :: rest ∧ n ≤ s.tail % n + r.size ∧ alloc = r.size
      ∧ buf = r.bytes.take (n - s.tail % n)
  | .ready tail .inRing => s.delivered = done.map Record.event ∧ tail = s.tail ∧ ∃ r rest,
      pend = r :: rest ∧ s.tail % n + r.size ≤ n
  | .ready tail (.inBuf buf) => s.delivered = done.map Record.event ∧ tail = s.tail ∧ ∃ r rest,
      pend = r :: rest ∧ buf = r.bytes
  | .called tail => tail = s.tail ∧ ∃ r rest, pend = r :: rest
      ∧ s.delivered = (done ++ [r]).map Record.event

/-- The records that stand in the ring are all that is published and not given back. -/
structure Holds (n : Nat) (s : State) (done pend : List Record) : Prop where
  records : s.records = done ++ pend
  fits : ∀ r ∈ pend, r.Fits n
  tail_lt : s.tail < 2 ^ 64
  tail_dvd : 8 ∣ s.tail
  head : s.head = (s.tail + total pend) % 2 ^ 64
  room : total pend ≤ n
  bytes : around s.mem n s.tail (total pend) = bytesOf pend
  started : s.callAt ≤ s.records.length
  pc : PcHolds n s done pend

/-- Another record in the ring does not matter to the call. -/
theorem PcHolds.concat {n : Nat} {s : State} {done pend : List Record} (h : PcHolds n s done pend)
    (r : Record) (head : Nat) :
    PcHolds n { s with head := head, records := s.records ++ [r] } done (pend ++ [r]) := by
  unfold PcHolds at h ⊢
  cases hpc : s.pc with
  | idle => rwa [hpc] at h
  | top => rwa [hpc] at h
  | compare head =>
    rw [hpc] at h
    obtain ⟨hdel, pre, post, rfl, hhead⟩ := h
    exact ⟨hdel, pre, post ++ [r], append_assoc _ _ _, hhead⟩
  | found tail =>
    rw [hpc] at h
    obtain ⟨hdel, htail, hne⟩ := h
    exact ⟨hdel, htail, append_ne_nil_of_left_ne_nil hne _⟩
  | wraps tail =>
    rw [hpc] at h
    obtain ⟨hdel, htail, r', rest, rfl, hwrap⟩ := h
    exact ⟨hdel, htail, r', rest ++ [r], rfl, hwrap⟩
  | half tail alloc buf =>
    rw [hpc] at h
    obtain ⟨hdel, htail, r', rest, rfl, hhalf⟩ := h
    exact ⟨hdel, htail, r', rest ++ [r], rfl, hhalf⟩
  | ready tail place =>
    rw [hpc] at h
    cases place with
    | inRing =>
      obtain ⟨hdel, htail, r', rest, rfl, hin⟩ := h
      exact ⟨hdel, htail, r', rest ++ [r], rfl, hin⟩
    | inBuf buf =>
      obtain ⟨hdel, htail, r', rest, rfl, hbuf⟩ := h
      exact ⟨hdel, htail, r', rest ++ [r], rfl, hbuf⟩
  | called tail =>
    rw [hpc] at h
    obtain ⟨htail, r', rest, rfl, hdel⟩ := h
    exact ⟨htail, r', rest ++ [r], rfl, hdel⟩

section Steps

variable {n : Nat} (hn : RingSize n) {s : State} {done pend : List Record}
include hn

theorem Holds.outstanding_eq (h : Holds n s done pend) : outstanding s = total pend := by
  have htail := h.tail_lt
  have hroom := h.room
  have hlt := hn.lt
  unfold outstanding
  rw [h.head]
  omega

/-- **The kernel** leaves the records in the ring as they are. -/
theorem kernel_holds {s' : State} (h : Holds n s done pend) (hstep : Kernel n s s') :
    ∃ pend', Holds n s' done pend' := by
  have hout := h.outstanding_eq hn
  cases hstep with
  | write i x free =>
    refine ⟨pend, { h with bytes := ?_ }⟩
    have hplace : (s.head + i) % n = (s.tail + (total pend + i)) % n := by
      rw [h.head, Nat.add_mod, Nat.mod_mod_of_dvd _ hn.dvd, ← Nat.add_mod, Nat.add_assoc]
    show around (Function.update s.mem ((s.head + i) % n) x) n s.tail (total pend) = bytesOf pend
    rw [hplace, around_update (Nat.le_add_right _ _) (by omega)]
    exact h.bytes
  | publish r fits room written =>
    have htotal : total (pend ++ [r]) = total pend + r.size := by
      rw [total_append]
      rfl
    have hnext : around s.mem n (s.tail + total pend) r.size = r.bytes := by
      rw [← written, h.head, around_mod _ hn.dvd]
    refine ⟨pend ++ [r], ?_, ?_, h.tail_lt, h.tail_dvd, ?_, ?_, ?_, ?_, h.pc.concat r _⟩
    · show s.records ++ [r] = done ++ (pend ++ [r])
      rw [h.records, append_assoc]
    · intro r' hr'
      rcases mem_append.mp hr' with hr' | hr'
      · exact h.fits r' hr'
      · rw [mem_singleton.mp hr']
        exact fits
    · show (s.head + r.size) % 2 ^ 64 = (s.tail + total (pend ++ [r])) % 2 ^ 64
      rw [htotal, h.head, Nat.mod_add_mod, Nat.add_assoc]
    · omega
    · show around s.mem n s.tail (total (pend ++ [r])) = bytesOf (pend ++ [r])
      rw [htotal, around_add, h.bytes, hnext, bytesOf_concat]
    · show s.callAt ≤ (s.records ++ [r]).length
      rw [length_append]
      exact Nat.le_add_right_of_le h.started

end Steps

end Bcc.Perf
