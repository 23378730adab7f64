import Bcc.Bytes.Ring
import Mathlib.Logic.Relation

namespace Bcc.Perf

open CText Bytes

/-!
# Perf events — the reader of a ring

The kernel and the reader take their steps in any order.

* `Kernel` — writes records into a ring of memory and moves `data_head`;
* `reader` — `perf_reader_event_read` calls back for each record and moves `data_tail`.
-/

/-! ### Records -/

/-- What the callbacks are called with. -/
inductive Event where
  /-- `raw_cb`. -/
  | sample (raw : List UInt8)
  /-- `lost_cb`. -/
  | lost (count : Nat)
  deriving DecidableEq, Repr

/-- A record: a sample with its raw bytes, or a number of samples that were lost, with what the
    kernel puts behind it. -/
inductive Record where
  | sample (misc : Nat) (raw : List UInt8)
  | lost (misc id count : Nat) (more : List UInt8)
  deriving DecidableEq, Repr

namespace Record

/-- What is to be delivered. -/
def event : Record → Event
  | sample _ raw => .sample raw
  | lost _ _ count _ => .lost count

/-- `PERF_RECORD_SAMPLE` and `PERF_RECORD_LOST`. -/
def type : Record → Nat
  | sample .. => 9
  | lost .. => 2

def misc : Record → Nat
  | sample misc _ => misc
  | lost misc .. => misc

/-- What follows the `perf_event_header`. -/
def body : Record → List UInt8
  | sample _ raw => le 4 raw.length ++ raw
  | lost _ id count more => le 8 id ++ (le 8 count ++ more)

def size (r : Record) : Nat := 8 + r.body.length

def bytes (r : Record) : List UInt8 := le 4 r.type ++ (le 2 r.misc ++ (le 2 r.size ++ r.body))

/-- Records that the kernel writes into a ring of `n` bytes. -/
structure Fits (n : Nat) (r : Record) : Prop where
  size_dvd : 8 ∣ r.size
  size_ge : 16 ≤ r.size
  size_lt : r.size < n
  size_field : r.size < 2 ^ 16
  count_field : ∀ count, r.event = .lost count → count < 2 ^ 64

end Record

/-! ### The reader -/

/-- `parse_sw`, on the memory from `data` on.  Messages are left out. -/
def parseSw (data : List UInt8) (size : Nat) : Res (Option Event) :=
  if size < 8 then .ok none
  else do
    let rawSize ← readLE data 8 4
    if size < 12 + rawSize then return none
    else if 12 + rawSize ≠ size then return none
    else
      let raw ← readBytes data 12 rawSize
      return some (.sample raw)

/-- Where the bytes of a record are: in the ring, or in `reader->buf`. -/
inductive Place where
  | inRing
  | inBuf (buf : List UInt8)

/-- Where a call of `perf_reader_event_read` is.  `tail` is the local variable. -/
inductive Pc where
  /-- There is no call. -/
  | idle
  /-- Before `read_data_head`. -/
  | top
  /-- `data_head` was read, and `data_tail` comes next. -/
  | compare (head : Nat)
  /-- The record at `tail` is to be looked at. -/
  | found (tail : Nat)
  /-- It wraps around the ring. -/
  | wraps (tail : Nat)
  /-- Its first part was copied to a buffer of `alloc` bytes. -/
  | half (tail alloc : Nat) (buf : List UInt8)
  /-- Its bytes are in one piece. -/
  | ready (tail : Nat) (place : Place)
  /-- The callback has returned. -/
  | called (tail : Nat)

/-- The ring and its counters, and the call.  The rest is what can be said about the run:
    `delivered` is what the callbacks were called with, `records` what the kernel has published,
    `heads` the values of `data_head` that the call has read, each with the number of records
    published by then, and `callAt` the number of records published when it started. -/
structure State where
  mem : Nat → UInt8
  head : Nat
  tail : Nat
  pc : Pc
  delivered : List Event
  records : List Record
  heads : List (Nat × Nat)
  callAt : Nat

section Model

variable (n : Nat)

/-- Memory of the ring, in one piece. -/
def readFlat (mem : Nat → UInt8) (off len : Nat) : Res (List UInt8) :=
  if off + len ≤ n then .ok (flat mem off len) else .error .outOfBounds

/-- `e->type`. -/
def eType (mem : Nat → UInt8) (begin : Nat) : Res Nat := do
  let b ← readFlat n mem begin 4
  return leNat b

/-- `e->size`. -/
def eSize (mem : Nat → UInt8) (begin : Nat) : Res Nat := do
  let b ← readFlat n mem (begin + 6) 2
  return leNat b

/-- The memory from `ptr` on. -/
def Place.data (mem : Nat → UInt8) (begin : Nat) : Place → Res (List UInt8)
  | inRing => readFlat n mem begin (n - begin)
  | inBuf buf => .ok buf

/-- The branches on the type of the record. -/
def dispatch (mem : Nat → UInt8) (begin : Nat) (data : List UInt8) : Res (Option Event) := do
  let type ← eType n mem begin
  if type = 2 then
    let lost ← readLE data 16 8
    return some (.lost lost)
  else if type = 9 then
    let size ← eSize n mem begin
    parseSw data size
  else return none

/-- The next step of the call.  Everything in the ring is read at the time it is used. -/
def reader (s : State) : Res State :=
  match s.pc with
  | .idle => .ok s
  | .top =>
    .ok { s with pc := .compare s.head, heads := s.heads ++ [(s.head, s.records.length)] }
  | .compare head =>
    if s.tail = head then .ok { s with pc := .idle } else .ok { s with pc := .found s.tail }
  | .found tail => do
    let size ← eSize n s.mem (tail % n)
    -- `end < begin`
    if (tail + size) % 2 ^ 64 % n < tail % n then return { s with pc := .wraps tail }
    else return { s with pc := .ready tail .inRing }
  | .wraps tail => do
    let size ← eSize n s.mem (tail % n)
    let len := n - tail % n
    if size < len then .error .outOfBounds
    else
      let buf ← readFlat n s.mem (tail % n) len
      return { s with pc := .half tail size buf }
  | .half tail alloc buf => do
    let size ← eSize n s.mem (tail % n)
    let len := n - tail % n
    if size < len ∨ alloc < size then .error .outOfBounds
    else
      let rest ← readFlat n s.mem 0 (size - len)
      return { s with pc := .ready tail (.inBuf (buf ++ rest)) }
  | .ready tail place => do
    let data ← place.data n s.mem (tail % n)
    let event ← dispatch n s.mem (tail % n) data
    return { s with pc := .called tail, delivered := s.delivered ++ event.toList }
  | .called tail => do
    let size ← eSize n s.mem (tail % n)
    return { s with pc := .top, tail := (s.tail + size) % 2 ^ 64 }

/-- A call.  One that comes while another is running finds `rb_use_state` taken, and returns. -/
def call (s : State) : State :=
  match s.pc with
  | .idle => { s with pc := .top, heads := [], callAt := s.records.length }
  | _ => s

/-! ### The kernel -/

/-- How many bytes the reader has not given back. -/
def outstanding (s : State) : Nat := (s.head + (2 ^ 64 - s.tail)) % 2 ^ 64

/-- The kernel writes anywhere in the part of the ring that is free, and publishes a record whose
    bytes are there. -/
inductive Kernel (s : State) : State → Prop
  | write (i : Nat) (x : UInt8) (free : outstanding s + i < n) :
      Kernel s { s with mem := Function.update s.mem ((s.head + i) % n) x }
  | publish (r : Record) (fits : r.Fits n) (room : outstanding s + r.size ≤ n)
      (written : around s.mem n s.head r.size = r.bytes) :
      Kernel s { s with head := (s.head + r.size) % 2 ^ 64, records := s.records ++ [r] }

/-- A step of the whole. -/
inductive Next (s : State) : State → Prop
  | kernel {s' : State} (h : Kernel n s s') : Next s s'
  | call : Next s (call s)
  | reader {s' : State} (h : reader n s = .ok s') : Next s s'

end Model

/-- A ring that is empty. -/
def start (mem : Nat → UInt8) (tail : Nat) : State := ⟨mem, tail, tail, .idle, [], [], [], 0⟩

end Bcc.Perf
