import Bcc.Run.Ledger

namespace Bcc.Api.PerfBuffer

/-!
# The C++ API — perf buffers

A `BPFPerfBuffer` has a reader for each CPU, in `cpu_readers_`, and an epoll instance that they are
registered with.  The results of the calls that may fail are given with each operation, and readers
are numbered as they are made.

* `openAllCpu` — closes what it has opened if it fails on some CPU;
* `closeOnCpu` — frees a reader, deletes its element of the map, and takes it out of `cpu_readers_`
  if that has succeeded;
* `step` — an operation.
-/

/-- The object.  `epoll` has the readers that are registered with `epfd_`, if there is one.
    `acquired` and `released` are not in the code: the readers that were made, and those that were
    freed, each time. -/
structure State where
  next : Nat
  readers : AList fun _ : Int => Nat
  epoll : Option (List Nat)
  acquired : List Nat
  released : List Nat

def start : State := ⟨0, ∅, none, [], []⟩

/-- `perf_reader_free`. -/
def State.free (s : State) (reader : Nat) : State := { s with released := s.released ++ [reader] }

/-- Results of `bpf_open_perf_buffer_opts`, of the update of the map and of `epoll_ctl`. -/
structure Results where
  create : Bool
  update : Bool
  ctl : Bool

/-- `open_on_cpu`.  Without an epoll instance `epoll_ctl` fails. -/
def openOnCpu (cpu : Int) (r : Results) (s : State) : Bool × State :=
  if cpu ∈ s.readers then (false, s)
  else if !r.create then (false, s)
  else
    let reader := s.next
    let s := { s with next := s.next + 1, acquired := s.acquired ++ [reader] }
    if !r.update then (false, s.free reader)
    else
      match s.epoll with
      | none => (false, s.free reader)
      | some registered =>
        if !r.ctl then (false, s.free reader)
        else (true, { s with
          readers := s.readers.insert cpu reader, epoll := some (registered ++ [reader]) })

/-- `close_on_cpu`; `remove` is the result of the deletion from the map. -/
def closeOnCpu (cpu : Int) (remove : Bool) (s : State) : Bool × State :=
  match s.readers.lookup cpu with
  | none => (true, s)
  | some reader =>
    let s := s.free reader
    if !remove then (false, s) else (true, { s with readers := s.readers.erase cpu })

/-- The loop of `close_all_cpu`. -/
def closeCpus (remove : Int → Bool) (cpus : List Int) (s : State) : State :=
  cpus.foldl (fun s cpu => (closeOnCpu cpu (remove cpu) s).2) s

/-- `close_all_cpu`, and the destructor.  Whether `close` succeeds is only reported. -/
def closeAllCpu (remove : Int → Bool) (s : State) : State :=
  closeCpus remove s.readers.keys { s with epoll := none }

/-- The loop of `open_all_cpu`. -/
def openCpus : List (Int × Results) → State → Bool × State
  | [], s => (true, s)
  | (cpu, r) :: rest, s =>
    let (ok, s) := openOnCpu cpu r s
    if !ok then (false, s) else openCpus rest s

/-- `open_all_cpu`; `epoll` is the result of `epoll_create1`. -/
def openAllCpu (epoll : Bool) (cpus : List (Int × Results)) (remove : Int → Bool) (s : State) :
    Bool × State :=
  if s.readers.keys.length ≠ 0 ∨ s.epoll.isSome then (false, s)
  else
    let (ok, s) := openCpus cpus { s with epoll := if epoll then some [] else none }
    if !ok then (false, closeAllCpu remove s) else (true, s)

/-! ### What a user can do -/

/-- The operations; `ready` are the readers that `epoll_wait` finds data in, if registered. -/
inductive Op where
  | openAllCpu (epoll : Bool) (cpus : List (Int × Results)) (remove : Int → Bool)
  | closeAllCpu (remove : Int → Bool)
  | poll (ready : List Nat)
  | consume

def step (s : State) : Op → State
  | .openAllCpu epoll cpus remove => (openAllCpu epoll cpus remove s).2
  | .closeAllCpu remove => closeAllCpu remove s
  | .poll _ => s
  | .consume => s

def readersOf (entries : List (Sigma fun _ : Int => Nat)) : List Nat := entries.map fun e => e.2

/-- The readers in `cpu_readers_`. -/
def State.values (s : State) : List Nat := readersOf s.readers.entries

/-- The readers that are passed to `perf_reader_event_read`. -/
def reads (s : State) : Op → List Nat
  | .poll ready =>
    match s.epoll with
    | none => []
    | some registered => (ready.filter (· ∈ registered)).take s.readers.keys.length
  | .consume => if s.epoll.isSome then s.values else []
  | _ => []

end Bcc.Api.PerfBuffer
