import Bcc.Run.Ledger

namespace Bcc.Api

/-!
# The C++ API — attached probes

A `BPF` object records the probes that it has attached, with what they hold: a descriptor, or a
vector of descriptors, one for each CPU.

* `attachEvent`, `attachPerfEvent` — the attaches;
* `detach`, `detachAll` — close the descriptors before they do what may fail;
* `step` — an operation, with what the calls of libbpf and of the kernel return.

The numbers of descriptors and vectors are those of the calls that have made them, so they are never
used again.  Requests that are refused before anything is done, and the messages, are left out.
-/

/-! ### The object -/

/-- `kprobes_`, `uprobes_`, `tracepoints_`, `raw_tracepoints_` and `perf_events_`. -/
inductive Table where
  | kprobes
  | uprobes
  | tracepoints
  | rawTracepoints
  | perfEvents
  deriving DecidableEq, Repr

/-- What a probe holds, and must release. -/
inductive Resource where
  | fd (id : Nat)
  | vector (id : Nat)
  deriving DecidableEq, Repr

def Resource.id : Resource → Nat
  | fd id => id
  | vector id => id

/-- `perf_event_fd` or `per_cpu_fd` of an `open_probe_t`; only those in `perf_events_` have the
    latter. -/
inductive Held where
  | perfEventFd (fd : Nat)
  | perCpuFd (vector : Nat) (fds : List Nat)
  deriving DecidableEq, Repr

def Held.fds : Held → List Nat
  | perfEventFd fd => [fd]
  | perCpuFd _ fds => fds

def Held.resources : Held → List Resource
  | perfEventFd fd => [.fd fd]
  | perCpuFd vector fds => fds.map .fd ++ [.vector vector]

/-- `open_probe_t`. -/
structure OpenProbe where
  func : String
  held : Held
  deriving DecidableEq, Repr

/-- The object.  The five maps are one, whose keys say which of them is meant.  `acquired` and
    `released` are not in the code: what was made, and what was closed or deleted, each time. -/
structure State (Key : Type) where
  next : Nat
  funcs : List String
  probes : AList fun _ : Table × Key => OpenProbe
  acquired : List Resource
  released : List Resource

variable {Key : Type} [DecidableEq Key]

def start : State Key := ⟨0, [], ∅, [], []⟩

variable (r : Results) (p : OpenProbe) (s : State Key)

/-- What is closed or deleted. -/
def State.release (xs : List Resource) : State Key :=
  { s with released := s.released ++ xs }

/-! ### Programs -/

/-- `load_func`; `load` is the result of the kernel. -/
def loadFunc (func : String) (load : Bool) (s : State Key) : Bool × State Key :=
  if func ∈ s.funcs then (true, s)
  else if load then (true, { s with funcs := func :: s.funcs })
  else (false, s)

/-- `unload_func`; `unload` is the result of `close`. -/
def unloadFunc (func : String) (unload : Bool) (s : State Key) : Bool × State Key :=
  if func ∈ s.funcs then
    if unload then (true, { s with funcs := s.funcs.erase func }) else (false, s)
  else (true, s)

/-! ### Attaching -/

/-- The end of `attach_kprobe`, `attach_uprobe`, `attach_tracepoint` and `attach_raw_tracepoint`. -/
def attachEvent (table : Table) (key : Key) (func : String) (load attach unload : Bool)
    (s : State Key) : Bool × State Key :=
  if (table, key) ∈ s.probes then (false, s)
  else
    let (loaded, s) := loadFunc func load s
    if !loaded then (false, s)
    else if !attach then (false, (unloadFunc func unload s).2)
    else
      let held := Held.perfEventFd s.next
      (true, { s with
        next := s.next + 1
        probes := s.probes.insert (table, key) ⟨func, held⟩
        acquired := s.acquired ++ held.resources })

/-- The loop over the CPUs, with the descriptors it gets. -/
def openOnCpus : List Bool → Nat → List Nat × Bool
  | [], _ => ([], true)
  | false :: _, _ => ([], false)
  | true :: rest, next =>
    let (fds, ok) := openOnCpus rest (next + 1)
    (next :: fds, ok)

/-- `attach_perf_event` and `attach_perf_event_raw`; `attach` has a result for each CPU. -/
def attachPerfEvent (key : Key) (func : String) (load : Bool) (attach : List Bool) (unload : Bool)
    (s : State Key) : Bool × State Key :=
  if (Table.perfEvents, key) ∈ s.probes then (false, s)
  else
    let (loaded, s) := loadFunc func load s
    if !loaded then (false, s)
    else
      let (fds, ok) := openOnCpus attach (s.next + 1)
      let held := Held.perCpuFd s.next fds
      let s := { s with
        next := s.next + 1 + fds.length, acquired := s.acquired ++ held.resources }
      if ok then (true, { s with probes := s.probes.insert (.perfEvents, key) ⟨func, held⟩ })
      else (false, (unloadFunc func unload (s.release held.resources)).2)

/-! ### Detaching -/

/-- Results of the calls that a detach makes: of the closing calls, of the `close` of the program,
    and of `bpf_detach_kprobe` or `bpf_detach_uprobe`. -/
structure Results where
  close : Nat → Bool
  unload : Bool
  detach : Bool

/-- `detach_kprobe_event` and `detach_uprobe_event`. -/
def detachKprobeEvent : Bool × State Key :=
  let (unloaded, s) := unloadFunc p.func r.unload (s.release p.held.resources)
  if !unloaded then (false, s) else (r.detach, s)

/-- `detach_tracepoint_event`. -/
def detachTracepointEvent : Bool × State Key :=
  unloadFunc p.func r.unload (s.release p.held.resources)

/-- `detach_raw_tracepoint_event`.  A `close` that fails has released the descriptor too. -/
def detachRawTracepointEvent : Bool × State Key :=
  let s := s.release p.held.resources
  if !r.close 0 then (false, s) else unloadFunc p.func r.unload s

/-- `detach_perf_event_all_cpu`. -/
def detachPerfEventAllCpu : Bool × State Key :=
  let (unloaded, s) := unloadFunc p.func r.unload (s.release p.held.resources)
  let closed := (List.range p.held.fds.length).all r.close
  if !unloaded then (false, s) else (closed, s)

/-- The function for the probes of a table. -/
def detachEvent : Table → Results → OpenProbe → State Key → Bool × State Key
  | .kprobes | .uprobes => detachKprobeEvent
  | .tracepoints => detachTracepointEvent
  | .rawTracepoints => detachRawTracepointEvent
  | .perfEvents => detachPerfEventAllCpu

/-- `detach_kprobe`, `detach_uprobe`, `detach_tracepoint`, `detach_raw_tracepoint` and
    `detach_perf_event`. -/
def detach (table : Table) (key : Key) (r : Results) (s : State Key) : Bool × State Key :=
  match s.probes.lookup (table, key) with
  | none => (false, s)
  | some p =>
    let (ok, s) := detachEvent table r p s
    if !ok then (false, s) else (true, { s with probes := s.probes.erase (table, key) })

/-- `detach_all`, and the destructor.  The programs are closed too, and stay in `funcs_`. -/
def detachAll (r : Table → Key → Results) (s : State Key) : State Key :=
  s.probes.entries.foldl (fun s e => (detachEvent e.1.1 (r e.1.1 e.1.2) e.2 s).2) s

/-! ### What a user can do -/

/-- The operations, each with the results of the calls that it makes.  `attach_usdt` and
    `detach_usdt` are sequences of those for uprobes. -/
inductive Op (Key : Type) where
  | attachKprobe (key : Key) (func : String) (load attach unload : Bool)
  | attachUprobe (key : Key) (func : String) (load attach unload : Bool)
  | attachTracepoint (key : Key) (func : String) (load attach unload : Bool)
  | attachRawTracepoint (key : Key) (func : String) (load attach unload : Bool)
  | attachPerfEvent (key : Key) (func : String) (load : Bool) (attach : List Bool) (unload : Bool)
  | detach (table : Table) (key : Key) (r : Results)
  | detachAll (r : Table → Key → Results)

def step : Op Key → State Key
  | .attachKprobe key func load attach unload =>
    (attachEvent .kprobes key func load attach unload s).2
  | .attachUprobe key func load attach unload =>
    (attachEvent .uprobes key func load attach unload s).2
  | .attachTracepoint key func load attach unload =>
    (attachEvent .tracepoints key func load attach unload s).2
  | .attachRawTracepoint key func load attach unload =>
    (attachEvent .rawTracepoints key func load attach unload s).2
  | .attachPerfEvent key func load attach unload =>
    (attachPerfEvent key func load attach unload s).2
  | .detach table key r => (detach table key r s).2
  | .detachAll r => detachAll r s

end Bcc.Api
