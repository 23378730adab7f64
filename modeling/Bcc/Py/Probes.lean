import Bcc.Posix.Descriptors
import Bcc.Assoc.Dict
import Bcc.Text.Hex

namespace Bcc.Py

open Assoc CText Posix

/-!
# Probes of Python objects — `BPF` of `bcc/__init__.py`

* `BPF` — an object, with dictionaries for the descriptors of its kprobes and uprobes;
* `State` — all objects, with the counter `_num_open_probes`;
* `Op.run` — a method.  What a call into the library returns is an argument.
-/

/-- A `bytes` object. -/
abbrev Name := List Char

/-! ### Objects -/

/-- An object: `kprobe_fds`, by event and function, and `uprobe_fds`, by event. -/
structure BPF where
  kprobeFds : Dict Name (Dict Name Nat)
  uprobeFds : Dict Name Nat

/-- A probe of an object. -/
inductive Probe where
  | kprobe (evName fnName : Name)
  | uprobe (evName : Name)
  deriving DecidableEq

namespace BPF

/-- An object as it is made. -/
def empty : BPF := ⟨.empty, .empty⟩

/-- The dictionary of an event, which is made if it is not there. -/
def fnFds (b : BPF) (evName : Name) : Dict Name Nat := (b.kprobeFds.get? evName).getD .empty

/-- The descriptor that is recorded for a probe. -/
def fdOf (b : BPF) : Probe → Option Nat
  | .kprobe evName fnName => (b.fnFds evName).get? fnName
  | .uprobe evName => b.uprobeFds.get? evName

/-- `_add_kprobe_fd` and `_add_uprobe_fd`, for the dictionaries. -/
def addFd (b : BPF) (fd : Nat) : Probe → BPF
  | .kprobe evName fnName =>
    { b with kprobeFds := b.kprobeFds.set evName ((b.fnFds evName).set fnName fd) }
  | .uprobe evName => { b with uprobeFds := b.uprobeFds.set evName fd }

/-- `_del_kprobe_fd` and `_del_uprobe_fd`, for the dictionaries: the event of a kprobe stays. -/
def delFd (b : BPF) : Probe → BPF
  | .kprobe evName fnName =>
    { b with kprobeFds := b.kprobeFds.set evName ((b.fnFds evName).del fnName) }
  | .uprobe evName => { b with uprobeFds := b.uprobeFds.del evName }

/-- `num_open_kprobes` -/
def numOpenKprobes (b : BPF) : Nat := b.kprobeFds.length

/-- The number of descriptors that are recorded. -/
def recorded (b : BPF) : Nat := b.kprobeFds.total Dict.length + b.uprobeFds.length

end BPF

/-! ### The process -/

/-- A probe and the object that has attached it. -/
structure Site where
  obj : Nat
  probe : Probe
  deriving DecidableEq

/-- What a descriptor was opened for. -/
inductive Owner where
  | probe (site : Site)
  | other
  deriving DecidableEq

/-- A process: `_num_open_probes`, the objects, and the open descriptors. -/
structure State where
  numOpenProbes : Int
  objs : Dict Nat BPF
  fds : Fds Owner

namespace State

/-- An object; one that was not used yet is empty. -/
def obj (s : State) (i : Nat) : BPF := (s.objs.get? i).getD .empty

/-- `_add_kprobe_fd` and `_add_uprobe_fd` -/
def addFd (s : State) (i : Nat) (probe : Probe) (fd : Nat) : State :=
  { s with objs := s.objs.set i ((s.obj i).addFd fd probe), numOpenProbes := s.numOpenProbes + 1 }

/-- `_del_kprobe_fd` and `_del_uprobe_fd` -/
def delFd (s : State) (i : Nat) (probe : Probe) : State :=
  { s with objs := s.objs.set i ((s.obj i).delFd probe), numOpenProbes := s.numOpenProbes - 1 }

/-- The kernel closes a descriptor. -/
def close (s : State) (fd : Nat) : State := { s with fds := s.fds.close fd }

/-- A probe is attached, and its descriptor is recorded. -/
def attach (s : State) (i : Nat) (probe : Probe) : State :=
  { s with fds := s.fds.add (.probe ⟨i, probe⟩) }.addFd i probe s.fds.free

end State

/-- An exception: of the source, with the arguments of its text, or of a dictionary or an
    operator. -/
inductive Raised where
  | exception (text : String) (args : List Name)
  | keyError (key : Name)
  | typeError
  deriving DecidableEq

/-! ### Calls for a single probe -/

/-- What happens when a probe is attached: the limit of `get_probe_limit`, the exception of
    `load_func`, if there is one, and whether the library attaches the probe. -/
structure Attaching where
  limit : Nat
  load : Option Raised
  attach : Bool

/-- What happens in `bpf_close_perf_event_fd`: the results of `ioctl` and `close`, and whether a
    `close` that fails has released the descriptor. -/
structure Closing where
  ioctl : Bool
  close : Bool
  gone : Bool

/-- The descriptor is released. -/
def Closing.releases (c : Closing) : Bool := c.close || c.gone

/-- `_check_probe_quota` -/
def checkProbeQuota (s : State) (numNewProbes limit : Nat) : Option Raised :=
  if s.numOpenProbes + numNewProbes > limit then
    some (.exception "Number of open probes would exceed global quota" [])
  else none

/-- The part that the methods for attaching a probe have in common; `failed` is what they raise if
    the library fails. -/
def attachProbe (i : Nat) (probe : Probe) (failed : Raised) (r : Attaching) (s : State) :
    State × Option Raised :=
  match checkProbeQuota s 1 r.limit with
  | some e => (s, some e)
  | none =>
    match r.load with
    | some e => (s, some e)
    | none => if r.attach then (s.attach i probe, none) else (s, some failed)

/-- `bpf_close_perf_event_fd`: all is well if it returns zero. -/
def closePerfEventFd (c : Closing) (s : State) (fd : Nat) : Bool × State :=
  if fd ∈ s.fds.nums then
    (c.ioctl && c.close, if c.releases then s.close fd else s)
  else (false, s)

/-- `detach_kprobe_event_by_fn`; `detach` is the result of `bpf_detach_kprobe`. -/
def detachKprobeEventByFn (i : Nat) (evName fnName : Name) (c : Closing) (detach : Bool)
    (s : State) : State × Option Raised :=
  match (s.obj i).kprobeFds.get? evName with
  | none => (s, some (.exception "Kprobe %s is not attached" [evName]))
  | some fnFds =>
    match fnFds.get? fnName with
    | none => (s, some (.keyError fnName))
    | some fd =>
      let (res, s) := closePerfEventFd c s fd
      if !res then (s, some (.exception "Failed to close kprobe FD" []))
      else
        let s := s.delFd i (.kprobe evName fnName)
        if ((s.obj i).fnFds evName).length = 0 && !detach then
          (s, some (.exception "Failed to detach BPF from kprobe" []))
        else (s, none)

/-- `detach_uprobe_event`; `detach` is the result of `bpf_detach_uprobe`. -/
def detachUprobeEvent (i : Nat) (evName : Name) (c : Closing) (detach : Bool) (s : State) :
    State × Option Raised :=
  match (s.obj i).uprobeFds.get? evName with
  | none => (s, some (.exception "Uprobe %s is not attached" [evName]))
  | some fd =>
    let (res, s) := closePerfEventFd c s fd
    if !res then (s, some (.exception "Failed to detach BPF from uprobe" []))
    else if !detach then (s, some (.exception "Failed to detach BPF from uprobe" []))
    else (s.delFd i (.uprobe evName), none)

/-- A call for a single probe, or something else that opens or closes a descriptor of its own. -/
inductive Call where
  | attach (i : Nat) (probe : Probe) (failed : Raised) (r : Attaching)
  | detachKprobe (i : Nat) (evName fnName : Name) (c : Closing) (detach : Bool)
  | detachUprobe (i : Nat) (evName : Name) (c : Closing) (detach : Bool)
  | openOther
  | closeOther (fd : Nat)

def Call.run : Call → State → State × Option Raised
  | .attach i probe failed r => attachProbe i probe failed r
  | .detachKprobe i evName fnName c detach => detachKprobeEventByFn i evName fnName c detach
  | .detachUprobe i evName c detach => detachUprobeEvent i evName c detach
  | .openOther => fun s => ({ s with fds := s.fds.add .other }, none)
  | .closeOther fd => fun s => (if s.fds.lookup fd = some .other then s.close fd else s, none)

/-- The state after a call. -/
def Call.next (s : State) (c : Call) : State := (c.run s).1

/-! ### Methods -/

/-- What a method does: the state it leaves, what it raises, and the calls for single probes that
    it makes. -/
structure Out where
  state : State
  raised : Option Raised
  calls : List Call

/-- A method that is a call for a single probe. -/
def Call.out (c : Call) (s : State) : Out := ⟨(c.run s).1, (c.run s).2, [c]⟩

/-- A method that raises an exception. -/
def raise (e : Raised) (s : State) : Out := ⟨s, some e, []⟩

/-- One thing after another, unless an exception is raised. -/
def Out.andThen (o : Out) (f : State → Out) : Out :=
  match o.raised with
  | some _ => o
  | none => ⟨(f o.state).state, (f o.state).raised, o.calls ++ (f o.state).calls⟩

section Loops

variable {α : Type} (f : α → State → Out)

/-- `for x in xs: f(x)` -/
def forEach : List α → State → Out
  | [], s => ⟨s, none, []⟩
  | x :: xs, s => (f x s).andThen (forEach xs)

/-- `for x in xs: try: f(x) except: failed.append(x)` -/
def tryEach : List α → State → Out × List α
  | [], s => (⟨s, none, []⟩, [])
  | x :: xs, s =>
    let o := f x s
    let (rest, failed) := tryEach xs o.state
    (⟨rest.state, none, o.calls ++ rest.calls⟩, if o.raised.isSome then x :: failed else failed)

end Loops

/-- What happens when probes are detached, by event and function. -/
structure Detaching where
  closeKprobe : Name → Name → Closing
  detachKprobe : Name → Bool
  closeUprobe : Name → Closing
  detachUprobe : Name → Bool

/-- The event of a kprobe: `pfx + event.replace(b"+", b"_").replace(b".", b"_")`. -/
def kprobeEvName (pfx : String) (event : Name) : Name :=
  pfx.toList ++ (event.map fun c => if c = '+' then '_' else c).map fun c =>
    if c = '.' then '_' else c

/-- `_probe_repl.sub(b"_", path)` -/
def probeRepl (path : Name) : Name :=
  path.map fun c => if c.isAlpha || c.isDigit || c == '_' then c else '_'

/-- `_get_uprobe_evname` -/
def getUprobeEvname (pfx : Char) (path : Name) (addr : Nat) (pid : Int) : Name :=
  pfx :: '_' :: probeRepl path ++ "_0x".toList ++ hex addr
    ++ if pid = -1 then [] else '_' :: decimal pid

/-- The exception of `attach_kprobe` and `attach_kretprobe`. -/
def untraceable (kind : String) (fnName event : Name) : Raised :=
  .exception ("Failed to attach BPF program %s to " ++ kind ++ " %s, it's not traceable " ++
    "(either non-existing, inlined, or marked as \"notrace\")") [fnName, event]

/-- `attach_kprobe` and `attach_kretprobe`, for an event. -/
def attachKprobeEvent (pfx kind : String) (i : Nat) (event fnName : Name) (r : Attaching) :
    State → Out :=
  (Call.attach i (.kprobe (kprobeEvName pfx event) fnName) (untraceable kind fnName event) r).out

def attachKprobe : Nat → Name → Name → Attaching → State → Out := attachKprobeEvent "p_" "kprobe"

def attachKretprobe : Nat → Name → Name → Attaching → State → Out :=
  attachKprobeEvent "r_" "kretprobe"

/-- The loop of `attach_kprobe` and `attach_kretprobe` over the functions that match.  If all fail,
    `'/'.join(probes)` is not defined for `bytes`. -/
def attachMatches (attach : Name → Name → Attaching → State → Out) (kind : String) (fnName : Name)
    (matched : List (Name × Attaching)) (s : State) : Out :=
  let (o, failed) := tryEach (fun m => attach m.1 fnName m.2) matched s
  if failed.length = matched.length then
    { o with raised := some (if failed = [] then untraceable kind fnName [] else .typeError) }
  else o

/-- `attach_kprobe`, with `event_re`; `get_kprobe_functions` can fail. -/
def attachKprobeRe (i : Nat) (found : Except Raised (List (Name × Attaching))) (fnName : Name)
    (limit : Nat) (s : State) : Out :=
  match found with
  | .error e => raise e s
  | .ok matched =>
    match checkProbeQuota s matched.length limit with
    | some e => raise e s
    | none => attachMatches (attachKprobe i) "kprobe" fnName matched s

/-- `attach_kretprobe`, with `event_re`, which does not check the quota for all. -/
def attachKretprobeRe (i : Nat) (found : Except Raised (List (Name × Attaching))) (fnName : Name)
    (s : State) : Out :=
  match found with
  | .error e => raise e s
  | .ok matched => attachMatches (attachKretprobe i) "kretprobe" fnName matched s

/-- The path and the address that `_check_path_symbol` returns, or what it raises. -/
abbrev Place := Except Raised (Name × Nat)

/-- `attach_uprobe` and `attach_uretprobe`, for an address or a symbol. -/
def attachUprobePlace (pfx : Char) (kind : String) (i : Nat) (place : Place) (pid : Int)
    (r : Attaching) (s : State) : Out :=
  match place with
  | .error e => raise e s
  | .ok (path, addr) =>
    (Call.attach i (.uprobe (getUprobeEvname pfx path addr pid))
      (.exception ("Failed to attach BPF to " ++ kind) []) r).out s

def attachUprobe : Nat → Place → Int → Attaching → State → Out := attachUprobePlace 'p' "uprobe"

def attachUretprobe : Nat → Place → Int → Attaching → State → Out :=
  attachUprobePlace 'r' "uretprobe"

/-- `attach_uprobe`, with `sym_re`; `get_user_addresses` can fail. -/
def attachUprobeRe (i : Nat) (found : Except Raised (List (Place × Attaching))) (pid : Int)
    (limit : Nat) (s : State) : Out :=
  match found with
  | .error e => raise e s
  | .ok places =>
    match checkProbeQuota s places.length limit with
    | some e => raise e s
    | none => forEach (fun p => attachUprobe i p.1 pid p.2) places s

/-- `attach_uretprobe`, with `sym_re`. -/
def attachUretprobeRe (i : Nat) (found : Except Raised (List (Place × Attaching))) (pid : Int)
    (s : State) : Out :=
  match found with
  | .error e => raise e s
  | .ok places => forEach (fun p => attachUretprobe i p.1 pid p.2) places s

/-- `detach_kprobe_event_by_fn`, as a method. -/
def detachKprobeByFn (i : Nat) (evName fnName : Name) (r : Detaching) : State → Out :=
  (Call.detachKprobe i evName fnName (r.closeKprobe evName fnName) (r.detachKprobe evName)).out

/-- `detach_kprobe_event` -/
def detachKprobeEvent (i : Nat) (evName : Name) (r : Detaching) (s : State) : Out :=
  match (s.obj i).kprobeFds.get? evName with
  | none => raise (.keyError evName) s
  | some fnFds => forEach (fun fnName => detachKprobeByFn i evName fnName r) fnFds.keys s

/-- `detach_kprobe` and `detach_kretprobe`; an empty name is as good as none. -/
def detachKprobeNamed (pfx : String) (i : Nat) (event fnName : Name) (r : Detaching) :
    State → Out :=
  if fnName ≠ [] then detachKprobeByFn i (kprobeEvName pfx event) fnName r
  else detachKprobeEvent i (kprobeEvName pfx event) r

def detachKprobe : Nat → Name → Name → Detaching → State → Out := detachKprobeNamed "p_"

def detachKretprobe : Nat → Name → Name → Detaching → State → Out := detachKprobeNamed "r_"

/-- `detach_uprobe_event`, as a method. -/
def detachUprobeNamed (i : Nat) (evName : Name) (r : Detaching) : State → Out :=
  (Call.detachUprobe i evName (r.closeUprobe evName) (r.detachUprobe evName)).out

/-- `detach_uprobe` and `detach_uretprobe` -/
def detachUprobePlace (pfx : Char) (i : Nat) (place : Place) (pid : Int) (r : Detaching)
    (s : State) : Out :=
  match place with
  | .error e => raise e s
  | .ok (path, addr) => detachUprobeNamed i (getUprobeEvname pfx path addr pid) r s

def detachUprobe : Nat → Place → Int → Detaching → State → Out := detachUprobePlace 'p'

def detachUretprobe : Nat → Place → Int → Detaching → State → Out := detachUprobePlace 'r'

/-- `cleanup`, as far as it is about kprobes and uprobes. -/
def cleanup (i : Nat) (r : Detaching) (s : State) : Out :=
  (forEach (fun evName => detachKprobeEvent i evName r) (s.obj i).kprobeFds.keys s).andThen
    fun s => forEach (fun evName => detachUprobeNamed i evName r) (s.obj i).uprobeFds.keys s

/-- The methods, and what else opens and closes descriptors. -/
inductive Op where
  | attachKprobe (i : Nat) (event fnName : Name) (r : Attaching)
  | attachKretprobe (i : Nat) (event fnName : Name) (r : Attaching)
  | attachKprobeRe (i : Nat) (found : Except Raised (List (Name × Attaching))) (fnName : Name)
    (limit : Nat)
  | attachKretprobeRe (i : Nat) (found : Except Raised (List (Name × Attaching))) (fnName : Name)
  | attachUprobe (i : Nat) (place : Place) (pid : Int) (r : Attaching)
  | attachUretprobe (i : Nat) (place : Place) (pid : Int) (r : Attaching)
  | attachUprobeRe (i : Nat) (found : Except Raised (List (Place × Attaching))) (pid : Int)
    (limit : Nat)
  | attachUretprobeRe (i : Nat) (found : Except Raised (List (Place × Attaching))) (pid : Int)
  | detachKprobeEventByFn (i : Nat) (evName fnName : Name) (r : Detaching)
  | detachKprobeEvent (i : Nat) (evName : Name) (r : Detaching)
  | detachKprobe (i : Nat) (event fnName : Name) (r : Detaching)
  | detachKretprobe (i : Nat) (event fnName : Name) (r : Detaching)
  | detachUprobeEvent (i : Nat) (evName : Name) (r : Detaching)
  | detachUprobe (i : Nat) (place : Place) (pid : Int) (r : Detaching)
  | detachUretprobe (i : Nat) (place : Place) (pid : Int) (r : Detaching)
  | cleanup (i : Nat) (r : Detaching)
  | openOther
  | closeOther (fd : Nat)

def Op.run : Op → State → Out
  | .attachKprobe i event fnName r => Py.attachKprobe i event fnName r
  | .attachKretprobe i event fnName r => Py.attachKretprobe i event fnName r
  | .attachKprobeRe i found fnName limit => Py.attachKprobeRe i found fnName limit
  | .attachKretprobeRe i found fnName => Py.attachKretprobeRe i found fnName
  | .attachUprobe i place pid r => Py.attachUprobe i place pid r
  | .attachUretprobe i place pid r => Py.attachUretprobe i place pid r
  | .attachUprobeRe i found pid limit => Py.attachUprobeRe i found pid limit
  | .attachUretprobeRe i found pid => Py.attachUretprobeRe i found pid
  | .detachKprobeEventByFn i evName fnName r => detachKprobeByFn i evName fnName r
  | .detachKprobeEvent i evName r => Py.detachKprobeEvent i evName r
  | .detachKprobe i event fnName r => Py.detachKprobe i event fnName r
  | .detachKretprobe i event fnName r => Py.detachKretprobe i event fnName r
  | .detachUprobeEvent i evName r => detachUprobeNamed i evName r
  | .detachUprobe i place pid r => Py.detachUprobe i place pid r
  | .detachUretprobe i place pid r => Py.detachUretprobe i place pid r
  | .cleanup i r => Py.cleanup i r
  | .openOther => Call.openOther.out
  | .closeOther fd => (Call.closeOther fd).out

end Bcc.Py
