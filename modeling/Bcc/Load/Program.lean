import Bcc.Run.Resources
import Bcc.Text.Search

namespace Bcc.Load

open CText Run

/-!
# Loading a program — `bcc_prog_load_xattr`

* `bccProgLoadXattr` — asks the kernel to load a program, up to four times with weaker requests, and
  at last with a log buffer that grows until the messages of the verifier fit;
* `findBtfId` — looks up the function that a tracing program attaches to, which may leave the
  descriptor of a module's BTF.

Texts for `stderr` are left out.
-/

def EPERM : Nat := 1
def E2BIG : Nat := 7
def EINVAL : Nat := 22
def ENOSPC : Nat := 28

/-- `LOG_BUF_SIZE`. -/
def logBufSize : Nat := 65536

/-- What is acquired: the temporary log buffer of the `k`-th `malloc`, a descriptor of a BTF
    object, and the BTF of the kernel and of a module in memory. -/
inductive Resource where
  | logBuf (k : Nat)
  | btfFd (fd : Nat)
  | vmlinuxBtf
  | moduleBtf
  deriving DecidableEq, Repr

/-! ### The outcomes of calls -/

/-- The reply to an attempt to load the program: a descriptor, or a negative number with
    `errno`. -/
structure Reply where
  ret : Int
  errno : Nat
  deriving DecidableEq, Repr

/-- What one round of the loop over all BTF objects sees, behind `bpf_btf_get_next_id`.  Errors
    `e` stand for the return value `-(e + 1)`. -/
structure Round where
  /-- `bpf_btf_get_fd_by_id`. -/
  fd : Except Nat Nat
  /-- `bpf_btf_get_info_by_fd`: whether it is BTF of the kernel, and its name. -/
  info : Except Nat (Bool × List Char)
  /-- `btf__load_vmlinux_btf`. -/
  vmlinux : Except Nat Unit
  /-- `btf__load_module_btf` returns an object. -/
  moduleLoads : Bool
  /-- `btf__find_by_name_kind`. -/
  id : Except Nat Nat

/-- The outcomes of the calls.  The kernel answers `ENOSPC` only to log buffers smaller than
    some size. -/
structure Kernel where
  /-- The `k`-th `malloc` succeeds. -/
  malloc : Nat → Bool
  /-- The reply to the `k`-th attempt, with a log buffer of some size. -/
  load : Nat → Nat → Reply
  /-- `getrlimit` and `setrlimit`: `errno`, if they fail. -/
  getrlimit : Option Nat
  setrlimit : Option Nat
  /-- `libbpf_find_vmlinux_btf_id`. -/
  vmlinuxId : Int
  /-- The BTF objects, in the order of their ids, which increase from one round to the next;
      after the last one, `bpf_btf_get_next_id` fails. -/
  rounds : List Round
  noNext : Nat
  limit : Nat
  limit_lt : limit < 2 ^ 31
  lt_limit : ∀ k size, (load k size).ret < 0 → (load k size).errno = ENOSPC → size < limit

/-- The types of programs that make a difference. -/
inductive ProgType where
  | tracing
  | lsm
  | other
  deriving DecidableEq, Repr

/-- The arguments of a call: `log_buf_size` is 0 if the caller has no buffer. -/
structure Args where
  progType : ProgType
  progName : Option CStr
  funcInfo : Bool
  logLevel : Nat
  logBufSize : Nat
  allowRlimit : Bool

/-! ### `find_btf_id` -/

/-- The result of `find_btf_id`: the return value, the descriptor (`none` for `-1`) and what it
    did. -/
structure Lookup where
  ret : Int
  fd : Option Nat
  trace : List (Use Resource)
  deriving DecidableEq, Repr

/-- `err_out`. -/
def errOut (e fd : Nat) (frees : List Resource) : Lookup :=
  ⟨.negSucc e, none, (frees ++ [Resource.btfFd fd]).map .release⟩

/-- The loop of `find_btf_id`. -/
def findInModules (noNext : Nat) (moduleName : List Char) : List Round → Res Lookup
  | [] => .ok ⟨.negSucc noNext, none, []⟩
  | r :: rs =>
    match r.fd with
    | .error e => .ok ⟨.negSucc e, none, []⟩
    | .ok fd => do
      let next ← match r.info with
        | .error e => pure (errOut e fd [])
        | .ok (kernelBtf, name) =>
          if !kernelBtf || name ≠ moduleName then do
            let l ← findInModules noNext moduleName rs
            pure { l with trace := .release (.btfFd fd) :: l.trace }
          else match r.vmlinux with
            | .error e => pure (errOut e fd [])
            | .ok () => do
              -- the check behind `btf__load_module_btf` looks at `vmlinux_btf` once more
              if !r.moduleLoads then throw .absentValue
              let l := match r.id with
                | .error e => errOut e fd [.moduleBtf, .vmlinuxBtf]
                | .ok id => ⟨id, some fd, [.release .moduleBtf, .release .vmlinuxBtf]⟩
              pure { l with trace := .acquire .vmlinuxBtf :: .acquire .moduleBtf :: l.trace }
      return { next with trace := .acquire (.btfFd fd) :: next.trace }

/-- `find_btf_id`. -/
def findBtfId (K : Kernel) (moduleName : List Char) : Res Lookup :=
  if moduleName = [] ∨ moduleName = "vmlinux".toList then .ok ⟨K.vmlinuxId, none, []⟩
  else findInModules K.noNext moduleName K.rounds

/-! ### The name of the program -/

/-- The module in the name of a program, behind the first `skip` characters:
    `strncpy(mod_name, prog_name + skip, mod_len)` with the length up to the next `__`.  Gives
    the offset of the rest, and the module. -/
def cutModule (skip : Nat) (name : List Char) : Res (Nat × List Char) :=
  match find "__".toList (name.drop skip) with
  | none => .error .absentValue
  | some n =>
    let modLen := toInt32 n
    if modLen < 0 ∨ 64 < modLen then .error .outOfBounds
    else .ok (skip + modLen.toNat + 2, (name.drop skip).take modLen.toNat)

/-- `name_offset` and `mod_name`. -/
def cutName (name : List Char) : Res (Nat × List Char) :=
  if "kprobe__".toList <+: name then .ok (8, [])
  else if "kretprobe__".toList <+: name then .ok (11, [])
  else if "tracepoint__".toList <+: name then .ok (12, [])
  else if "raw_tracepoint__".toList <+: name then .ok (16, [])
  else if "kfunc__".toList <+: name then cutModule 7 name
  else if "kmod_ret__".toList <+: name then .ok (10, [])
  else if "kretfunc__".toList <+: name then cutModule 10 name
  else if "lsm__".toList <+: name then .ok (5, [])
  else if "bpf_iter__".toList <+: name then .ok (10, [])
  else .ok (0, [])

/-- `memcpy(new_prog_name, prog_name + name_offset, min(name_len - name_offset, 15))`, into 16
    bytes. -/
def copyName (name : List Char) (nameOffset : Nat) : Res (List Char) :=
  let n := min ((name.length - nameOffset : Int) % 2 ^ 32).toNat 15
  if 16 < n then .error .outOfBounds else .ok ((name.drop nameOffset).take n)

/-! ### `bcc_prog_load_xattr` -/

/-- The variables of the function. -/
structure Vars where
  /-- How often `malloc` and the kernel were called. -/
  mallocs : Nat
  loads : Nat
  ret : Int
  errno : Nat
  /-- `opts->log_level`, and the size of the log buffer for the next attempt. -/
  logLevel : Nat
  logSize : Nat
  /-- `tmp_log_buf` and `fd`; `none` for `NULL` and `-1`. -/
  tmpLogBuf : Option Nat
  fd : Option Nat
  trace : List (Use Resource)

namespace Vars

variable (K : Kernel) (s : Vars)

/-- `tmp_log_buf = malloc(…)`. -/
def alloc : Vars :=
  if K.malloc s.mallocs then
    { s with
      mallocs := s.mallocs + 1
      tmpLogBuf := some s.mallocs
      trace := s.trace ++ [.acquire (.logBuf s.mallocs)] }
  else { s with mallocs := s.mallocs + 1, tmpLogBuf := none }

/-- `if (tmp_log_buf) free(tmp_log_buf)`. -/
def freeTmp : Vars :=
  { s with trace := s.trace ++ s.tmpLogBuf.toList.map fun k => .release (.logBuf k) }

/-- `ret = libbpf_bpf_prog_load(…)`. -/
def load : Vars :=
  let r := K.load s.loads s.logSize
  { s with
    loads := s.loads + 1
    ret := r.ret
    errno := if r.ret < 0 then r.errno else s.errno }

/-- `ret < 0 && errno == e`. -/
def Failed (e : Nat) : Prop := s.ret < 0 ∧ s.errno = e

instance (e : Nat) : Decidable (s.Failed e) := inferInstanceAs (Decidable (_ ∧ _))

/-- `getrlimit`, `setrlimit`, and another attempt if both succeed. -/
def raiseLimit : Vars :=
  match K.getrlimit, K.setrlimit with
  | some e, _ => { s with errno := e }
  | none, some e => { s with errno := e }
  | none, none => s.load K

/-- `return_result`. -/
def returnResult : Int × List (Use Resource) :=
  (s.ret, ({ s with trace := s.trace ++ s.fd.toList.map fun fd => .release (.btfFd fd) }
    : Vars).freeTmp.trace)

end Vars

variable (K : Kernel) (c : Args) (s : Vars)

/-- The log buffer at the start of the function. -/
def setupLog : Vars :=
  let s : Vars := ⟨0, 0, 0, 0, c.logLevel, 0, none, none, []⟩
  if 0 < c.logLevel then
    if 0 < c.logBufSize then { s with logSize := c.logBufSize }
    else
      let s := s.alloc K
      if s.tmpLogBuf = none then { s with logLevel := 0 } else { s with logSize := logBufSize }
  else s

/-- The loop that doubles the temporary log buffer. -/
def growLog (K : Kernel) : Nat → Nat → Vars → Res Vars
  | 0, _, _ => .error .outOfFuel
  | fuel + 1, size, s =>
    let s := s.alloc K
    if s.tmpLogBuf = none then .ok s
    else
      let s := ({ s with logSize := size } : Vars).load K
      if s.Failed ENOSPC then
        growLog K fuel (size * 2 % 2 ^ 32) { s.freeTmp with tmpLogBuf := none }
      else .ok s

/-- `name_len != 0`. -/
def Args.named : Bool :=
  match c.progName with
  | none => false
  | some name => name.length % 2 ^ 32 ≠ 0

/-- The first three attempts. -/
def attempts : Vars :=
  let s := s.load K
  -- `func_info` may not be supported
  let s := if c.funcInfo = true ∧ s.Failed EINVAL then s.load K else s
  -- names may not be supported
  if c.named = true ∧ (s.Failed E2BIG ∨ s.Failed EINVAL) then s.load K else s

/-- The end of the function: if the load has failed, another attempt to get the log message. -/
def finishLoad : Res (Int × List (Use Resource)) :=
  if s.ret < 0 then
    if 0 < c.logBufSize then
      if s.logLevel = 0 then
        .ok (({ s with logLevel := 1, logSize := c.logBufSize } : Vars).load K).returnResult
      else .ok s.returnResult
    else do
      let s := s.freeTmp
      let s := if s.logLevel = 0 then { s with logLevel := 1 } else s
      return (← growLog K 32 logBufSize s).returnResult
  else .ok s.returnResult

/-- From the first attempt to load the program on. -/
def loadProgram : Res (Int × List (Use Resource)) :=
  let s := attempts K c s
  if s.Failed EPERM ∧ c.allowRlimit = false then .ok (s.ret, s.trace)
  else
    let s := if s.Failed EPERM then s.raiseLimit K else s
    if s.Failed E2BIG then .ok (-1, s.trace) else finishLoad K c s

/-- The lookup of the function that a tracing program attaches to, and what follows it. -/
def lookupAndLoad (name modName : List Char) (nameOffset : Nat)
    : Res (Int × List (Use Resource)) := do
  let l ← findBtfId K modName
  let s := { s with fd := l.fd, trace := s.trace ++ l.trace }
  if l.ret < 0 then return (l.ret, s.trace)
  let _ ← copyName name nameOffset
  loadProgram K c s

/-- `bcc_prog_load_xattr`: the return value, and what was done with resources. -/
def bccProgLoadXattr : Res (Int × List (Use Resource)) := do
  let s := setupLog K c
  match c.progName with
  | none => loadProgram K c s
  | some name =>
    if c.named then
      let (nameOffset, modName) ← cutName name.chars
      if c.progType = .tracing ∨ c.progType = .lsm then
        lookupAndLoad K c s name.chars modName nameOffset
      else
        let _ ← copyName name.chars nameOffset
        loadProgram K c s
    else loadProgram K c s

end Bcc.Load
