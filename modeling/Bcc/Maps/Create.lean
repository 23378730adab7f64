import Bcc.Posix.Descriptors
import Mathlib.Logic.Function.Basic

namespace Bcc.Maps

open Function Posix

/-!
# Maps of a module — `create_maps`

Compiling a module gives each of its tables a negative number in place of a descriptor, its fake fd.

* `createMaps` — has the kernel create the maps, first those that are named as the inner map of
  another one;
* `bccCreateMapXattr` — the calls for one map.
-/

/-- `enum bpf_map_type` -/
inductive MapType where
  | arrayOfMaps
  | hashOfMaps
  | other (code : Nat)
  deriving DecidableEq, Repr

/-- The type of a map of maps. -/
def MapType.ofMaps : MapType → Bool
  | .arrayOfMaps => true
  | .hashOfMaps => true
  | .other _ => false

/-- A definition in `fake_fd_map_`.  Only for a map of maps an inner map is named, in the section of
    the variable. -/
structure MapDef where
  mapType : MapType
  name : String
  keySize : Int
  valueSize : Int
  maxEntries : Int
  mapFlags : Int
  pinnedId : Int
  innerMapName : String
  pinned : String
  name_ne : name ≠ ""
  inner_ofMaps : innerMapName ≠ "" → mapType.ofMaps = true

/-- `struct bcc_create_map_attr` -/
structure Attr where
  mapType : MapType
  name : String
  keySize : Int
  valueSize : Int
  maxEntries : Int
  mapFlags : Int
  mapIfindex : Nat
  innerMapFd : Nat
  btf : Option (Nat × Nat × Nat)
  deriving DecidableEq

/-- A call for a map, or about the descriptor of one. -/
inductive Call where
  | create (attr : Attr)
  | getFdById (id : Int)
  | pin (fd : Nat) (path : String)
  | dup (fd : Nat)
  deriving DecidableEq

/-- The call is one for a map. -/
def Call.opens : Call → Bool
  | .create _ => true
  | .getFdById _ => true
  | .pin _ _ => false
  | .dup _ => false

/-- What a descriptor is open on: a map, with the call it was got by, or something else. -/
inductive Obj where
  | map (call : Call)
  | other
  deriving DecidableEq

def Obj.isMap : Obj → Bool
  | .map _ => true
  | .other => false

/-- The process: its descriptors, and the calls it has made. -/
structure Proc where
  fds : Fds Obj
  log : List Call

/-- Whether the kernel grants the last of the calls, as far as it is free to. -/
abbrev Kernel := List Call → Bool

/-- The descriptor is open on a map. -/
def Proc.isMap (p : Proc) (fd : Nat) : Bool :=
  p.fds.entries.any (fun e => e.1 == fd && e.2.isMap)

variable (kernel : Kernel) (p : Proc)

/-- The calls for a map so far. -/
def Proc.opened : List Call := p.log.filter Call.opens

/-- The call is made. -/
def Proc.call (c : Call) : Proc := { p with log := p.log ++ [c] }

/-- A call that opens a descriptor on a map, if it is granted.  `ensure_good_fd` moves a descriptor
    below 3 up, to the lowest number that is free from there on. -/
def Proc.openMap (kernel : Kernel) (c : Call) : Option Nat × Proc :=
  if kernel (p.log ++ [c]) then (some (p.fds.freeFrom 3), ⟨p.fds.addFrom 3 (.map c), p.log ++ [c]⟩)
  else (none, p.call c)

/-- `bcc_create_map_xattr`: a map of maps is not created unless `inner_map_fd` is a map. -/
def bccCreateMapXattr (attr : Attr) : Option Nat × Proc :=
  if attr.mapType.ofMaps && !p.isMap attr.innerMapFd then (none, p.call (.create attr))
  else p.openMap kernel (.create attr)

/-- `bpf_map_get_fd_by_id` -/
def bpfMapGetFdById (id : Int) : Option Nat × Proc :=
  p.openMap kernel (.getFdById id)

/-- `bpf_obj_pin`: whether it succeeds. -/
def bpfObjPin (fd : Nat) (path : String) : Bool × Proc :=
  (kernel (p.log ++ [.pin fd path]), p.call (.pin fd path))

/-- What all maps of a module have in common: `ifindex_`, the descriptor of its BTF, and
    `map_tids`. -/
structure Config where
  ifindex : Nat
  btfFd : Nat
  mapTids : String → Option (Nat × Nat)

/-- The attributes of the map of a definition. -/
def attrOf (cfg : Config) (d : MapDef) (innerMapFd : Nat) : Attr where
  mapType := d.mapType
  name := d.name
  keySize := d.keySize
  valueSize := d.valueSize
  maxEntries := d.maxEntries
  mapFlags := d.mapFlags
  mapIfindex := cfg.ifindex
  innerMapFd := innerMapFd
  btf := (cfg.mapTids d.name).map (fun tids => (cfg.btfFd, tids.1, tids.2))

/-- The call for the descriptor of the map of a definition: a pinned map that exists is opened. -/
def callOf (cfg : Config) (d : MapDef) (innerMapFd : Nat) : Call :=
  if d.pinnedId ≤ 0 then .create (attrOf cfg d innerMapFd) else .getFdById d.pinnedId

/-- What the passes change: the process, `map_fds` and `inner_map_fds`. -/
structure Passes where
  proc : Proc
  mapFds : Int → Option Nat
  innerMapFds : String → Option Nat

section Pass

variable (kernel : Kernel) (cfg : Config)

/-- The descriptor of the map of a definition. -/
def openDef (p : Proc) (d : MapDef) (innerMapFd : Nat) : Option Nat × Proc :=
  if d.pinnedId ≤ 0 then bccCreateMapXattr kernel p (attrOf cfg d innerMapFd)
  else bpfMapGetFdById kernel p d.pinnedId

/-- A map that is to be pinned is pinned. -/
def pinDef (p : Proc) (d : MapDef) (fd : Nat) : Bool × Proc :=
  if d.pinnedId = -1 then bpfObjPin kernel p fd d.pinned else (true, p)

/-- The second half of the loop body: `false` where the function returns -1. -/
def createMap (forInnerMap : Bool) (st : Passes) (fakeFd : Int) (d : MapDef) (innerMapFd : Nat) :
    Passes × Bool :=
  match openDef kernel cfg st.proc d innerMapFd with
  | (none, p) => ({ st with proc := p }, false)
  | (some fd, p) =>
    match pinDef kernel p d fd with
    | (false, p) => ({ st with proc := p }, false)
    | (true, p) =>
      (⟨p, update st.mapFds fakeFd (some fd),
        if forInnerMap then update st.innerMapFds d.name (some fd)
        else st.innerMapFds⟩, true)

/-- What the first half of the loop body decides. -/
inductive Choice where
  | skip
  | fail
  | take (innerMapFd : Nat) (st : Passes)

/-- The first half of the loop body. -/
def choose (forInnerMap : Bool) (innerMaps : List String) (st : Passes) (d : MapDef) : Choice :=
  if forInnerMap then
    if d.name ∉ innerMaps then .skip
    else if d.innerMapName ≠ "" then .fail
    else .take 0 st
  else
    if (st.innerMapFds d.name).isSome then .skip
    else if d.innerMapName ≠ "" then
      -- `inner_map_fds[inner_map_name]` inserts a zero if there is none.
      let innerMapFd := (st.innerMapFds d.innerMapName).getD 0
      .take innerMapFd
        { st with innerMapFds := update st.innerMapFds d.innerMapName (some innerMapFd) }
    else .take 0 st

/-- The loop of `create_maps`. -/
def createLoop (forInnerMap : Bool) (innerMaps : List String) :
    List (Int × MapDef) → Passes → Passes × Bool
  | [], st => (st, true)
  | (fakeFd, d) :: defs, st =>
    match choose forInnerMap innerMaps st d with
    | .skip => createLoop forInnerMap innerMaps defs st
    | .fail => (st, false)
    | .take innerMapFd st' =>
      match createMap kernel cfg forInnerMap st' fakeFd d innerMapFd with
      | (st'', true) => createLoop forInnerMap innerMaps defs st''
      | (st'', false) => (st'', false)

end Pass

/-- The names in `inner_maps`. -/
def innerMaps (defs : List (Int × MapDef)) : List String :=
  (defs.map (fun m => m.2.innerMapName)).filter (· ≠ "")

/-- `BPFModule::create_maps`, over `fake_fd_map_` in its order. -/
def createMaps (kernel : Kernel) (cfg : Config) (defs : List (Int × MapDef)) (forInnerMap : Bool)
    (st : Passes) : Passes × Bool :=
  createLoop kernel cfg forInnerMap (innerMaps defs) defs st

/-- The two passes of `load_maps`. -/
def createAll (kernel : Kernel) (cfg : Config) (defs : List (Int × MapDef)) (p : Proc) :
    Passes × Bool :=
  match createMaps kernel cfg defs true ⟨p, fun _ => none, fun _ => none⟩ with
  | (st, true) => createMaps kernel cfg defs false st
  | (st, false) => (st, false)

end Bcc.Maps
