import Bcc.Maps.Create

namespace Bcc.Maps

open Posix

/-!
# Table storage — `TableDesc` and `SharedTableStorage`

* `TableDesc` — owns the descriptor of its map: it closes it when it goes, and a copy has its own;
* `Storage` — the tables of all modules, under paths;
* `updateLoop_eq` — what `load_maps` does to them.
-/

/-! ### Descriptors -/

/-- `FileDesc::~FileDesc` -/
def Proc.close (p : Proc) : Option Nat → Proc
  | none => p
  | some fd => { p with fds := p.fds.close fd }

/-- `FileDesc::dup`: a descriptor that is not open has no copy. -/
def Proc.dup (kernel : Kernel) (p : Proc) : Option Nat → Option Nat × Proc
  | none => (none, p)
  | some fd =>
    match p.fds.lookup fd with
    | none => (none, p.call (.dup fd))
    | some obj =>
      if kernel (p.log ++ [.dup fd]) then
        (some p.fds.free, ⟨p.fds.add obj, p.log ++ [.dup fd]⟩)
      else (none, p.call (.dup fd))

theorem isSome_of_dup {kernel : Kernel} {p : Proc} {fd : Option Nat}
    (h : (p.dup kernel fd).1.isSome = true) : fd.isSome = true := by
  cases fd with
  | none => exact h
  | some fd => rfl

/-! ### Descriptions -/

/-- `TableDesc` -/
structure TableDesc where
  name : String
  fd : Option Nat
  fakeFd : Int
  isExtern : Bool
  loaded : fd.isSome = true → fakeFd = 0

namespace TableDesc

/-- `TableDesc::dup` -/
def dup (kernel : Kernel) (p : Proc) (d : TableDesc) : TableDesc × Proc :=
  (⟨d.name, (p.dup kernel d.fd).1, d.fakeFd, d.isExtern, fun h => d.loaded (isSome_of_dup h)⟩,
    (p.dup kernel d.fd).2)

/-- The description of an imported table. -/
def imported (d : TableDesc) : TableDesc := { d with isExtern := true }

/-- The description with the descriptor of the map that was created. -/
def setFd (d : TableDesc) (fd : Nat) : TableDesc where
  name := d.name
  fd := some fd
  fakeFd := 0
  isExtern := d.isExtern
  loaded := fun _ => rfl

end TableDesc

/-! ### The storage -/

/-- `SharedTableStorage` -/
structure Storage where
  entries : List (String × TableDesc)
  nodup : (entries.map Prod.fst).Nodup

/-- `Path` -/
def path (parts : List String) : String := parts.foldl (fun path part => path ++ ("/" ++ part)) ""

namespace Storage

/-- The descriptors that the descriptions own. -/
def held (ts : Storage) : List Nat := ts.entries.filterMap (fun e => e.2.fd)

/-- `Find` -/
def find (ts : Storage) (key : String) : Option TableDesc :=
  (ts.entries.find? (fun e => e.1 == key)).map Prod.snd

/-- A description under a path that is new. -/
def add (ts : Storage) (key : String) (d : TableDesc) (h : key ∉ ts.entries.map Prod.fst) :
    Storage where
  entries := (key, d) :: ts.entries
  nodup := List.nodup_cons.mpr ⟨h, ts.nodup⟩

/-- `Insert`: a description is gone, with its descriptor, if there is one under the path. -/
def insert (p : Proc) (ts : Storage) (key : String) (d : TableDesc) : Proc × Storage :=
  if h : key ∈ ts.entries.map Prod.fst then (p.close d.fd, ts) else (p, ts.add key d h)

/-- The path is between those that `lower_bound` and `upper_bound` give. -/
def inPrefix (key : String) (e : String × TableDesc) : Bool :=
  decide (key ≤ e.1) && decide (e.1 ≤ key ++ "\x7f")

/-- `DeletePrefix` -/
def deletePrefix (p : Proc) (ts : Storage) (key : String) : Proc × Storage :=
  ((ts.entries.filter (inPrefix key)).foldl (fun p e => p.close e.2.fd) p,
    ⟨ts.entries.filter (fun e => !inPrefix key e), ts.nodup.sublist (List.filter_sublist.map _)⟩)

/-- `load_maps`, for one description: `FileDesc::operator=` closes what it had. -/
def setFd (mapFds : Int → Option Nat) (p : Proc) (d : TableDesc) : Proc × TableDesc :=
  match mapFds d.fakeFd with
  | none => (p, d)
  | some fd => (p.close d.fd, d.setFd fd)

/-- The loop of `load_maps` over the storage. -/
def updateLoop (mapFds : Int → Option Nat) (p : Proc) :
    List (String × TableDesc) → Proc × List (String × TableDesc)
  | [] => (p, [])
  | (key, d) :: entries =>
    let (p, d) := setFd mapFds p d
    let (p, entries) := updateLoop mapFds p entries
    (p, (key, d) :: entries)

theorem keys_updateLoop (mapFds : Int → Option Nat) (p : Proc)
    (entries : List (String × TableDesc)) :
    (updateLoop mapFds p entries).2.map Prod.fst = entries.map Prod.fst := by
  induction entries generalizing p with
  | nil => rfl
  | cons e entries ih =>
    rw [List.map_cons]
    exact congrArg _ (ih _)

/-- `load_maps`: the tables get the descriptors of their maps. -/
def update (mapFds : Int → Option Nat) (p : Proc) (ts : Storage) : Proc × Storage :=
  ((updateLoop mapFds p ts.entries).1,
    ⟨(updateLoop mapFds p ts.entries).2, by
      rw [keys_updateLoop]
      exact ts.nodup⟩)

/-- No descriptor is closed: a table with a fake fd has none yet. -/
theorem updateLoop_eq {mapFds : Int → Option Nat} (h : mapFds 0 = none) (p : Proc)
    (entries : List (String × TableDesc)) :
    updateLoop mapFds p entries = (p, entries.map (fun e => (e.1, (setFd mapFds p e.2).2))) := by
  have hset : ∀ d, (setFd mapFds p d).1 = p := by
    intro d
    unfold setFd
    split
    · rfl
    · next fd hfd =>
      have hnone : d.fd = none := by
        by_contra hsome
        rw [d.loaded (Option.isSome_iff_ne_none.mpr hsome), h] at hfd
        cases hfd
      rw [hnone]
      rfl
  induction entries with
  | nil => rfl
  | cons e entries ih =>
    rw [updateLoop]
    simp [hset, ih]

end Storage

end Bcc.Maps
