import Bcc.Text.Outcome
import Mathlib.Logic.Function.Basic

namespace Bcc.Table

open CText Function List

/-!
# Tables — `_items_lookup_and_optionally_delete_batch`

The generator asks the kernel for batches of entries until it has them all.

* `round` — a call passes three cells of 32 bits: the cursor it goes on from, the cursor the kernel
  hands out, and the count, which is the room before the call and the number of entries after it.
-/

variable {σ K V : Type}

/-- The command of a call. -/
inductive Cmd where
  | lookupBatch
  | lookupAndDeleteBatch
  deriving DecidableEq, Repr

/-- The result of a call: zero, or -1 and an error number. -/
inductive Status where
  | success
  | enoent
  | failed (errno : Nat)
  deriving DecidableEq, Repr

/-- The answer of the kernel: the entries it copies to the arrays, the cursor it copies to
    `out_batch`, if it does, and the result. -/
structure Answer (K V : Type) where
  run : List (K × V)
  cursor : Option UInt32
  status : Status
  deriving DecidableEq, Repr

/-- A kernel: from the command, its state, the cursor, if there is one, and the count. -/
abbrev Kernel (σ K V : Type) := Cmd → σ → Option UInt32 → UInt32 → Answer K V × σ

/-- A `ct.c_uint32`. -/
abbrev Cell := Nat

/-- The values of the cells. -/
abbrev Cells := Cell → UInt32

/-- The kernel copies a cursor to a cell, or does not. -/
def handOut (cells : Cells) (outBatch : Cell) : Option UInt32 → Cells
  | some c => update cells outBatch c
  | none => cells

/-- `bpf_lookup_batch` and `bpf_lookup_and_delete_batch`: the system call reads the cursor and
    writes the new one, and the count is stored after it. -/
def bpfMapBatchCommon (kernel : Kernel σ K V) (cmd : Cmd) (s : σ) (cells : Cells)
    (inBatch : Option Cell) (outBatch count : Cell) : Answer K V × σ × Cells :=
  let (a, s') := kernel cmd s (inBatch.map cells) (cells count)
  let cells := handOut cells outBatch a.cursor
  (a, s', update cells count (UInt32.ofNat a.run.length))

/-- Elements are copied into an array from a position on. -/
def copyAt {α : Type} (array : List α) (pos : Nat) (xs : List α) : Res (List α) :=
  if pos + xs.length ≤ array.length then .ok (array.take pos ++ xs ++ array.drop (pos + xs.length))
  else .error .outOfBounds

/-- What the loop changes: the state of the kernel, the cells, `ct_keys`, `ct_values`, `total`. -/
structure Loop (σ K V : Type) where
  kernel : σ
  cells : Cells
  keys : List K
  values : List V
  total : Nat

/-- How a round ends. -/
inductive Next (σ K V : Type) where
  | again (st : Loop σ K V)
  | leave (st : Loop σ K V)
  | raise (cmd : Cmd) (errno : Nat)

/-- The checks after a call that returned `cnt` entries. -/
def checks (cmd : Cmd) (bufSize cnt : Nat) (st : Loop σ K V) : Status → Next σ K V
  | .failed errno => .raise cmd errno
  | .enoent => .leave st
  | .success =>
    -- The arrays are full, or there was no progress.
    if st.total = bufSize then .leave st
    else if cnt = 0 then .leave st
    else .again st

section Generator

variable (kernel : Kernel σ K V) (cmd : Cmd) (ctOutBatch ctCnt : Cell) (ctBufSize : UInt32)

/-- One round of `while True`. -/
def round (st : Loop σ K V) : Res (Next σ K V) := do
  let cells := update st.cells ctCnt (UInt32.ofNat (ctBufSize.toNat - st.total))
  let inBatch := if st.total ≠ 0 then some ctOutBatch else none
  let (a, s, cells) := bpfMapBatchCommon kernel cmd st.kernel cells inBatch ctOutBatch ctCnt
  let keys ← copyAt st.keys st.total (a.run.map Prod.fst)
  let values ← copyAt st.values st.total (a.run.map Prod.snd)
  let cnt := (cells ctCnt).toNat
  return checks cmd ctBufSize.toNat cnt ⟨s, cells, keys, values, st.total + cnt⟩ a.status

/-- The rounds, as many as there may be. -/
def loop : Nat → Loop σ K V → Res (Except (Cmd × Nat) (Loop σ K V))
  | 0, _ => .error .outOfFuel
  | fuel + 1, st => do
    match ← round kernel cmd ctOutBatch ctCnt ctBufSize st with
    | .again st => loop fuel st
    | .leave st => return .ok st
    | .raise cmd errno => return .error (cmd, errno)

/-- The loop as the generator enters it. -/
def entered [Inhabited K] [Inhabited V] (s : σ) (size : Nat) : Loop σ K V :=
  ⟨s, fun _ => 0, List.replicate size default, List.replicate size default, 0⟩

/-- The generator with given cells for its cursor and its count: what it yields, or the command and
    the error number of the exception it raises. -/
def itemsBatchWith [Inhabited K] [Inhabited V] (s : σ) :
    Res (Except (Cmd × Nat) (List (K × V))) := do
  let r ← loop kernel cmd ctOutBatch ctCnt ctBufSize (ctBufSize.toNat + 1)
    (entered s ctBufSize.toNat)
  return r.map (fun st => (st.keys.take st.total).zip (st.values.take st.total))

end Generator

/-- The command of the generator. -/
def command (delete : Bool) : Cmd := if delete then .lookupAndDeleteBatch else .lookupBatch

/-- `_items_lookup_and_optionally_delete_batch`.  By `ct_out_batch = ct_cnt = ct.c_uint32(0)`, both
    names are bound to one cell. -/
def itemsBatch [Inhabited K] [Inhabited V] (kernel : Kernel σ K V) (delete : Bool)
    (maxEntries : UInt32) (s : σ) : Res (Except (Cmd × Nat) (List (K × V))) :=
  itemsBatchWith kernel (command delete) 0 0 maxEntries s

/-! ### A round -/

/-- The entries so far are in front of the arrays. -/
structure Collected (st : Loop σ K V) (size : Nat) (es : List (K × V)) : Prop where
  total : st.total = es.length
  keysSize : st.keys.length = size
  valuesSize : st.values.length = size
  keys : st.keys.take es.length = es.map Prod.fst
  values : st.values.take es.length = es.map Prod.snd

theorem Collected.entries {st : Loop σ K V} {size : Nat} {es : List (K × V)}
    (h : Collected st size es) : (st.keys.take st.total).zip (st.values.take st.total) = es := by
  rw [h.total, h.keys, h.values, ← unzip_fst, ← unzip_snd, zip_unzip]

/-- One of the arrays, when a run is copied behind the entries so far. -/
theorem copyAt_map {α β : Type} (f : α → β) {array : List β} {es run : List α} {size : Nat}
    (hsize : array.length = size) (hes : array.take es.length = es.map f)
    (h : es.length + run.length ≤ size) :
    ∃ array', copyAt array es.length (run.map f) = .ok array' ∧ array'.length = size
      ∧ array'.take (es ++ run).length = (es ++ run).map f := by
  refine ⟨_, if_pos (by rw [length_map]; omega), ?_, ?_⟩
  · simp only [length_append, length_take, List.length_drop, length_map]
    omega
  · rw [hes, ← map_append]
    exact take_left' (length_map f)

section Round

variable {kernel : Kernel σ K V} {cmd : Cmd} {ctOutBatch ctCnt : Cell} {size : UInt32}

/-- The cursor that a round passes. -/
def cursor (ctOutBatch ctCnt : Cell) (size : UInt32) (st : Loop σ K V) : Option UInt32 :=
  if st.total = 0 then none
  else if ctOutBatch = ctCnt then some (UInt32.ofNat (size.toNat - st.total))
  else some (st.cells ctOutBatch)

theorem map_update_cells (st : Loop σ K V) :
    (if st.total ≠ 0 then some ctOutBatch else none).map
        (update st.cells ctCnt (UInt32.ofNat (size.toNat - st.total)))
      = cursor ctOutBatch ctCnt size st := by
  unfold cursor
  by_cases htotal : st.total = 0
  · simp [htotal]
  · by_cases hcell : ctOutBatch = ctCnt
    · simp [htotal, hcell]
    · simp [htotal, hcell]

/-- **A round**, when the answer fits into the arrays. -/
theorem round_eq {st : Loop σ K V} {es : List (K × V)} (hst : Collected st size.toNat es)
    {a : Answer K V} {s : σ}
    (hk : kernel cmd st.kernel (cursor ctOutBatch ctCnt size st)
      (UInt32.ofNat (size.toNat - es.length)) = (a, s))
    (hroom : es.length + a.run.length ≤ size.toNat) :
    ∃ st', Collected st' size.toNat (es ++ a.run) ∧ st'.kernel = s
      ∧ (∀ c, a.cursor = some c → ctOutBatch ≠ ctCnt → st'.cells ctOutBatch = c)
      ∧ round kernel cmd ctOutBatch ctCnt size st
        = .ok (checks cmd size.toNat a.run.length st' a.status) := by
  obtain ⟨keys, hkeys, hkeysSize, hkeysTake⟩ := copyAt_map Prod.fst hst.keysSize hst.keys hroom
  obtain ⟨values, hvalues, hvaluesSize, hvaluesTake⟩ :=
    copyAt_map Prod.snd hst.valuesSize hst.values hroom
  have hcount : (UInt32.ofNat a.run.length).toNat = a.run.length :=
    UInt32.toNat_ofNat_of_lt' (Nat.lt_of_le_of_lt (by omega) size.toNat_lt)
  rw [← hst.total] at hkeys hvalues hk
  let cells := update st.cells ctCnt (UInt32.ofNat (size.toNat - st.total))
  let cells' := update (handOut cells ctOutBatch a.cursor) ctCnt
    (UInt32.ofNat a.run.length)
  refine ⟨⟨s, cells', keys, values, st.total + a.run.length⟩,
    ⟨by rw [hst.total, length_append], hkeysSize, hvaluesSize, hkeysTake, hvaluesTake⟩, rfl,
    ?_, ?_⟩
  · intro c hc hcell
    simp [cells', hc, handOut, update_of_ne hcell]
  · simp only [round, bpfMapBatchCommon, map_update_cells, update_self, hk, hkeys, hvalues,
      hcount]
    rfl

end Round

end Bcc.Table
