import Bcc.Bytes.Fill
import Bcc.Order.Cursor

namespace Bcc.Tools

open Bytes CText Cursor

/-!
# Tools — `dump_hash`

* `dumpHash` — copies a hash map into an array of keys and one of values, at offsets of 32 bits;
* `batchLoop_eq` — it asks the kernel for batches of entries;
* `keysLoop_eq`, `valuesLoop_eq` — if the kernel does not know such calls, it goes through the keys
  and looks up their values, in this call and in all later ones.
-/

/-- A key and its value. -/
abbrev Entry := List UInt8 × List UInt8

inductive Errno where
  | enoent
  | einval
  | efault
  deriving DecidableEq, Repr

/-- The answer to a call for a batch: the error, if there is one, the entries that are copied, and
    the place to go on from. -/
structure BatchAnswer where
  err : Option Errno
  entries : List Entry
  out : Nat

/-- The calls.  A batch is asked for with the place to begin at and the room there is. -/
structure Kernel where
  getNextKey : List UInt8 → Except Errno (List UInt8)
  lookupElem : List UInt8 → Except Errno (List UInt8)
  lookupBatch : Nat → Nat → BatchAnswer

/-- `keys`, `values` and `*count`. -/
structure Dump where
  keys : Nat → UInt8
  values : Nat → UInt8
  count : Nat

/-- The entries that the arrays have. -/
def Dump.entries (d : Dump) (keySize valueSize : Nat) : List Entry :=
  (cells d.keys keySize d.count).zip (cells d.values valueSize d.count)

/-- What `dump_hash` returns, with `errno` if it is -1, and what it leaves behind. -/
structure Outcome where
  errno : Option Errno
  dump : Dump
  batchMapOps : Bool

/-! ### The code -/

section Code

variable (kernel : Kernel) (keySize valueSize : Nat)

/-- The first loop of `dump_hash_iter`, for at most so many keys: the error, `n` and the keys. -/
def keysLoop : Nat → List UInt8 → Nat → (Nat → UInt8) → Option Errno × Nat × (Nat → UInt8)
  | 0, _, n, keys => (none, n, keys)
  | room + 1, key, n, keys =>
    match kernel.getNextKey key with
    | .error .enoent => (none, n, keys)
    | .error e => (some e, n, keys)
    | .ok nextKey => keysLoop room nextKey (n + 1) (store keys (keySize * n % 2 ^ 32) nextKey)

/-- The second loop of `dump_hash_iter`, for the number of values that are left. -/
def valuesLoop (keys : Nat → UInt8) : Nat → Nat → (Nat → UInt8) → Option Errno × (Nat → UInt8)
  | 0, _, values => (none, values)
  | left + 1, i, values =>
    match kernel.lookupElem (flat keys (keySize * i % 2 ^ 32) keySize) with
    | .error e => (some e, values)
    | .ok value => valuesLoop keys left (i + 1) (store values (valueSize * i % 2 ^ 32) value)

/-- `dump_hash_iter`. -/
def dumpHashIter (invalidKey : List UInt8) (d : Dump) : Option Errno × Dump :=
  match keysLoop kernel keySize d.count invalidKey 0 d.keys with
  | (some e, _, keys) => (some e, { d with keys := keys })
  | (none, n, keys) =>
    match valuesLoop kernel keySize valueSize keys n 0 d.values with
    | (some e, values) => (some e, { d with keys := keys, values := values })
    | (none, values) => (none, ⟨keys, values, n⟩)

/-- The kernel copies entries behind the first `n` ones. -/
def Dump.copy (d : Dump) (n : Nat) (entries : List Entry) : Dump :=
  { d with
    keys := store d.keys (n * keySize % 2 ^ 32) (entries.map Prod.fst).flatten
    values := store d.values (n * valueSize % 2 ^ 32) (entries.map Prod.snd).flatten }

/-- The loop of `dump_hash_batch`, with `n_read` and `in`. -/
def batchLoop : Nat → Nat → Nat → Dump → Res (Option Errno × Dump)
  | 0, _, _, _ => .error .outOfFuel
  | fuel + 1, nRead, place, d =>
    if nRead < d.count then
      let answer := kernel.lookupBatch place (d.count - nRead)
      let nRead' := nRead + answer.entries.length
      let d' := d.copy keySize valueSize nRead answer.entries
      match answer.err with
      | none => batchLoop fuel nRead' answer.out d'
      -- the loop is left, and this is not an error
      | some .enoent => .ok (none, { d' with count := nRead' })
      | some e => .ok (some e, d')
    else .ok (none, { d with count := nRead })

/-- `dump_hash_batch`. -/
def dumpHashBatch (fuel : Nat) (d : Dump) : Res (Option Errno × Dump) :=
  batchLoop kernel keySize valueSize fuel 0 0 d

/-- `dump_hash` from where batches are out of question. -/
def dumpHashWithoutBatches (invalidKey : Option (List UInt8)) (d : Dump) : Outcome :=
  match invalidKey with
  | none => ⟨some .einval, d, false⟩
  | some key =>
    let (err, d) := dumpHashIter kernel keySize valueSize key d
    ⟨err, d, false⟩

/-- `dump_hash`, with pointers to the arrays and the count that are all `valid` or not. -/
def dumpHash (fuel : Nat) (valid : Bool) (invalidKey : Option (List UInt8)) (batchMapOps : Bool)
    (d : Dump) : Res Outcome :=
  if !valid || keySize == 0 || valueSize == 0 then .ok ⟨some .einval, d, batchMapOps⟩
  else if batchMapOps then do
    let (err, d) ← dumpHashBatch kernel keySize valueSize fuel d
    if err = some .einval then
      .ok (dumpHashWithoutBatches kernel keySize valueSize invalidKey d)
    else .ok ⟨err, d, true⟩
  else .ok (dumpHashWithoutBatches kernel keySize valueSize invalidKey d)

end Code

/-! ### A map that nobody changes -/

/-- A hash map, in the order in which the kernel goes through its keys. -/
structure HashMap where
  keySize : Nat
  valueSize : Nat
  entries : List Entry
  keySize_pos : 0 < keySize
  valueSize_pos : 0 < valueSize
  nodup : (entries.map Prod.fst).Nodup
  keySized : ∀ e ∈ entries, e.1.length = keySize
  valueSized : ∀ e ∈ entries, e.2.length = valueSize

def HashMap.keys (m : HashMap) : List (List UInt8) := m.entries.map Prod.fst

/-- The kernel of the map, with some answers to calls for batches. -/
def HashMap.kernel (m : HashMap) (lookupBatch : Nat → Nat → BatchAnswer) : Kernel where
  getNextKey key :=
    match next m.keys key with
    | some k => .ok k
    | none => .error .enoent
  lookupElem key :=
    match m.entries.lookup key with
    | some v => .ok v
    | none => .error .enoent
  lookupBatch := lookupBatch

/-- The batches that are handed out from a place on for some room, the last one with `ENOENT`; no
    more are asked for if there is no room left. -/
inductive Batches (lookupBatch : Nat → Nat → BatchAnswer) : Nat → Nat → List (List Entry) → Prop
  | full {place : Nat} : Batches lookupBatch place 0 []
  | last {place room out : Nat} {es : List Entry}
      (answer : lookupBatch place room = ⟨some .enoent, es, out⟩) :
      Batches lookupBatch place room [es]
  | more {place room out : Nat} {es : List Entry} {bs : List (List Entry)}
      (answer : lookupBatch place room = ⟨none, es, out⟩)
      (rest : Batches lookupBatch out (room - es.length) bs) :
      Batches lookupBatch place room (es :: bs)

/-- The parts in which `dump_hash` copies the entries of a map, with and without `batch_map_ops`:
    the batches of the kernel, or the single entries. -/
inductive Parts (m : HashMap) (lookupBatch : Nat → Nat → BatchAnswer) (count : Nat) :
    Bool → List (List Entry) → Prop
  | batches {bs : List (List Entry)} (answers : Batches lookupBatch 0 count bs)
      (partition : bs.flatten.Perm m.entries) : Parts m lookupBatch count true bs
  | unsupported {out : Nat} (answer : lookupBatch 0 count = ⟨some .einval, [], out⟩) :
      Parts m lookupBatch count true (m.entries.map ([·]))
  | remembered : Parts m lookupBatch count false (m.entries.map ([·]))

/-! ### Copying part by part -/

section Parts

variable {m : HashMap} {lookupBatch : Nat → Nat → BatchAnswer} {keySize valueSize n : Nat}
  {parts : List (List Entry)}

/-- The parts of one of the two arrays. -/
def column (f : Entry → List UInt8) (parts : List (List Entry)) : List (List (List UInt8)) :=
  parts.map (List.map f)

theorem flatten_column (f : Entry → List UInt8) (parts : List (List Entry)) :
    (column f parts).flatten = parts.flatten.map f := List.map_flatten.symm

theorem map_length_column (f : Entry → List UInt8) (parts : List (List Entry)) :
    (column f parts).map List.length = parts.map List.length := by
  simp [column]

theorem flatten_singles (es : List Entry) : (es.map ([·])).flatten = es := by
  induction es with
  | nil => rfl
  | cons e es ih => rw [List.map_cons, List.flatten_cons, ih, List.singleton_append]

theorem map_length_singles (es : List Entry) :
    (es.map ([·])).map List.length = List.replicate es.length 1 := by
  rw [List.map_map]
  exact List.map_const'

/-- The arrays after the parts behind the first `n` entries. -/
def Dump.fill (d : Dump) (keySize valueSize n : Nat) (parts : List (List Entry)) : Dump where
  keys := Bytes.fill (2 ^ 32) keySize d.keys n (column Prod.fst parts)
  values := Bytes.fill (2 ^ 32) valueSize d.values n (column Prod.snd parts)
  count := n + parts.flatten.length

theorem Dump.fill_cons (d : Dump) (es : List Entry) :
    d.fill keySize valueSize n (es :: parts)
      = (d.copy keySize valueSize n es).fill keySize valueSize (n + es.length) parts := by
  simp [Dump.fill, Dump.copy, column, Bytes.fill, Nat.mul_comm, Nat.add_assoc]

theorem Dump.fill_of_flatten_eq_nil (d : Dump) (h : parts.flatten = []) :
    d.fill keySize valueSize n parts = { d with count := n } := by
  have hcolumn : ∀ f, (column f parts).flatten = [] := fun f => by
    rw [flatten_column, h, List.map_nil]
  simp [Dump.fill, Bytes.fill_of_flatten_eq_nil (hcolumn _), h]

/-! ### Batches -/

/-- The loop of `dump_hash_batch` copies the batches. -/
theorem batchLoop_eq {place room nRead fuel : Nat} {bs : List (List Entry)} {d : Dump}
    (h : Batches lookupBatch place room bs) (hroom : nRead + room = d.count)
    (hfits : bs.flatten.length ≤ room) (hfuel : bs.length < fuel) :
    batchLoop (m.kernel lookupBatch) keySize valueSize fuel nRead place d
      = .ok (none, d.fill keySize valueSize nRead bs) := by
  induction h generalizing nRead fuel d with
  | full =>
    obtain ⟨fuel, rfl⟩ := Nat.exists_eq_succ_of_ne_zero (Nat.ne_zero_of_lt hfuel)
    rw [batchLoop, if_neg (by omega), Dump.fill_of_flatten_eq_nil d rfl]
  | @last place room out es answer =>
    obtain ⟨fuel, rfl⟩ := Nat.exists_eq_succ_of_ne_zero (Nat.ne_zero_of_lt hfuel)
    rw [batchLoop]
    split_ifs with hlt
    · have hcall : (m.kernel lookupBatch).lookupBatch place (d.count - nRead)
          = ⟨some .enoent, es, out⟩ := by
        rw [show d.count - nRead = room by omega]
        exact answer
      simp only [hcall]
      rw [Dump.fill_cons, Dump.fill_of_flatten_eq_nil _ rfl]
    · have hnil := List.eq_nil_of_length_eq_zero (show [es].flatten.length = 0 by omega)
      rw [Dump.fill_of_flatten_eq_nil d hnil]
  | @more place room out es bs answer _ ih =>
    obtain ⟨fuel, rfl⟩ := Nat.exists_eq_succ_of_ne_zero (Nat.ne_zero_of_lt hfuel)
    rw [batchLoop]
    split_ifs with hlt
    · have hcall : (m.kernel lookupBatch).lookupBatch place (d.count - nRead)
          = ⟨none, es, out⟩ := by
        rw [show d.count - nRead = room by omega]
        exact answer
      rw [List.flatten_cons, List.length_append] at hfits
      simp only [hcall]
      rw [Dump.fill_cons]
      apply ih
      · show nRead + es.length + (room - es.length) = d.count
        omega
      · omega
      · exact Nat.lt_of_succ_lt_succ hfuel
    · have hnil := List.eq_nil_of_length_eq_zero (show (es :: bs).flatten.length = 0 by omega)
      rw [Dump.fill_of_flatten_eq_nil d hnil]

/-! ### One entry after the other -/

/-- The first loop of `dump_hash_iter` copies the keys. -/
theorem keysLoop_eq {pre rest : List (List UInt8)} {key : List UInt8} {room : Nat}
    {keys : Nat → UInt8} (hkeys : m.keys = pre ++ rest) (hnext : next m.keys key = rest.head?)
    (hroom : rest.length ≤ room) :
    keysLoop (m.kernel lookupBatch) keySize room key n keys
      = (none, n + rest.length, Bytes.fill (2 ^ 32) keySize keys n (rest.map ([·]))) := by
  induction rest generalizing pre key room n keys with
  | nil =>
    cases room with
    | zero => rfl
    | succ room =>
      have hcall : (m.kernel lookupBatch).getNextKey key = .error .enoent := by
        simp [HashMap.kernel, hnext]
      simp only [keysLoop, hcall]
      rfl
  | cons k rest ih =>
    obtain ⟨room, rfl⟩ := Nat.exists_eq_succ_of_ne_zero (show room ≠ 0 by
      rw [List.length_cons] at hroom
      omega)
    have hcall : (m.kernel lookupBatch).getNextKey key = .ok k := by
      simp [HashMap.kernel, hnext]
    have hfresh : k ∉ pre := by
      have hnodup : (pre ++ k :: rest).Nodup := hkeys ▸ m.nodup
      intro hmem
      exact (List.nodup_append.mp hnodup).2.2 k hmem k List.mem_cons_self rfl
    have hnext' : next m.keys k = rest.head? := by
      rw [hkeys]
      exact next_append_cons hfresh
    have hrest : m.keys = (pre ++ [k]) ++ rest := by
      rw [hkeys, List.append_assoc, List.singleton_append]
    simp only [keysLoop, hcall]
    rw [ih hrest hnext' (Nat.le_of_succ_le_succ hroom), List.map_cons, Bytes.fill,
      List.flatten_singleton, Nat.add_assoc, Nat.add_comm 1]
    rfl

/-- The second loop of `dump_hash_iter` copies the values, if the keys are where it reads them. -/
theorem valuesLoop_eq {pre rest : List Entry} {keys values : Nat → UInt8}
    (hentries : m.entries = pre ++ rest)
    (hread : ∀ i k, m.keys[i]? = some k → flat keys (m.keySize * i % 2 ^ 32) m.keySize = k) :
    valuesLoop (m.kernel lookupBatch) m.keySize valueSize keys rest.length pre.length values
      = (none, Bytes.fill (2 ^ 32) valueSize values pre.length
        (column Prod.snd (rest.map ([·])))) := by
  induction rest generalizing pre values with
  | nil => rfl
  | cons e rest ih =>
    have hkey : m.keys[pre.length]? = some e.1 := by
      rw [HashMap.keys, hentries, List.getElem?_map, List.getElem?_append_right (Nat.le_refl _),
        Nat.sub_self]
      rfl
    have hvalue : m.entries.lookup e.1 = some e.2 := by
      apply lookup_of_mem m.nodup
      rw [hentries]
      exact List.mem_append_right _ List.mem_cons_self
    have hcall : (m.kernel lookupBatch).lookupElem
        (flat keys (m.keySize * pre.length % 2 ^ 32) m.keySize) = .ok e.2 := by
      simp only [HashMap.kernel, hread _ _ hkey, hvalue]
    have hrest : m.entries = (pre ++ [e]) ++ rest := by
      rw [hentries, List.append_assoc, List.singleton_append]
    have hlength : (pre ++ [e]).length = pre.length + 1 := List.length_append
    have hih := @ih (pre ++ [e]) (store values (valueSize * pre.length % 2 ^ 32) e.2) hrest
    rw [hlength] at hih
    simp only [List.length_cons, valuesLoop, hcall, hih]
    simp [column, Bytes.fill]

end Parts

end Bcc.Tools
