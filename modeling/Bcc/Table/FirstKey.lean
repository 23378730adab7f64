import Bcc.Order.Cursor

namespace Bcc.Table

open Cursor

/-!
# Tables — the first key on old kernels

Before 4.12 a kernel does not take a null pointer for the key of `BPF_MAP_GET_NEXT_KEY`.

* `bpfGetFirstKey` — looks for a key that is not in the map and asks for the one behind it.  The key
  it looks up is made of one byte over and over, the key it passes on is read from the array that
  this byte is in;
* `bpfGetFirstKey_iff` — when it works.
-/

/-- The keys of a map in the order of the kernel. -/
structure MapKeys where
  keySize : Nat
  keys : List (List UInt8)
  nodup : keys.Nodup
  sized : ∀ k ∈ keys, k.length = keySize

inductive Errno where
  | efault
  | enoent
  deriving DecidableEq, Repr

/-- What the kernel answers for a map: the key behind another, and a lookup with an invalid
    pointer for the value. -/
structure KeyCalls where
  getNextKey : Option (List UInt8) → Except Errno (List UInt8)
  lookupElem : List UInt8 → Except Errno Unit

/-- A kernel that takes no null pointer: it returns the first key if the given one is absent. -/
def oldKernel (m : MapKeys) : KeyCalls where
  getNextKey
    | none => .error .efault
    | some key =>
      match next m.keys key with
      | some k => .ok k
      | none => .error .enoent
  lookupElem key := .error (if key ∈ m.keys then .efault else .enoent)

/-! ### The code -/

/-- `try_values`. -/
def tryValues : List UInt8 := [0, 0xff, 0x55]

/-- `size` bytes from `&try_values[i]` on, with the memory behind the array. -/
def bytesFrom (beyond : Nat → UInt8) (i size : Nat) : List UInt8 :=
  (List.range size).map fun j => tryValues.getD (i + j) (beyond (i + j - 3))

/-- The loop of `bpf_get_first_key`, from an index of `try_values` on. -/
def tryLoop (kernel : KeyCalls) (beyond : Nat → UInt8) (keySize : Nat) :
    List Nat → Option (List UInt8)
  | [] => none
  | i :: is =>
    match kernel.lookupElem (List.replicate keySize (tryValues.getD i 0)) with
    | .ok () => none
    | .error .enoent => (kernel.getNextKey (some (bytesFrom beyond i keySize))).toOption
    | .error .efault => tryLoop kernel beyond keySize is

/-- `bpf_get_first_key`: the key, if it succeeds. -/
def bpfGetFirstKey (kernel : KeyCalls) (beyond : Nat → UInt8) (keySize : Nat) :
    Option (List UInt8) :=
  match kernel.getNextKey none with
  | .error .efault => tryLoop kernel beyond keySize [0, 1, 2]
  | .error .enoent => none
  | .ok key => some key

/-! ### Old kernels -/

section OldKernel

variable {m : MapKeys} {beyond : Nat → UInt8}

/-- The key made of one byte of `try_values` is not in the map. -/
def Absent (m : MapKeys) (i : Nat) : Prop :=
  List.replicate m.keySize (tryValues.getD i 0) ∉ m.keys

instance (m : MapKeys) (i : Nat) : Decidable (Absent m i) := inferInstanceAs (Decidable (¬ _))

theorem getNextKey_oldKernel (key : List UInt8) :
    ((oldKernel m).getNextKey (some key)).toOption = next m.keys key := by
  simp only [oldKernel]
  cases next m.keys key <;> rfl

/-- The loop stops at the first key that is absent. -/
theorem tryLoop_oldKernel (is : List Nat) :
    tryLoop (oldKernel m) beyond m.keySize is
      = (is.find? fun i => Absent m i).bind
        fun i => next m.keys (bytesFrom beyond i m.keySize) := by
  induction is with
  | nil => rfl
  | cons i is ih =>
    rw [tryLoop]
    by_cases habsent : Absent m i
    · have hlookup : (oldKernel m).lookupElem (List.replicate m.keySize (tryValues.getD i 0))
          = .error .enoent := congrArg Except.error (if_neg habsent)
      rw [hlookup, List.find?_cons_of_pos (by simpa using habsent)]
      exact getNextKey_oldKernel _
    · have hlookup : (oldKernel m).lookupElem (List.replicate m.keySize (tryValues.getD i 0))
          = .error .efault := congrArg Except.error (if_pos (not_not.mp habsent))
      rw [hlookup, List.find?_cons_of_neg (by simpa using habsent)]
      exact ih

/-- **The first key.**  If one of the three keys is absent from the map, the code returns the first
    key of the map, or fails if there is none, exactly if the key it passes to the kernel, read
    from `try_values` where the first absent key has its byte, is absent too. -/
theorem bpfGetFirstKey_iff (habsent : ∃ i < 3, Absent m i) :
    bpfGetFirstKey (oldKernel m) beyond m.keySize = m.keys.head?
      ↔ ∀ i ∈ [0, 1, 2].find? (fun i => Absent m i), bytesFrom beyond i m.keySize ∉ m.keys := by
  have hloop : bpfGetFirstKey (oldKernel m) beyond m.keySize
      = tryLoop (oldKernel m) beyond m.keySize [0, 1, 2] := rfl
  obtain ⟨i, hi⟩ : ∃ i, [0, 1, 2].find? (fun i => Absent m i) = some i := by
    rw [← Option.isSome_iff_exists, List.find?_isSome]
    obtain ⟨i, hlt, hi⟩ := habsent
    exact ⟨i, by simp; omega, by simpa using hi⟩
  rw [hloop, tryLoop_oldKernel, hi]
  simp only [Option.mem_def, Option.some.injEq, forall_eq']
  constructor
  · intro hnext hmem
    exact next_ne_head m.nodup hmem hnext
  · intro hnot
    exact next_of_not_mem hnot

end OldKernel

/-- A map with two keys of two bytes. -/
def twoKeys : MapKeys where
  keySize := 2
  keys := [[1, 1], [0, 0xff]]
  nodup := by decide
  sized := by decide

/-- A map with keys of one byte. -/
def byteKeys : MapKeys where
  keySize := 1
  keys := [[0], [7]]
  nodup := by decide
  sized := by decide

theorem bpfGetFirstKey_byteKeys :
    (∃ i < 3, Absent byteKeys i)
      ∧ bpfGetFirstKey (oldKernel byteKeys) (fun _ => 0) byteKeys.keySize = some [0] := by
  have habsent : ∃ i < 3, Absent byteKeys i := ⟨1, by decide, by decide⟩
  exact ⟨habsent, (bpfGetFirstKey_iff habsent).mpr (by decide)⟩

/-- The key of zeros is absent, but the key that is passed on is the last one of the map. -/
theorem bpfGetFirstKey_fails : Absent twoKeys 0 ∧ twoKeys.keys.head? = some [1, 1]
    ∧ bpfGetFirstKey (oldKernel twoKeys) (fun _ => 0) twoKeys.keySize = none := by
  decide

end Bcc.Table
