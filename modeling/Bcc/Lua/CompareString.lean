import Bcc.Bpf.Forward
import Bcc.Bytes.Layout

namespace Bcc.Lua

open Bpf Bytes Function List

/-!
# The Lua compiler — a string on the stack against a literal

`CMP_STR` compares chunks of 4 bytes, as many as the literal has, the last one filled up with zeros,
so the terminator is compared with the rest of a chunk, or not at all.

* `taken_iff` — a chunk is the immediate of a 64-bit operation, which extends its sign;
* `cmpStr_iff` — when the comparison is right.
-/

/-- Bytes of the stack, by their distance from `R10`. -/
abbrev Stack := Int → UInt8

variable (mem : Stack) (acc tmp : Nat) (base : Int) (b : List UInt8) (size : Nat)

/-- A load of some bytes. -/
def Stack.load (width : Nat) (off : Int) : Word :=
  BitVec.ofNat 64 (leNat ((List.range width).map fun j : Nat => mem (off + j)))

/-- `as_u32[0]`, for the chunk at `sp`. -/
def asU32 (sp : Nat) : Nat :=
  leNat ((List.range 4).map fun j => b.getD (sp + j) 0)

/-- One round of the loop, for the chunk at `4 * i`. -/
def cmpRound (i : Nat) : List Step :=
  [.ldx 4 tmp (-(base - 4 * i)), .imm .xor tmp (asU32 b (4 * i)), .reg .or acc tmp]

/-- The number of rounds: `size` is that of the type of the variable. -/
def rounds : Nat := (min b.length size + 3) / 4

/-- `CMP_STR`, without the jump. -/
def cmpStr : List Step :=
  .imm .mov acc 0 :: (List.range (rounds b size)).flatMap (cmpRound acc tmp base b)

/-- The jump for `JEQ` is taken. -/
def Taken (regs : Regs) : Prop :=
  Cond.jeq.eval (run mem.load 0 (cmpStr acc tmp base b size) regs acc) (imm32 0) = true

/-! ### Chunks -/

/-- The sign of an immediate is extended. -/
theorem ofNat_eq_imm32_iff {x c : Nat} (hx : x < 2 ^ 32) (hc : c < 2 ^ 32) :
    BitVec.ofNat 64 x = imm32 c ↔ x = c ∧ c < 2 ^ 31 := by
  rw [← BitVec.toInt_inj, imm32, BitVec.toInt_signExtend_of_le (by decide), BitVec.ofInt_natCast,
    BitVec.toInt_eq_toNat_cond, BitVec.toInt_eq_toNat_cond, BitVec.toNat_ofNat, BitVec.toNat_ofNat]
  split <;> split <;> omega

/-- The chunk at `4 * i` is found on the stack, and its last byte has no sign. -/
def Matches (i : Nat) : Prop :=
  (∀ j < 4, mem (-base + (4 * i + j : Nat)) = b.getD (4 * i + j) 0)
    ∧ (b.getD (4 * i + 3) 0).toNat < 128

variable (mem : Stack)

theorem load_eq_imm32_iff (base : Int) (b : List UInt8) (i : Nat) :
    mem.load 4 (-(base - 4 * i)) = imm32 (asU32 b (4 * i)) ↔ Matches mem base b i := by
  have hoff : ∀ j : Nat, -(base - 4 * i) + j = -base + (4 * i + j : Nat) := by
    omega
  have hlt : ∀ f : Nat → UInt8, leNat ((List.range 4).map f) < 2 ^ 32 := by
    intro f
    have h := leNat_lt ((List.range 4).map f)
    rwa [length_map, length_range] at h
  rw [Stack.load, asU32, ofNat_eq_imm32_iff (hlt _) (hlt _)]
  simp only [hoff]
  constructor
  · rintro ⟨heq, hsign⟩
    have hbytes := congrArg (le 4) heq
    have hlen : ∀ f : Nat → UInt8, le 4 (leNat ((List.range 4).map f)) = (List.range 4).map f := by
      intro f
      have h := le_leNat ((List.range 4).map f)
      rwa [length_map] at h
    rw [hlen, hlen] at hbytes
    refine ⟨fun j hj => map_inj_left.mp hbytes j (mem_range.mpr hj), ?_⟩
    simp only [range_succ, range_zero, map_cons, nil_append, cons_append, leNat] at hsign
    omega
  · rintro ⟨hbytes, hsign⟩
    refine ⟨congrArg leNat (map_congr_left fun j hj => hbytes j (mem_range.mp hj)), ?_⟩
    simp only [range_succ, range_zero, map_cons, map_nil, nil_append, cons_append, leNat]
    have h0 := (b.getD (4 * i + 0) 0).toNat_lt
    have h1 := (b.getD (4 * i + 1) 0).toNat_lt
    have h2 := (b.getD (4 * i + 2) 0).toNat_lt
    omega

variable {acc tmp : Nat}

/-- The rounds leave zero exactly if all chunks are found. -/
theorem run_rounds (hne : acc ≠ tmp) (base : Int) (b : List UInt8) (l : List Nat) (regs : Regs) :
    run mem.load 0 (l.flatMap (cmpRound acc tmp base b)) regs acc = 0
      ↔ regs acc = 0 ∧ ∀ i ∈ l, Matches mem base b i := by
  induction l generalizing regs with
  | nil => simp [run]
  | cons i l ih =>
    rw [flatMap_cons, cmpRound, cons_append, cons_append, cons_append,
      nil_append, run, run, run, ih, forall_mem_cons, ← and_assoc]
    refine and_congr_left fun _ => ?_
    rw [update_self, update_self, update_of_ne hne,
      update_of_ne hne, update_self, ← load_eq_imm32_iff]
    exact BitVec.or_eq_zero_iff.trans (and_congr_right fun _ => BitVec.xor_eq_zero_iff)

/-- **When the jump is taken**: all chunks are found. -/
theorem taken_iff (hne : acc ≠ tmp) (base : Int) (b : List UInt8) (size : Nat) (regs : Regs) :
    Taken mem acc tmp base b size regs ↔ ∀ i < rounds b size, Matches mem base b i := by
  have hzero : imm32 0 = 0 := by decide
  rw [Taken, Cond.eval, hzero, beq_iff_eq, cmpStr, run, run_rounds mem hne]
  simp [Op.eval, hzero]

/-! ### Strings -/

/-- The byte of the buffer with the given number. -/
def byteAt (mem : Stack) (base : Int) (i : Nat) : UInt8 := mem (-base + i)

/-- The string up to the first NUL in the buffer is the given one. -/
def IsString (mem : Stack) (base : Int) (b : List UInt8) : Prop :=
  (∀ i < b.length, byteAt mem base i = b.getD i 0 ∧ byteAt mem base i ≠ 0)
    ∧ byteAt mem base b.length = 0

/-- All loads of the code are from the buffer. -/
def ReadsInside (code : List Step) (base : Int) (size : Nat) : Prop :=
  ∀ (width dst : Nat) off, .ldx width dst off ∈ code → -base ≤ off ∧ off + width ≤ -base + size

theorem readsInside_cmpStr_iff (acc tmp : Nat) (base : Int) (b : List UInt8) (size : Nat) :
    ReadsInside (cmpStr acc tmp base b size) base size ↔ 4 * rounds b size ≤ size := by
  have hmem : ∀ width dst off, .ldx width dst off ∈ cmpStr acc tmp base b size
      ↔ ∃ i < rounds b size, width = 4 ∧ dst = tmp ∧ off = -(base - 4 * i) := by
    simp [cmpStr, cmpRound]
  constructor
  · intro h
    by_contra hlt
    have hlast := h 4 tmp (-(base - 4 * (rounds b size - 1 : Nat)))
      ((hmem _ _ _).mpr ⟨rounds b size - 1, by omega, rfl, rfl, rfl⟩)
    omega
  · intro h width dst off hin
    obtain ⟨i, hi, rfl, rfl, rfl⟩ := (hmem _ _ _).mp hin
    omega

/-- What is compared, byte by byte. -/
theorem taken_iff_bytes (hne : acc ≠ tmp) (base : Int) {b : List UInt8} {size : Nat}
    (hfits : b.length < size) (regs : Regs) :
    Taken mem acc tmp base b size regs
      ↔ (∀ i < b.length, byteAt mem base i = b.getD i 0)
        ∧ (∀ i < 4 * rounds b size, b.length ≤ i → byteAt mem base i = 0)
        ∧ ∀ i < b.length, i % 4 = 3 → (b.getD i 0).toNat < 128 := by
  have hrounds : b.length ≤ 4 * rounds b size := by
    rw [rounds]
    omega
  have hzero : ∀ i, b.length ≤ i → b.getD i 0 = 0 := fun i hi => by simp [hi]
  rw [taken_iff mem hne]
  constructor
  · intro h
    have hbyte : ∀ i < 4 * rounds b size, byteAt mem base i = b.getD i 0 := by
      intro i hi
      have hchunk := (h (i / 4) (by omega)).1 (i % 4) (by omega)
      rwa [Nat.div_add_mod] at hchunk
    refine ⟨fun i hi => hbyte i (by omega),
      fun i hi hle => (hbyte i hi).trans (hzero i hle), fun i hi hmod => ?_⟩
    have hsign := (h (i / 4) (by omega)).2
    rwa [show 4 * (i / 4) + 3 = i by omega] at hsign
  · rintro ⟨hbytes, hrest, hsign⟩ i hi
    constructor
    · intro j hj
      by_cases hlt : 4 * i + j < b.length
      · exact hbytes _ hlt
      · exact (hrest _ (by omega) (by omega)).trans (hzero _ (by omega)).symm
    · by_cases hlt : 4 * i + 3 < b.length
      · exact hsign _ hlt (by omega)
      · rw [hzero _ (by omega)]
        decide

/-- **Strings.**  For a literal that fits into the buffer with its terminator, the jump is taken
    exactly if the string is the literal, and nothing outside the buffer is read, exactly if the
    buffer has room for whole chunks and, should it begin with the literal: the terminator is there
    if and only if all bytes up to the end of the last chunk are zero and no chunk of the literal
    ends with a byte from 128 on. -/
theorem cmpStr_iff (mem : Stack) {acc tmp : Nat} (hne : acc ≠ tmp) (base : Int) {b : List UInt8}
    {size : Nat} (hnul : ∀ i < b.length, b.getD i 0 ≠ 0) (hfits : b.length < size) (regs : Regs) :
    ((Taken mem acc tmp base b size regs ↔ IsString mem base b)
        ∧ ReadsInside (cmpStr acc tmp base b size) base size)
      ↔ ((∀ i < b.length, byteAt mem base i = b.getD i 0) →
          (byteAt mem base b.length = 0
            ↔ (∀ i < 4 * ((b.length + 3) / 4), b.length ≤ i → byteAt mem base i = 0)
              ∧ ∀ i < b.length, i % 4 = 3 → (b.getD i 0).toNat < 128))
        ∧ 4 * ((b.length + 3) / 4) ≤ size := by
  have hrounds : rounds b size = (b.length + 3) / 4 := by rw [rounds, min_eq_left hfits.le]
  have hstring : IsString mem base b
      ↔ (∀ i < b.length, byteAt mem base i = b.getD i 0) ∧ byteAt mem base b.length = 0 := by
    refine and_congr_left fun _ => forall₂_congr fun i hi => ?_
    exact ⟨And.left, fun h => ⟨h, h ▸ hnul i hi⟩⟩
  rw [taken_iff_bytes mem hne base hfits, readsInside_cmpStr_iff, hrounds]
  tauto

/-- The literal `abc` against itself, in a buffer of 8 bytes. -/
theorem cmpStr_abc :
    Taken (fun off => [97, 98, 99].getD (off + 8).toNat 0) 6 7 8 [97, 98, 99] 8 (fun _ => 0)
      ↔ IsString (fun off => [97, 98, 99].getD (off + 8).toNat 0) 8 [97, 98, 99] :=
  ((cmpStr_iff _ (by decide) 8 (by decide) (by decide) _).mpr (by decide)).1

/-- The literal `abcd` is found in `abcde`. -/
theorem cmpStr_longer :
    Taken (fun off => [97, 98, 99, 100, 101].getD (off + 8).toNat 0) 6 7 8 [97, 98, 99, 100] 8
        (fun _ => 0)
      ∧ ¬ IsString (fun off => [97, 98, 99, 100, 101].getD (off + 8).toNat 0) 8
        [97, 98, 99, 100] := by
  refine ⟨(taken_iff_bytes _ (by decide) 8 (by decide) _).mpr (by decide), ?_⟩
  rintro ⟨-, hterm⟩
  exact absurd hterm (by decide)

end Bcc.Lua
