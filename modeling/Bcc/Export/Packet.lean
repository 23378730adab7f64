import Bcc.Bytes.Bits

namespace Bcc.Export

open BitVec Bytes

/-!
# Packet headers — `bpf_dext_pkt` and `bpf_dins_pkt`

A read or an assignment of a member of a packet header becomes a call with the offset of the member
in bytes, its offset in the byte there in bits, and its width in bits.  They are numbers here, as
constants of the program far below the end of `u64`.

* `bpfDextPkt`, `bpfDinsPkt` — pick the smallest load of 1, 2, 4 and 8 bytes that covers the member;
* `bpfDextPkt_eq` — what is read.
-/

/-- `load_byte`, `load_half`, `load_word`: `n` bytes, converted from network order. -/
def load (n : Nat) (pkt : List UInt8) (off : Nat) : Option (BitVec 64) :=
  if off + n ≤ pkt.length then some (BitVec.ofNat 64 (beNat (slice pkt off n))) else none

/-- `load_byte`. -/
def loadByte : List UInt8 → Nat → Option (BitVec 64) := load 1

/-- `load_half`. -/
def loadHalf : List UInt8 → Nat → Option (BitVec 64) := load 2

/-- `load_word`. -/
def loadWord : List UInt8 → Nat → Option (BitVec 64) := load 4

/-- `load_dword`. -/
def loadDword (pkt : List UInt8) (off : Nat) : Option (BitVec 64) := do
  return (← loadWord pkt off) <<< 32 ||| (← loadWord pkt (off + 4))

/-- `bpf_skb_store_bytes(pkt, off, &v, n, 0)` for a variable `v`: the first `n` bytes it has in
    memory. -/
def skbStoreBytes {w : Nat} (pkt : List UInt8) (off : Nat) (v : BitVec w) (n : Nat) : List UInt8 :=
  if off + n ≤ pkt.length then patch pkt off (le n v.toNat) else pkt

/-- `bpf_htons`. -/
def bpfHtons (val : BitVec 16) : BitVec 16 :=
  (val.setWidth 32 <<< 8 ||| val.setWidth 32 >>> 8).setWidth 16

/-- `bpf_htonl`. -/
def bpfHtonl (val : BitVec 32) : BitVec 32 := bswap val

/-- `bpf_htonll`. -/
def bpfHtonll (val : BitVec 64) : BitVec 64 := bswap val

/-- `MASK`. -/
def MASK (n : Nat) : BitVec 64 := if n < 64 then (1 : BitVec 64) <<< n - 1 else -1

/-- `load_xxx(pkt, off) >> (w - (bofs + bsz)) & MASK(bsz)`, of the word `v` of `w` bits. -/
def extract (w bofs bsz : Nat) (v : BitVec 64) : BitVec 64 := v >>> (w - (bofs + bsz)) &&& MASK bsz

/-- `v &= ~(MASK(bsz) << (w - (bofs + bsz))); v |= ((val & MASK(bsz)) << (w - (bofs + bsz)));`
    on a variable `v` of `w` bits. -/
def insert {w : Nat} (bofs bsz : Nat) (val : BitVec 64) (v : BitVec w) : BitVec w :=
  let v := (v.setWidth 64 &&& ~~~ (MASK bsz <<< (w - (bofs + bsz)))).setWidth w
  (v.setWidth 64 ||| (val &&& MASK bsz) <<< (w - (bofs + bsz))).setWidth w

/-- `bpf_dext_pkt`. -/
def bpfDextPkt (pkt : List UInt8) (off bofs bsz : Nat) : Option (BitVec 64) :=
  if bofs = 0 ∧ bsz = 8 then loadByte pkt off
  else if bofs + bsz ≤ 8 then (loadByte pkt off).map (extract 8 bofs bsz)
  else if bofs = 0 ∧ bsz = 16 then loadHalf pkt off
  else if bofs + bsz ≤ 16 then (loadHalf pkt off).map (extract 16 bofs bsz)
  else if bofs = 0 ∧ bsz = 32 then loadWord pkt off
  else if bofs + bsz ≤ 32 then (loadWord pkt off).map (extract 32 bofs bsz)
  else if bofs = 0 ∧ bsz = 64 then loadDword pkt off
  else if bofs + bsz ≤ 64 then (loadDword pkt off).map (extract 64 bofs bsz)
  else some 0

/-- `bpf_dins_pkt`: the packet afterwards. -/
def bpfDinsPkt (pkt : List UInt8) (off bofs bsz : Nat) (val : BitVec 64) : Option (List UInt8) :=
  if bofs = 0 ∧ bsz = 8 then return skbStoreBytes pkt off val 1
  else if bofs + bsz ≤ 8 then do
    let v : BitVec 8 := (← loadByte pkt off).setWidth 8
    return skbStoreBytes pkt off (insert bofs bsz val v) 1
  else if bofs = 0 ∧ bsz = 16 then return skbStoreBytes pkt off (bpfHtons (val.setWidth 16)) 2
  else if bofs + bsz ≤ 16 then do
    let v : BitVec 16 := (← loadHalf pkt off).setWidth 16
    return skbStoreBytes pkt off (bpfHtons (insert bofs bsz val v)) 2
  else if bofs = 0 ∧ bsz = 32 then return skbStoreBytes pkt off (bpfHtonl (val.setWidth 32)) 4
  else if bofs + bsz ≤ 32 then do
    let v : BitVec 32 := (← loadWord pkt off).setWidth 32
    return skbStoreBytes pkt off (bpfHtonl (insert bofs bsz val v)) 4
  else if bofs = 0 ∧ bsz = 64 then return skbStoreBytes pkt off (bpfHtonll val) 8
  else if bofs + bsz ≤ 64 then do
    let v ← loadDword pkt off
    return skbStoreBytes pkt off (bpfHtonll (insert bofs bsz val v)) 8
  else some pkt

/-! ### Positions -/

/-- A position as the frontend generates it for a member of a packet header. -/
structure Position where
  off : Nat
  bofs : Nat
  bsz : Nat
  bofs_le : bofs ≤ 7
  bsz_pos : 1 ≤ bsz
  end_le : bofs + bsz ≤ 64

namespace Position

variable (f : Position)

/-- How many bytes are accessed. -/
def bytes : Nat :=
  if f.bofs + f.bsz ≤ 8 then 1
  else if f.bofs + f.bsz ≤ 16 then 2
  else if f.bofs + f.bsz ≤ 32 then 4
  else 8

/-- The first bit of the member. -/
def start : Nat := 8 * f.off + f.bofs

/-- The bytes that are accessed lie inside the packet. -/
def Inside (pkt : List UInt8) : Prop := f.off + f.bytes ≤ pkt.length

instance (pkt : List UInt8) : Decidable (f.Inside pkt) := inferInstanceAs (Decidable (_ ≤ _))

/-- **Which access is made.**  Both helpers choose between eight of them: for each number of
    bytes there is one for a member that is all of them, and one for a member that is a part.
    What holds of each of these where it is chosen, holds of the chosen one. -/
theorem access {α : Type} {P : α → Prop} {w₁ p₁ w₂ p₂ w₄ p₄ w₈ p₈ other : α}
    (hwhole₁ : f.bytes = 1 → f.bofs = 0 → f.bsz = 8 → P w₁)
    (hpart₁ : f.bytes = 1 → f.bofs + f.bsz ≤ 8 → P p₁)
    (hwhole₂ : f.bytes = 2 → f.bofs = 0 → f.bsz = 16 → P w₂)
    (hpart₂ : f.bytes = 2 → f.bofs + f.bsz ≤ 16 → P p₂)
    (hwhole₄ : f.bytes = 4 → f.bofs = 0 → f.bsz = 32 → P w₄)
    (hpart₄ : f.bytes = 4 → f.bofs + f.bsz ≤ 32 → P p₄)
    (hwhole₈ : f.bytes = 8 → f.bofs = 0 → f.bsz = 64 → P w₈)
    (hpart₈ : f.bytes = 8 → f.bofs + f.bsz ≤ 64 → P p₈) :
    P (if f.bofs = 0 ∧ f.bsz = 8 then w₁ else if f.bofs + f.bsz ≤ 8 then p₁
      else if f.bofs = 0 ∧ f.bsz = 16 then w₂ else if f.bofs + f.bsz ≤ 16 then p₂
      else if f.bofs = 0 ∧ f.bsz = 32 then w₄ else if f.bofs + f.bsz ≤ 32 then p₄
      else if f.bofs = 0 ∧ f.bsz = 64 then w₈ else if f.bofs + f.bsz ≤ 64 then p₈ else other) := by
  have hend := f.end_le
  unfold bytes at *
  split_ifs with h₁ h₂ h₃ h₄ h₅ h₆ h₇
  · exact hwhole₁ (if_pos (by omega)) h₁.1 h₁.2
  · exact hpart₁ (if_pos h₂) h₂
  · exact hwhole₂ (by rw [if_neg h₂, if_pos (by omega)]) h₃.1 h₃.2
  · exact hpart₂ (by rw [if_neg h₂, if_pos h₄]) h₄
  · exact hwhole₄ (by rw [if_neg h₂, if_neg h₄, if_pos (by omega)]) h₅.1 h₅.2
  · exact hpart₄ (by rw [if_neg h₂, if_neg h₄, if_pos h₆]) h₆
  · exact hwhole₈ (by rw [if_neg h₂, if_neg h₄, if_neg h₆]) h₇.1 h₇.2
  · exact hpart₈ (by rw [if_neg h₂, if_neg h₄, if_neg h₆]) hend

end Position

/-! ### Reading -/

section Reading

variable {n off bofs bsz : Nat} {pkt : List UInt8} {v : BitVec 64}

/-- The bits of `v` are those of the `n` bytes of the packet from `off` on. -/
def IsWord (n : Nat) (pkt : List UInt8) (off : Nat) (v : BitVec 64) : Prop :=
  ∀ i, v.getLsbD i = (decide (i < 8 * n) && bitAt pkt (8 * off + (8 * n - 1 - i)))

theorem load_isWord (hn : n ≤ 8) (h : off + n ≤ pkt.length) :
    ∃ v, load n pkt off = some v ∧ IsWord n pkt off v := by
  refine ⟨_, if_pos h, fun i => ?_⟩
  rw [getLsbD_ofNat, testBit_beNat, length_slice h]
  by_cases hi : i < 8 * n
  · rw [bitAt_slice pkt off (by omega), decide_eq_true (show i < 64 by omega), Bool.true_and]
  · simp [hi]

theorem loadDword_isWord (h : off + 8 ≤ pkt.length) :
    ∃ v, loadDword pkt off = some v ∧ IsWord 8 pkt off v := by
  obtain ⟨hi, hload, hhi⟩ := @load_isWord 4 off pkt (by decide) (by omega)
  obtain ⟨lo, hload', hlo⟩ := @load_isWord 4 (off + 4) pkt (by decide) (by omega)
  refine ⟨hi <<< 32 ||| lo, by simp [loadDword, loadWord, hload, hload'], fun i => ?_⟩
  rw [getLsbD_or, getLsbD_shiftLeft, hhi, hlo]
  by_cases h32 : i < 32
  · have hpos : 8 * (off + 4) + (8 * 4 - 1 - i) = 8 * off + (8 * 8 - 1 - i) := by omega
    simp [h32, hpos, show i < 64 by omega]
  · by_cases h64 : i < 64
    · have hpos : 8 * off + (8 * 4 - 1 - (i - 32)) = 8 * off + (8 * 8 - 1 - i) := by omega
      have hlt : i - 32 < 32 := by omega
      simp [h32, hpos, hlt]
    · simp [h32, h64]

/-- The lowest `n` bits. -/
theorem getLsbD_MASK (hn : n ≤ 64) (i : Nat) : (MASK n).getLsbD i = decide (i < n) := by
  unfold MASK
  split
  · next hlt =>
    have hpow : 2 ^ n < 2 ^ 64 := Nat.pow_lt_pow_right (by decide) hlt
    have hval : ((1 : BitVec 64) <<< n - 1).toNat = 2 ^ n - 1 := by
      have hpos : 0 < 2 ^ n := Nat.two_pow_pos n
      rw [toNat_sub, toNat_shiftLeft]
      have hone : (1 : BitVec 64).toNat = 1 := rfl
      rw [hone]
      omega
    rw [← testBit_toNat, hval, Nat.testBit_two_pow_sub_one]
  · obtain rfl : n = 64 := by omega
    have hall : (-1 : BitVec 64) = BitVec.allOnes 64 := rfl
    rw [hall, getLsbD_allOnes]

/-- A part of a word is the number in a stretch of the packet. -/
theorem extract_isWord (hn : n ≤ 8) (h : bofs + bsz ≤ 8 * n) (hv : IsWord n pkt off v) :
    extract (8 * n) bofs bsz v = BitVec.ofNat 64 (field (bitAt pkt) (8 * off + bofs) bsz) := by
  apply eq_of_getLsbD_eq
  intro i hi
  rw [extract, getLsbD_and, getLsbD_ushiftRight, hv, getLsbD_MASK (by omega),
    getLsbD_ofNat, testBit_field]
  by_cases hbit : i < bsz
  · have hpos : 8 * off + (8 * n - 1 - (8 * n - (bofs + bsz) + i))
        = 8 * off + bofs + (bsz - 1 - i) := by omega
    have hlt : 8 * n - (bofs + bsz) + i < 8 * n := by omega
    simp [hbit, hi, hpos, hlt]
  · simp [hbit]

/-- A whole word, too. -/
theorem word_isWord (hv : IsWord n pkt off v) :
    v = BitVec.ofNat 64 (field (bitAt pkt) (8 * off + 0) (8 * n)) := by
  apply eq_of_getLsbD_eq
  intro i hi
  rw [hv, getLsbD_ofNat, testBit_field]
  by_cases hbit : i < 8 * n
  · simp [hi]
  · simp [hbit]

end Reading

/-- **The value that is read.** -/
theorem bpfDextPkt_eq (f : Position) {pkt : List UInt8} (h : f.Inside pkt) :
    bpfDextPkt pkt f.off f.bofs f.bsz
      = some (BitVec.ofNat 64 (field (bitAt pkt) f.start f.bsz)) := by
  have hpart : ∀ (n : Nat) {l : Option (BitVec 64)}, n ≤ 8 → f.bofs + f.bsz ≤ 8 * n →
      (∃ v, l = some v ∧ IsWord n pkt f.off v) → l.map (extract (8 * n) f.bofs f.bsz)
        = some (BitVec.ofNat 64 (field (bitAt pkt) f.start f.bsz)) := by
    rintro n l hn hle ⟨v, rfl, hv⟩
    rw [Option.map_some, extract_isWord hn hle hv]
    rfl
  have hwhole : ∀ (n : Nat) {l : Option (BitVec 64)}, f.bofs = 0 → f.bsz = 8 * n →
      (∃ v, l = some v ∧ IsWord n pkt f.off v) →
        l = some (BitVec.ofNat 64 (field (bitAt pkt) f.start f.bsz)) := by
    rintro n l hbofs hbsz ⟨v, rfl, hv⟩
    rw [Position.start, hbofs, hbsz, ← word_isWord hv]
  have hload : ∀ {n : Nat}, f.bytes = n → n ≤ 8 →
      ∃ v, load n pkt f.off = some v ∧ IsWord n pkt f.off v :=
    fun hbytes hn => load_isWord hn (hbytes ▸ h)
  have hdword : f.bytes = 8 → ∃ v, loadDword pkt f.off = some v ∧ IsWord 8 pkt f.off v :=
    fun hbytes => loadDword_isWord (hbytes ▸ h)
  apply Position.access (P := fun r => r = _)
  · exact fun hbytes hbofs hbsz => hwhole 1 hbofs hbsz (hload hbytes (by decide))
  · exact fun hbytes hle => hpart 1 (by decide) hle (hload hbytes (by decide))
  · exact fun hbytes hbofs hbsz => hwhole 2 hbofs hbsz (hload hbytes (by decide))
  · exact fun hbytes hle => hpart 2 (by decide) hle (hload hbytes (by decide))
  · exact fun hbytes hbofs hbsz => hwhole 4 hbofs hbsz (hload hbytes (by decide))
  · exact fun hbytes hle => hpart 4 (by decide) hle (hload hbytes (by decide))
  · exact fun hbytes hbofs hbsz => hwhole 8 hbofs hbsz (hdword hbytes)
  · exact fun hbytes hle => hpart 8 (by decide) hle (hdword hbytes)

end Bcc.Export
