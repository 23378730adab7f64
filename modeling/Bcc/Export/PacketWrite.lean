import Bcc.Export.Packet

namespace Bcc.Export

open BitVec Bytes

/-!
# Packet headers — writes

* `bpfDinsPkt_written` — the word that covers the member is loaded, a part of it is replaced, and it
  is stored in network order again;
* `dext_dins` — a read after a write.
-/

variable {n off bofs bsz : Nat} {pkt : List UInt8} {val : BitVec 64}

/-- The bits of a word in which a part was replaced. -/
theorem getLsbD_insert {w : Nat} (hw : w ≤ 64) (h : bofs + bsz ≤ w) (v : BitVec w) {j : Nat}
    (hj : j < w) : (insert bofs bsz val v).getLsbD j
      = if w - (bofs + bsz) ≤ j ∧ j < w - bofs then val.getLsbD (j - (w - (bofs + bsz)))
        else v.getLsbD j := by
  have hmask : ∀ k, (MASK bsz).getLsbD k = decide (k < bsz) := getLsbD_MASK (by omega)
  simp only [insert, getLsbD_setWidth, getLsbD_or, getLsbD_and,
    getLsbD_not, getLsbD_shiftLeft, hmask]
  by_cases hlow : j < w - (bofs + bsz)
  · rw [if_neg (by omega)]
    simp [hlow, hj, show j < 64 by omega]
  · by_cases hhigh : j < w - bofs
    · rw [if_pos (by omega)]
      simp [hlow, hj, show j < 64 by omega, show j - (w - (bofs + bsz)) < bsz by omega]
    · rw [if_neg (by omega)]
      simp [hj, show j < 64 by omega, show ¬ j - (w - (bofs + bsz)) < bsz by omega]

/-- A byte keeps the lowest eight bits. -/
theorem ofNat_eq_of_mod {a b : Nat} (h : a % 256 = b % 256) : UInt8.ofNat a = UInt8.ofNat b := by
  apply UInt8.toNat_inj.mp
  rwa [UInt8.toNat_ofNat']

/-- So has the result of `bpf_htons`. -/
theorem le_bpfHtons (v : BitVec 16) : le 2 (bpfHtons v).toNat = (le 2 v.toNat).reverse := by
  -- the two halves do not overlap, so that they can be added
  have hor : v.toNat <<< 8 ||| v.toNat >>> 8 = 256 * v.toNat + v.toNat / 256 := by
    have hlow : v.toNat >>> 8 < 2 ^ 8 := by
      omega
    rw [← Nat.shiftLeft_add_eq_or_of_lt hlow]
    omega
  have hswap : (bpfHtons v).toNat = 256 * (v.toNat % 256) + v.toNat / 256 := by
    have hshift : v.toNat <<< 8 < 2 ^ 32 := by
      omega
    have hwide : (v.setWidth 32).toNat = v.toNat := by
      rw [toNat_setWidth, Nat.mod_eq_of_lt (by omega)]
    rw [bpfHtons, toNat_setWidth, toNat_or, toNat_shiftLeft,
      toNat_ushiftRight, hwide, Nat.mod_eq_of_lt hshift]
    omega
  have hhigh : (256 * (v.toNat % 256) + v.toNat / 256) / 256 = v.toNat % 256 := by
    rw [Nat.mul_add_div (by decide), Nat.div_eq_of_lt (by omega), Nat.add_zero]
  have hfirst : UInt8.ofNat (bpfHtons v).toNat = UInt8.ofNat (v.toNat / 256) :=
    ofNat_eq_of_mod (by omega)
  have hsecond : UInt8.ofNat ((bpfHtons v).toNat / 256) = UInt8.ofNat v.toNat :=
    ofNat_eq_of_mod (by rw [hswap]; omega)
  simp [le, hfirst, hsecond]

/-- One byte is the same both ways round. -/
theorem reverse_le_one (v : Nat) : (le 1 v).reverse = le 1 v := rfl

/-- The member from bit `start` on holds `val` now, and all other bits of the packet are as they
    were. -/
structure Written (pkt : List UInt8) (start bsz : Nat) (val : BitVec 64) (pkt' : List UInt8) :
    Prop where
  length_eq : pkt'.length = pkt.length
  bitAt_eq : ∀ i, bitAt pkt' i = if start ≤ i ∧ i < start + bsz
    then val.getLsbD (start + bsz - 1 - i) else bitAt pkt i

/-- What a store writes, from the bits of the number `v` that is in memory in network order. -/
theorem written_of_store {w : Nat} {stored : BitVec w} {v : Nat} (hfit : off + n ≤ pkt.length)
    (hle : bofs + bsz ≤ 8 * n) (hmem : le n stored.toNat = (le n v).reverse)
    (hv : ∀ j < 8 * n, v.testBit j
      = if 8 * n - (bofs + bsz) ≤ j ∧ j < 8 * n - bofs
        then val.getLsbD (j - (8 * n - (bofs + bsz))) else bitAt pkt (8 * off + (8 * n - 1 - j))) :
    Written pkt (8 * off + bofs) bsz val (skbStoreBytes pkt off stored n) := by
  have hlen : ((le n v).reverse).length = n := by rw [List.length_reverse, length_le]
  rw [skbStoreBytes, if_pos hfit, hmem]
  refine ⟨length_patch (by rwa [hlen]), fun i => ?_⟩
  rw [bitAt_patch (by rwa [hlen]), hlen]
  by_cases hi : 8 * off ≤ i ∧ i < 8 * (off + n)
  · rw [if_pos hi, bitAt_reverse_le (by omega), hv _ (by omega)]
    by_cases hin : 8 * off + bofs ≤ i ∧ i < 8 * off + bofs + bsz
    · rw [if_pos hin, if_pos (by omega)]
      congr 1
      omega
    · rw [if_neg hin, if_neg (by omega)]
      congr 1
      omega
  · rw [if_neg hi, if_neg (by omega)]

/-- A word in which the member was replaced, of `n` bytes. -/
theorem written_of_insert {w : Nat} {stored : BitVec w} {v : BitVec 64} (hn : n ≤ 8)
    (hfit : off + n ≤ pkt.length) (hle : bofs + bsz ≤ 8 * n) (hv : IsWord n pkt off v)
    (hmem : le n stored.toNat
      = (le n (insert bofs bsz val (v.setWidth (8 * n))).toNat).reverse) :
    Written pkt (8 * off + bofs) bsz val (skbStoreBytes pkt off stored n) := by
  refine written_of_store hfit hle hmem fun j hj => ?_
  rw [testBit_toNat, getLsbD_insert (by omega) hle _ hj, getLsbD_setWidth, hv]
  simp [hj]

/-- A member that is a whole word of `n` bytes. -/
theorem written_of_whole {w : Nat} {stored : BitVec w} (hfit : off + n ≤ pkt.length)
    (hmem : le n stored.toNat = (le n (val.setWidth (8 * n)).toNat).reverse) :
    Written pkt (8 * off + 0) (8 * n) val (skbStoreBytes pkt off stored n) := by
  refine written_of_store hfit (by omega) hmem fun j hj => ?_
  rw [testBit_toNat]
  simp [hj]

/-- **What a write does.** -/
theorem bpfDinsPkt_written (f : Position) (h : f.Inside pkt) (val : BitVec 64) :
    ∃ pkt', bpfDinsPkt pkt f.off f.bofs f.bsz val = some pkt'
      ∧ Written pkt f.start f.bsz val pkt' := by
  have hwhole : ∀ {n w : Nat} {stored : BitVec w}, f.bytes = n → f.bofs = 0 → f.bsz = 8 * n →
      le n stored.toNat = (le n (val.setWidth (8 * n)).toNat).reverse →
        ∃ pkt', some (skbStoreBytes pkt f.off stored n) = some pkt'
          ∧ Written pkt f.start f.bsz val pkt' := by
    intro n w stored hbytes hbofs hbsz hmem
    rw [Position.start, hbofs, hbsz]
    exact ⟨_, rfl, written_of_whole (hbytes ▸ h) hmem⟩
  have hpart : ∀ {n w : Nat} {l : Option (BitVec 64)} {swap : BitVec 64 → BitVec w},
      f.bytes = n → n ≤ 8 → f.bofs + f.bsz ≤ 8 * n → (∃ v, l = some v ∧ IsWord n pkt f.off v) →
      (∀ v, le n (swap v).toNat
        = (le n (insert f.bofs f.bsz val (v.setWidth (8 * n))).toNat).reverse) →
        ∃ pkt', (l.bind fun v => some (skbStoreBytes pkt f.off (swap v) n)) = some pkt'
          ∧ Written pkt f.start f.bsz val pkt' := by
    rintro n w l swap hbytes hn hle ⟨v, rfl, hv⟩ hmem
    exact ⟨_, rfl, written_of_insert hn (hbytes ▸ h) hle hv (hmem v)⟩
  have hload : ∀ {n : Nat}, f.bytes = n → n ≤ 8 →
      ∃ v, load n pkt f.off = some v ∧ IsWord n pkt f.off v :=
    fun hbytes hn => load_isWord hn (hbytes ▸ h)
  have hdword : f.bytes = 8 → ∃ v, loadDword pkt f.off = some v ∧ IsWord 8 pkt f.off v :=
    fun hbytes => loadDword_isWord (hbytes ▸ h)
  apply Position.access (P := fun r => ∃ pkt', r = some pkt' ∧ Written pkt f.start f.bsz val pkt')
  · intro hbytes hbofs hbsz
    refine hwhole hbytes hbofs hbsz ?_
    rw [toNat_setWidth]
    exact congrArg ([·]) (ofNat_eq_of_mod (by omega))
  · exact fun hbytes hle => hpart hbytes (by decide) hle (hload hbytes (by decide))
      fun _ => (reverse_le_one _).symm
  · exact fun hbytes hbofs hbsz => hwhole hbytes hbofs hbsz (le_bpfHtons _)
  · exact fun hbytes hle => hpart hbytes (by decide) hle (hload hbytes (by decide))
      fun _ => le_bpfHtons _
  · exact fun hbytes hbofs hbsz => hwhole hbytes hbofs hbsz le_bswap
  · exact fun hbytes hle => hpart hbytes (by decide) hle (hload hbytes (by decide))
      fun _ => le_bswap
  · exact fun hbytes hbofs hbsz => hwhole hbytes hbofs hbsz le_bswap
  · exact fun hbytes hle => hpart hbytes (by decide) hle (hdword hbytes) fun _ => le_bswap

/-- The member of a packet into which a value was written. -/
theorem Written.field_eq {pkt' : List UInt8} {start : Nat} (h : Written pkt start bsz val pkt') :
    field (bitAt pkt') start bsz = val.toNat % 2 ^ bsz := by
  apply Nat.eq_of_testBit_eq
  intro k
  rw [testBit_field, Nat.testBit_mod_two_pow, h.bitAt_eq]
  by_cases hk : k < bsz
  · rw [if_pos (by omega), show start + bsz - 1 - (start + (bsz - 1 - k)) = k by omega,
      testBit_toNat]
  · simp [hk]

/-- **Reading and writing members of packet headers.**  A read gives the bits of the member, the
    first one as the highest; a read after a write gives the value that was written, modulo the
    width of the member; and a write leaves the length and all other bits of the packet alone. -/
theorem dext_dins (f : Position) (pkt : List UInt8) (h : f.Inside pkt) (val : BitVec 64) :
    bpfDextPkt pkt f.off f.bofs f.bsz = some (BitVec.ofNat 64 (field (bitAt pkt) f.start f.bsz))
      ∧ ∃ pkt', bpfDinsPkt pkt f.off f.bofs f.bsz val = some pkt'
        ∧ bpfDextPkt pkt' f.off f.bofs f.bsz = some (BitVec.ofNat 64 (val.toNat % 2 ^ f.bsz))
        ∧ pkt'.length = pkt.length
        ∧ ∀ i, ¬ (f.start ≤ i ∧ i < f.start + f.bsz) → bitAt pkt' i = bitAt pkt i := by
  refine ⟨bpfDextPkt_eq f h, ?_⟩
  obtain ⟨pkt', hdins, hwritten⟩ := bpfDinsPkt_written f h val
  have hinside : f.Inside pkt' := by
    unfold Position.Inside
    rw [hwritten.length_eq]
    exact h
  refine ⟨pkt', hdins, ?_, hwritten.length_eq, fun i hi => ?_⟩
  · rw [bpfDextPkt_eq f hinside, hwritten.field_eq]
  · rw [hwritten.bitAt_eq, if_neg hi]

/-- The fragment offset of an IPv4 header: 13 bits, from the fourth bit of byte 6 on. -/
def fragmentOffset : Position := ⟨6, 3, 13, by decide, by decide, by decide⟩

theorem dext_dins_fragmentOffset : ∃ pkt',
    bpfDinsPkt [0x45, 0, 0, 0x54, 0, 0, 0x40, 0, 0x40, 1] 6 3 13 0x1234 = some pkt'
      ∧ bpfDextPkt pkt' 6 3 13 = some 0x1234 ∧ bitAt pkt' 49 = true := by
  obtain ⟨-, pkt', hdins, hdext, -, hframe⟩ :=
    dext_dins fragmentOffset [0x45, 0, 0, 0x54, 0, 0, 0x40, 0, 0x40, 1] (by decide) 0x1234
  exact ⟨pkt', hdins, hdext, (hframe 49 (by decide)).trans (by decide)⟩

end Bcc.Export
