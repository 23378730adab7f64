import Bcc.Bytes.Bits
import Bcc.Maps.Relocate

namespace Bcc.Load

open Bytes Maps

/-!
# Loading programs — the tag

The kernel identifies a program by a hash over its instructions, in which the descriptors of maps
are replaced by zero; `bpf_prog_compute_tag` computes the same hash.

* `clearFds_encode` — the loop, which looks at one slot and remembers the one before;
* `bpfProgComputeTag_sameButFds` — the tag does not depend on descriptors.
-/

/-! ### The code -/

/-- The loop of `bpf_prog_compute_tag`, with `map_ld_seen`. -/
def clearFds : Bool → List Insn → List Insn
  | _, [] => []
  | mapLdSeen, insn :: insns =>
    if insn.code = bpfLdImm64 ∧ insn.srcReg = bpfPseudoMapFd ∧ mapLdSeen = false then
      { insn with imm := 0 } :: clearFds true insns
    else if insn.code = 0 ∧ mapLdSeen = true then
      { insn with imm := 0 } :: clearFds false insns
    else insn :: clearFds false insns

/-- The socket for the hash: what the calls on it return.  The digest is of what was written. -/
structure Alg where
  socket : Int
  bind : Int
  accept : Int
  write : List Insn → Nat → Int
  read : List Insn → Int
  digest : List Insn → List UInt8

/-- `bpf_prog_compute_tag`: what is returned, and the tag, if it is stored. -/
def bpfProgComputeTag (alg : Alg) (insns : List Insn) (progLen : Nat) : Int × Option (BitVec 64) :=
  let prog := clearFds false (insns.take (progLen / 8))
  if alg.socket < 0 then (-1, none)
  else if alg.bind < 0 then (alg.bind, none)
  else if alg.accept < 0 then (-1, none)
  else if alg.write prog progLen ≠ progLen then (-1, none)
  else if alg.read prog ≠ 20 then (-1, none)
  else (0, some (bswap (BitVec.ofNat 64 (leNat (slice (alg.digest prog) 0 8)))))

/-! ### Programs -/

/-- The second slot of a load has code 0. -/
def WellFormed : Op → Prop
  | .single _ _ => True
  | .wide _ _ second => second.code = 0

/-- Two instructions are the same, but for the two halves of the number of a map load. -/
inductive SameButFds : Op → Op → Prop where
  | same (op : Op) : SameButFds op op
  | mapLoad (insn second : Insn) (h : insn.code = bpfLdImm64) (lo hi : Int) :
    insn.srcReg = bpfPseudoMapFd →
    SameButFds (.wide insn h second) (.wide { insn with imm := lo } h { second with imm := hi })

/-- What is hashed of an instruction: a map load with zero for the number, and everything else as
    it is. -/
inductive Cleared : Op → Op → Prop where
  | single (insn : Insn) (h : insn.code ≠ bpfLdImm64) : Cleared (.single insn h) (.single insn h)
  | mapLoad (insn second : Insn) (h : insn.code = bpfLdImm64) : insn.srcReg = bpfPseudoMapFd →
    Cleared (.wide insn h second) (.wide { insn with imm := 0 } h { second with imm := 0 })
  | other (insn second : Insn) (h : insn.code = bpfLdImm64) : insn.srcReg ≠ bpfPseudoMapFd →
    Cleared (.wide insn h second) (.wide insn h second)

/-! ### What the loop does -/

section ClearFds

variable {insn second : Insn}

/-- An instruction of one slot, behind a whole instruction. -/
theorem clearFds_single (h : insn.code ≠ bpfLdImm64) (insns : List Insn) :
    clearFds false (insn :: insns) = insn :: clearFds false insns := by
  simp [clearFds, h]

/-- Both slots of a map load. -/
theorem clearFds_mapLoad (h : insn.code = bpfLdImm64) (hmap : insn.srcReg = bpfPseudoMapFd)
    (hsecond : second.code = 0) (insns : List Insn) :
    clearFds false (insn :: second :: insns)
      = { insn with imm := 0 } :: { second with imm := 0 } :: clearFds false insns := by
  simp [clearFds, h, hmap, hsecond]

/-- The second slot of another load has code 0 too, but no map load was seen. -/
theorem clearFds_other (hmap : insn.srcReg ≠ bpfPseudoMapFd)
    (hsecond : second.code = 0) (insns : List Insn) :
    clearFds false (insn :: second :: insns) = insn :: second :: clearFds false insns := by
  have hcode : second.code ≠ bpfLdImm64 := by
    rw [hsecond]
    decide
  simp [clearFds, hmap, hcode]

end ClearFds

/-- **The loop**, over programs of any length: the flag is down before every instruction. -/
theorem clearFds_encode {ops : List Op} (hwf : ∀ op ∈ ops, WellFormed op) :
    ∃ ops', clearFds false (encode ops) = encode ops' ∧ List.Forall₂ Cleared ops ops' := by
  induction ops with
  | nil => exact ⟨[], rfl, .nil⟩
  | cons op ops ih =>
    obtain ⟨ops', hops', hcleared⟩ := ih fun op hop => hwf op (List.mem_cons_of_mem _ hop)
    have hop := hwf op List.mem_cons_self
    cases op with
    | single insn h =>
      refine ⟨.single insn h :: ops', ?_, .cons (.single insn h) hcleared⟩
      show clearFds false (insn :: encode ops) = insn :: encode ops'
      rw [clearFds_single h, hops']
    | wide insn h second =>
      by_cases hmap : insn.srcReg = bpfPseudoMapFd
      · refine ⟨.wide { insn with imm := 0 } h { second with imm := 0 } :: ops', ?_,
          .cons (.mapLoad insn second h hmap) hcleared⟩
        show clearFds false (insn :: second :: encode ops)
          = { insn with imm := 0 } :: { second with imm := 0 } :: encode ops'
        rw [clearFds_mapLoad h hmap hop, hops']
      · refine ⟨.wide insn h second :: ops', ?_, .cons (.other insn second h hmap) hcleared⟩
        show clearFds false (insn :: second :: encode ops) = insn :: second :: encode ops'
        rw [clearFds_other hmap hop, hops']

/-- What is hashed of an instruction is the same for two that differ in the descriptor. -/
theorem Cleared.unique {op op' c c' : Op} (hsame : SameButFds op op') (h : Cleared op c)
    (h' : Cleared op' c') : c = c' := by
  cases hsame with
  | same =>
    cases h with
    | single => cases h'; rfl
    | mapLoad _ _ _ hmap =>
      cases h' with
      | mapLoad => rfl
      | other _ _ _ hother => exact absurd hmap hother
    | other _ _ _ hother =>
      cases h' with
      | mapLoad _ _ _ hmap => exact absurd hmap hother
      | other => rfl
  | mapLoad _ _ _ _ _ hmap =>
    cases h with
    | other _ _ _ hother => exact absurd hmap hother
    | mapLoad =>
      cases h' with
      | mapLoad => rfl
      | other _ _ _ hother => exact absurd hmap hother

theorem SameButFds.wellFormed {op op' : Op} (h : SameButFds op op') (hwf : WellFormed op) :
    WellFormed op' := by
  cases h with
  | same => exact hwf
  | mapLoad => exact hwf

section Programs

variable {ops ops' : List Op}

theorem wellFormed_of_sameButFds (h : List.Forall₂ SameButFds ops ops')
    (hwf : ∀ op ∈ ops, WellFormed op) : ∀ op ∈ ops', WellFormed op := by
  induction h with
  | nil => exact hwf
  | cons hop _ ih =>
    rw [List.forall_mem_cons] at hwf ⊢
    exact ⟨hop.wellFormed hwf.1, ih hwf.2⟩

theorem cleared_unique {cs cs' : List Op} (hsame : List.Forall₂ SameButFds ops ops')
    (h : List.Forall₂ Cleared ops cs) (h' : List.Forall₂ Cleared ops' cs') : cs = cs' := by
  induction hsame generalizing cs cs' with
  | nil =>
    cases h
    cases h'
    rfl
  | cons hop _ ih =>
    cases h with
    | cons hc hcs =>
      cases h' with
      | cons hc' hcs' => rw [hc.unique hop hc', ih hcs hcs']

/-- Two programs that differ in descriptors are hashed as the same one. -/
theorem clearFds_sameButFds (hwf : ∀ op ∈ ops, WellFormed op)
    (hsame : List.Forall₂ SameButFds ops ops') :
    clearFds false (encode ops') = clearFds false (encode ops) := by
  obtain ⟨cs, hcs, hcleared⟩ := clearFds_encode hwf
  obtain ⟨cs', hcs', hcleared'⟩ := clearFds_encode (wellFormed_of_sameButFds hsame hwf)
  rw [hcs, hcs', cleared_unique hsame hcleared hcleared']

theorem length_encode_of_sameButFds (hsame : List.Forall₂ SameButFds ops ops') :
    (encode ops').length = (encode ops).length := by
  induction hsame with
  | nil => rfl
  | cons hop _ ih =>
    cases hop <;> simpa [encode, Op.slots] using ih

/-- `load_maps` changes descriptors only. -/
theorem relocate_sameButFds (mapFds : Int → Option Nat) (ops : List Op) :
    ∃ ops', relocate mapFds (encode ops) = encode ops' ∧ List.Forall₂ SameButFds ops ops' := by
  induction ops with
  | nil => exact ⟨[], rfl, .nil⟩
  | cons op ops ih =>
    obtain ⟨ops', hops', hsame⟩ := ih
    cases op with
    | single insn h =>
      refine ⟨.single insn h :: ops', ?_, .cons (.same _) hsame⟩
      show relocate mapFds (insn :: encode ops) = insn :: encode ops'
      rw [relocate_cons h, hops']
    | wide insn h second =>
      have hslots : relocate mapFds (encode (.wide insn h second :: ops))
          = setImm mapFds insn :: second :: encode ops' := by
        show relocate mapFds (insn :: second :: encode ops) = _
        rw [relocate, if_pos h, hops']
      rw [hslots]
      unfold setImm
      split
      · next hmap =>
        split
        · next fd _ =>
          exact ⟨_, rfl, .cons (.mapLoad insn second h fd second.imm hmap) hsame⟩
        · exact ⟨_, rfl, .cons (.same (.wide insn h second)) hsame⟩
      · exact ⟨_, rfl, .cons (.same (.wide insn h second)) hsame⟩

end Programs

/-! ### The tag -/

/-- **The tag does not depend on descriptors.**  What is hashed is the program with the numbers of
    map loads cleared and every other field as it is, the same for programs that differ in
    descriptors only; so is the tag, in particular before and after `load_maps`. -/
theorem bpfProgComputeTag_sameButFds {ops ops' : List Op} (hwf : ∀ op ∈ ops, WellFormed op)
    (hsame : List.Forall₂ SameButFds ops ops') :
    clearFds false (encode ops') = clearFds false (encode ops)
      ∧ (∃ cs, clearFds false (encode ops) = encode cs ∧ List.Forall₂ Cleared ops cs)
      ∧ (∀ alg, bpfProgComputeTag alg (encode ops') (8 * (encode ops').length)
          = bpfProgComputeTag alg (encode ops) (8 * (encode ops).length))
      ∧ ∀ alg mapFds, bpfProgComputeTag alg (relocate mapFds (encode ops)) (8 * (encode ops).length)
          = bpfProgComputeTag alg (encode ops) (8 * (encode ops).length) := by
  have htag : ∀ {ops'' : List Op}, List.Forall₂ SameButFds ops ops'' → ∀ alg,
      bpfProgComputeTag alg (encode ops'') (8 * (encode ops).length)
        = bpfProgComputeTag alg (encode ops) (8 * (encode ops).length) := by
    intro ops'' hsame alg
    have hlen := length_encode_of_sameButFds hsame
    have htake : (encode ops'').take (encode ops).length = encode ops'' := by
      rw [← hlen, List.take_length]
    unfold bpfProgComputeTag
    rw [Nat.mul_div_cancel_left _ (by decide : 0 < 8), htake, List.take_length,
      clearFds_sameButFds hwf hsame]
  refine ⟨clearFds_sameButFds hwf hsame, clearFds_encode hwf, fun alg => ?_, fun alg mapFds => ?_⟩
  · rw [length_encode_of_sameButFds hsame]
    exact htag hsame alg
  · obtain ⟨ops'', hops'', hsame''⟩ := relocate_sameButFds mapFds ops
    rw [hops'']
    exact htag hsame'' alg

/-- A map load and its second slot. -/
def loadOfFd (fd : Int) : Op :=
  .wide ⟨bpfLdImm64, 1, bpfPseudoMapFd, 0, fd⟩ rfl ⟨0, 0, 0, 0, 0⟩

theorem bpfProgComputeTag_two_loads :
    clearFds false (encode [loadOfFd 5, loadOfFd 6])
        = clearFds false (encode [loadOfFd 3, loadOfFd 4])
      ∧ List.Forall₂ SameButFds [loadOfFd 3, loadOfFd 4] [loadOfFd 5, loadOfFd 6] := by
  have hsame : List.Forall₂ SameButFds [loadOfFd 3, loadOfFd 4] [loadOfFd 5, loadOfFd 6] :=
    .cons (.mapLoad _ _ rfl 5 0 rfl) (.cons (.mapLoad _ _ rfl 6 0 rfl) .nil)
  have hwf : ∀ op ∈ [loadOfFd 3, loadOfFd 4], WellFormed op := by
    simp [loadOfFd, WellFormed]
  exact ⟨(bpfProgComputeTag_sameButFds hwf hsame).1, hsame⟩

end Bcc.Load
