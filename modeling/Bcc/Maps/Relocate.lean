import Bcc.Maps.Opened

namespace Bcc.Maps

/-!
# Maps of a module — the instructions

The programs of a module name its tables by their fake fds, in instructions of two slots.

* `relocate_encode` — `load_maps` puts the descriptors there.
-/

/-- `struct bpf_insn` -/
structure Insn where
  code : BitVec 8
  dstReg : BitVec 4
  srcReg : BitVec 4
  off : Int
  imm : Int
  deriving DecidableEq

/-- `BPF_LD | BPF_DW | BPF_IMM` -/
def bpfLdImm64 : BitVec 8 := 0x18

/-- `BPF_PSEUDO_MAP_FD` -/
def bpfPseudoMapFd : BitVec 4 := 1

/-- The first slot of a load. -/
def setImm (mapFds : Int → Option Nat) (insn : Insn) : Insn :=
  if insn.srcReg = bpfPseudoMapFd then
    match mapFds insn.imm with
    | some fd => { insn with imm := fd }
    | none => insn
  else insn

/-- The loop of `load_maps` over the instructions of a function. -/
def relocate (mapFds : Int → Option Nat) : List Insn → List Insn
  | [] => []
  | [insn] => [if insn.code = bpfLdImm64 then setImm mapFds insn else insn]
  | insn :: next :: insns =>
    if insn.code = bpfLdImm64 then setImm mapFds insn :: next :: relocate mapFds insns
    else insn :: relocate mapFds (next :: insns)

/-! ### Instructions and slots -/

/-- An instruction: one slot, or a load with its second slot, which can be anything. -/
inductive Op where
  | single (insn : Insn) (h : insn.code ≠ bpfLdImm64)
  | wide (insn : Insn) (h : insn.code = bpfLdImm64) (second : Insn)

/-- The slots of an instruction. -/
def Op.slots : Op → List Insn
  | .single insn _ => [insn]
  | .wide insn _ second => [insn, second]

/-- The slots of a function. -/
def encode (ops : List Op) : List Insn := ops.flatMap Op.slots

/-- A load of a table gets the descriptor of the table; everything else stays as it is. -/
inductive Relocated (defs : List (Int × MapDef)) (mapFds : Int → Option Nat) : Op → Op → Prop where
  | single (insn : Insn) (h : insn.code ≠ bpfLdImm64) :
    Relocated defs mapFds (.single insn h) (.single insn h)
  | table (insn second : Insn) (h : insn.code = bpfLdImm64) (m : Int × MapDef) (fd : Nat) :
    insn.srcReg = bpfPseudoMapFd → m ∈ defs → insn.imm = m.1 → mapFds m.1 = some fd →
    Relocated defs mapFds (.wide insn h second) (.wide { insn with imm := fd } h second)
  | other (insn second : Insn) (h : insn.code = bpfLdImm64) :
    ¬ (insn.srcReg = bpfPseudoMapFd ∧ ∃ m ∈ defs, insn.imm = m.1) →
    Relocated defs mapFds (.wide insn h second) (.wide insn h second)

variable {defs : List (Int × MapDef)} {mapFds : Int → Option Nat}

theorem setImm_relocated (hkeys : ∀ f, (mapFds f).isSome = true ↔ ∃ m ∈ defs, f = m.1) (insn : Insn)
    (h : insn.code = bpfLdImm64) :
    ∃ h', ∀ second, Relocated defs mapFds (.wide insn h second)
      (.wide (setImm mapFds insn) h' second) := by
  unfold setImm
  split
  · next hpseudo =>
    split
    · next fd hfd =>
      obtain ⟨m, hm, himm⟩ := (hkeys insn.imm).mp (by rw [hfd]; rfl)
      exact ⟨h, fun second => .table insn second h m fd hpseudo hm himm (himm ▸ hfd)⟩
    · next hnone =>
      refine ⟨h, fun second => .other insn second h fun hother => ?_⟩
      have hsome := (hkeys insn.imm).mpr hother.2
      rw [hnone] at hsome
      cases hsome
  · next hpseudo => exact ⟨h, fun second => .other insn second h fun hother => hpseudo hother.1⟩

/-- An instruction of one slot is passed over, whatever follows. -/
theorem relocate_cons {insn : Insn} (h : insn.code ≠ bpfLdImm64) (insns : List Insn) :
    relocate mapFds (insn :: insns) = insn :: relocate mapFds insns := by
  cases insns with
  | nil => simp [relocate, h]
  | cons next insns => rw [relocate, if_neg h]

/-- **Relocation.**  The loads of tables get the descriptors, and nothing else is changed. -/
theorem relocate_encode (hkeys : ∀ f, (mapFds f).isSome = true ↔ ∃ m ∈ defs, f = m.1)
    (ops : List Op) :
    ∃ ops', relocate mapFds (encode ops) = encode ops'
      ∧ List.Forall₂ (Relocated defs mapFds) ops ops' := by
  induction ops with
  | nil => exact ⟨[], rfl, .nil⟩
  | cons op ops ih =>
    obtain ⟨ops', hops', hforall⟩ := ih
    cases op with
    | single insn h =>
      refine ⟨.single insn h :: ops', ?_, .cons (.single insn h) hforall⟩
      show relocate mapFds (insn :: encode ops) = insn :: encode ops'
      rw [relocate_cons h, hops']
    | wide insn h second =>
      -- The second slot is not looked at.
      obtain ⟨h', hrelocated⟩ := setImm_relocated hkeys insn h
      refine ⟨.wide (setImm mapFds insn) h' second :: ops', ?_, .cons (hrelocated second) hforall⟩
      show relocate mapFds (insn :: second :: encode ops)
        = setImm mapFds insn :: second :: encode ops'
      rw [relocate, if_pos h, hops']

end Bcc.Maps
