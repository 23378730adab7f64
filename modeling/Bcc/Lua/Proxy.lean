import Bcc.Lua.Wide

namespace Bcc.Lua

open Bpf CText Function

/-!
# The Lua compiler — fields of packets and contexts

* `load_compiles`, `tget_compiles` — `TGETB` and `TGETS` load a field the way the proxy says;
* `callHelper_compiles` — a call of a helper leaves its result in `R0`.

What is in a slot before has to be overwritten safely, as for constants.
-/

variable {slots : Nat} {o : Order slots}

/-! ### Fields -/

/-- The bytes at an offset of the packet. -/
def absWord (world : World) (w : Nat) (off : Int) : Word :=
  if w < 8 then ordered world w (world.packet w (BitVec.ofInt 64 off))
  else combined (ordered world 4 (world.packet 4 (BitVec.ofInt 64 off)))
    (ordered world 4 (world.packet 4 (BitVec.ofInt 64 (off + 4))))

/-- A field of what a slot stands for, of `w` bytes. -/
def fieldWord (world : World) (x : Value) (off : Int) (w : Nat) : Option Word :=
  match x.access with
  | some (.abs base) => some (absWord world w (off + base))
  | some .ind => x.word.map fun p => ordered world w (world.packet w (p + BitVec.ofInt 64 off))
  | some .mem => x.word.map fun p => world.memory w (p + BitVec.ofInt 64 off)
  | none => none

/-- When a load is correct: there is room for what it brings into registers. -/
def AccessSafe (o : Order slots) (s : Emitter) (dst src w : Nat) (v : VInfo) : Access → Prop
  | .abs _ => w = 8 → Room o s.V (s.pc - 1) 1 [dst, slots]
      (dst :: slots :: holders slots s.V 0)
  | .ind => FitsAt slots s.V none src ∧ Room o s.V (s.pc - 1) v.need [src] [src]
  | .mem => FitsAt slots s.V none src
      ∧ Room o s.V (s.pc - 1) (v.need + if dst = src then 0 else 1) [src] [dst, src]

instance (s : Emitter) (dst src w : Nat) (v : VInfo) :
    ∀ access, Decidable (AccessSafe o s dst src w v access)
  | .abs _ => inferInstanceAs (Decidable (_ → _))
  | .ind => inferInstanceAs (Decidable (_ ∧ _))
  | .mem => inferInstanceAs (Decidable (_ ∧ _))

section Load

variable {s s' : Emitter} {dst src : Nat} {u v : VInfo}

/-- The end of `LOAD`. -/
theorem Compiles.loaded {f : World → Values → Option Word} {access : Option Access}
    (h : Compiles slots s s' fun w σ => σ.assign dst ⟨f w σ, access⟩)
    (hdst : dst < slots) (howned : Owned s'.V dst) (type : Option CType) :
    Compiles slots s (s'.modify dst fun v => { v with type := type, const := none })
      fun w σ => σ.assign dst ⟨f w σ, none⟩ := by
  refine (h.forget hdst howned fun _ => type).congr fun w m env _ => ⟨fun x _ => ?_, rfl⟩
  simp

variable (hV : Layout slots s.V) (hscratch : Scratch s.V slots)
include hV hscratch

/-- The code for one kind of proxy. -/
theorem load_by_access (ht : Target slots s.V dst u) (hv : s.V src = some v) {access : Access}
    (hconst : v.const = some (.proxy access)) {w : Nat} (hw : w ∈ [1, 2, 4, 8])
    (hsafe : AccessSafe o s dst src w v access) (off : Int) :
    Yields (load o s dst src off w) fun s' => Compiles slots s s' fun world σ =>
      σ.assign dst ⟨fieldWord world ⟨(σ.env src).word, some access⟩ off w, none⟩ := by
  have hlt := ht.lt
  simp only [load, if_pos hw, hv, Option.bind_some, hconst]
  cases access with
  | abs base =>
    have hle : w ≤ 8 := by
      simp only [List.mem_cons, List.not_mem_nil, or_false] at hw
      omega
    rcases Nat.lt_or_eq_of_le hle with hlt8 | rfl
    · refine (ldAbs_narrow hV ht hlt8 (off + base)).bind ?_
      rintro s' ⟨howned, access, h⟩
      have hword : ∀ world, absWord world w (off + base)
          = ordered world w (world.packet w (BitVec.ofInt 64 (off + base))) :=
        fun _ => if_pos hlt8
      simp only [fieldWord, hword]
      exact .of_ok ((h.compiles hscratch (by simp)).loaded hlt howned _)
    · refine (ldAbs_wide hV hscratch ht (hsafe rfl) (off + base)).bind ?_
      rintro s' ⟨howned, access, h⟩
      exact .of_ok (h.loaded hlt howned _)
  | ind =>
    refine (ldInd_computes hV ht hv hsafe.1 hsafe.2 w off).bind ?_
    rintro s' ⟨howned, access, h⟩
    exact .of_ok ((h.compiles hscratch (by simp)).loaded hlt howned _)
  | mem =>
    refine (ldMem_computes hV ht hv hsafe.1 hsafe.2 w off).bind ?_
    rintro s' ⟨howned, access, h⟩
    exact .of_ok ((h.compiles hscratch (by simp)).loaded hlt howned _)

/-- **`LOAD`.** -/
theorem load_compiles (hlt : dst < slots) (hu : s.V dst = some u)
    (hempty : dst = src ∨ u.const = none) (hno : ∀ y w, s.V y = some w → w.shadow ≠ some dst)
    {w : Nat} (hsafe : ∀ v ∈ s.V src, ∀ access ∈ v.const.bind Const.access,
      AccessSafe o s dst src w v access) (off : Int) :
    Yields (load o s dst src off w) fun s' => Compiles slots s s' fun world σ =>
      σ.assign dst ⟨fieldWord world (σ.env src) off w, none⟩ := by
  by_cases hw : w ∈ [1, 2, 4, 8]
  swap
  · rw [load, if_neg hw]
    exact .of_error (by simp)
  cases hv : s.V src with
  | none =>
    simp only [load, if_pos hw, hv]
    exact .of_error (by simp)
  | some v =>
    cases hc : v.const with
    | none =>
      simp only [load, if_pos hw, hv, Option.bind_some, hc]
      exact .of_error (by simp)
    | some c =>
      cases c with
      | num _ | cdata _ | other _ =>
        simp only [load, if_pos hw, hv, Option.bind_some, hc]
        exact .of_error (by simp)
      | proxy access =>
        have hfold : foldable u = none := by
          rcases hempty with rfl | hnone
          · cases hu.symm.trans hv
            rw [foldable, hc]
            rfl
          · rw [foldable, hnone]
            rfl
        have haccess := hsafe v hv access (by rw [hc]; rfl)
        refine (load_by_access hV hscratch ⟨hlt, hu, hno, hfold⟩ hv hc hw haccess off).mono ?_
        intro s' h
        refine h.congr fun world m env hd => ⟨fun x _ => ?_, rfl⟩
        have hread : (env src).access = some access := by
          rw [← (hd src v hv).2.1, hc]
          rfl
        rw [← hread]

end Load

/-! ### Bytecodes -/

section Bytecodes

variable {s : Emitter} {a b w : Nat}

/-- An empty slot. -/
theorem vset_empty (s : Emitter) (a : Nat) :
    (vset s a none none none).V a = some ⟨none, none, none, none, none, none⟩ :=
  update_self ..

/-- When `TGETB` and `TGETS` are correct.  The slot is overwritten first if it is not the proxy. -/
def TgetSafe (o : Order slots) (s : Emitter) (a b w : Nat) : Prop :=
  (a = b → copies slots s.V a = [] ∧ ∀ v ∈ s.V b,
    ∀ access ∈ v.const.bind Const.access, AccessSafe o s a b w v access)
  ∧ (a ≠ b → Overwritable slots s.V a ∧ ∀ v ∈ (vset s a none none none).V b,
    ∀ access ∈ v.const.bind Const.access,
      AccessSafe o (vset s a none none none) a b w v access)

instance (s : Emitter) (a b w : Nat) : Decidable (TgetSafe o s a b w) :=
  inferInstanceAs (Decidable (_ ∧ _))

variable (hV : Layout slots s.V) (hscratch : Scratch s.V slots)
include hV hscratch

/-- **`TGETB` and `TGETS`** on a proxy. -/
theorem tget_compiles (ha : a < slots) (hsafe : TgetSafe o s a b w) (off : Int) :
    Yields (tget o s a b off w) fun s' => Compiles slots s s' fun world σ =>
      σ.assign a ⟨fieldWord world (σ.env b) off w, none⟩ := by
  rw [tget]
  by_cases hab : a = b
  · obtain ⟨hcopies, hsafe⟩ := hsafe.1 hab
    rw [if_pos hab]
    cases hu : s.V a with
    | none =>
      simp only [load, ← hab, hu]
      split <;> exact .of_error (by simp)
    | some u =>
      exact load_compiles hV hscratch ha hu (.inl hab) (not_copy hV.toRooted hcopies) hsafe off
  · obtain ⟨hover, hsafe⟩ := hsafe.2 hab
    rw [if_neg hab]
    have hset := vset_computes hV (by omega) hover none none
    obtain ⟨-, hno, -⟩ := vset_correct hV (by omega) hover none none
    have hscratch' := hset.scratch slots (by simp [(Nat.ne_of_lt ha).symm]) hscratch
    refine (load_compiles hset.layout hscratch' ha (vset_empty s a) (.inr rfl) hno hsafe
      off).mono ?_
    intro s' h
    refine (hset.trans_compiles h).congr fun world m env _ => ⟨fun x _ => ?_, rfl⟩
    simp [update_of_ne (Ne.symm hab)]

/-- **A call of a helper.** -/
theorem callHelper_compiles (ha : a < slots) (hover : Overwritable slots s.V a)
    (h w : Nat) :
    Yields (callHelper o s a h w) fun s' => Compiles slots s s' fun world σ =>
      ⟨update σ.env a ⟨some (world.helper σ.calls h), none⟩, σ.calls + 1⟩ := by
  have hset := vset_computes hV (by omega) hover none none
  obtain ⟨-, hno, -⟩ := vset_correct hV (by omega) hover none none
  have hscratch' := hset.scratch slots (by simp [(Nat.ne_of_lt ha).symm]) hscratch
  have ht : Target slots (vset s a none none none).V a ⟨none, none, none, none, none, none⟩ :=
    ⟨ha, vset_empty s a, hno, rfl⟩
  refine (call_computes hset.layout ht h _).bind ?_
  rintro ⟨_, s₁⟩ ⟨howned, access, hcall⟩
  have hall := hset.trans_compiles (hcall.compiles hscratch' (by simp))
  refine .of_ok ((hall.forget ha howned VInfo.type).congr fun world m env _ => ⟨fun x _ => ?_, rfl⟩)
  simp

end Bytecodes

end Bcc.Lua
