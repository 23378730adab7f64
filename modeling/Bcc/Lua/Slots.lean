import Bcc.Bpf.Machine
import Bcc.Order.Links
import Bcc.Text.Outcome

namespace Bcc.Lua

open Bpf CText Links

/-!
# The Lua compiler — what it knows about slots

The compiler from LuaJIT bytecode to BPF keeps a table `V` with an entry for each slot that is
in use.  Types are kept as far as the compiler looks at them: whether they are `void`, and their
size.  Pointers to maps and to stack memory are left out.

* `VInfo` — a register, a place on the stack, a constant, or another slot (`shadow`);
* `follow_eq_ok_iff` — where copies lead.
-/

/-! ### Entries -/

/-- How a proxy is read: from a constant offset of the packet, from an offset of the packet in
    its register, or from memory at the pointer in its register. -/
inductive Access where
  | abs (off : Int)
  | ind
  | mem
  deriving DecidableEq, Repr

/-- `const.off or 0`. -/
def Access.off : Access → Int
  | .abs off => off
  | _ => 0

/-- Compile-time values: numbers, 64-bit numbers of the FFI, proxies of packets and contexts, and
    others such as strings and functions. -/
inductive Const where
  | num (n : Int)
  | cdata (w : Word)
  | proxy (access : Access)
  | other (text : String)
  deriving DecidableEq, Repr

namespace Const

/-- `is_proxy`. -/
def isProxy : Const → Bool
  | .proxy _ => true
  | _ => false

/-- A number, which the compiler computes with. -/
def isNumber : Const → Bool
  | .num _ | .cdata _ => true
  | _ => false

/-- The value in a register, of constants that have one. -/
def word : Const → Option Word
  | .num n => some (BitVec.ofInt 64 n)
  | .cdata w => some w
  | .proxy access => some (BitVec.ofInt 64 access.off)
  | .other _ => none

def access : Const → Option Access
  | .proxy access => some access
  | _ => none

end Const

/-- Types of variables. -/
inductive CType where
  | void
  | bytes (size : Nat)
  deriving DecidableEq, Repr

/-- An entry of `V`. -/
structure VInfo where
  reg : Option Nat
  spill : Option Nat
  const : Option Const
  shadow : Option Nat
  type : Option CType
  liveTo : Option Nat
  deriving DecidableEq, Repr

/-- `V`. -/
abbrev Table := Nat → Option VInfo

/-- The value of a slot: what is in a register for it, and how it is read if it is a proxy. -/
@[ext]
structure Value where
  word : Option Word
  access : Option Access
  deriving DecidableEq

/-- The value of a constant, or of nothing. -/
def constValue (const : Option Const) : Value := ⟨const.bind Const.word, const.bind Const.access⟩

/-- What `V` says about the word in a slot that is not a copy. -/
def VInfo.word (m : Machine) (v : VInfo) : Option Word :=
  match v.reg, v.spill, v.const with
  | some r, _, _ => some (m.regs r)
  | none, some slot, _ => some (m.stack slot)
  | none, none, const => const.bind Const.word

/-- What `V` says about a slot that is not a copy. -/
def VInfo.value (m : Machine) (v : VInfo) : Value := ⟨v.word m, v.const.bind Const.access⟩

/-- What the constant of an entry says about the slot, be it a copy or not. -/
def VInfo.Records (v : VInfo) (x : Value) : Prop :=
  v.const.bind Const.access = x.access ∧ ∀ c ∈ v.const, c.isNumber = true → c.word = x.word

section Value

variable {m : Machine} {v : VInfo}

theorem VInfo.word_of_reg {r : Nat} (h : v.reg = some r) : v.word m = some (m.regs r) := by
  simp [VInfo.word, h]

theorem VInfo.word_of_spill {slot : Nat} (hr : v.reg = none) (h : v.spill = some slot) :
    v.word m = some (m.stack slot) := by
  simp [VInfo.word, hr, h]

theorem VInfo.word_of_const (hr : v.reg = none) (hs : v.spill = none) :
    v.word m = v.const.bind Const.word := by
  simp [VInfo.word, hr, hs]

theorem VInfo.value_of_const (hr : v.reg = none) (hs : v.spill = none) :
    v.value m = constValue v.const := by
  rw [VInfo.value, v.word_of_const hr hs, constValue]

end Value

/-! ### Copies -/

/-- `while src.shadow do src = V[src.shadow] end`, from the entry of a slot. -/
def follow (V : Table) : Nat → Nat → Res VInfo
  | 0, _ => .error .outOfFuel
  | fuel + 1, x =>
    match V x with
    | none => .error .absentValue
    | some v =>
      match v.shadow with
      | none => .ok v
      | some y => follow V fuel y

/-- The slot that a copy is a copy of, if there is one. -/
def link (V : Table) (x : Nat) : Option Nat :=
  (V x).bind fun v => v.shadow.filter fun y => (V y).isSome

/-- A slot is a copy of `z`, with entry `w`, which is not a copy; or it is `z` itself. -/
inductive Root (V : Table) : Nat → Nat → VInfo → Prop
  | here {x : Nat} {v : VInfo} : V x = some v → v.shadow = none → Root V x x v
  | there {x y z : Nat} {v w : VInfo} :
      V x = some v → v.shadow = some y → Root V y z w → Root V x z w

namespace Root

variable {V V' : Table} {x y z : Nat} {v w : VInfo}

theorem entry (h : Root V x z w) : V z = some w ∧ w.shadow = none := by
  induction h with
  | here hv hs => exact ⟨hv, hs⟩
  | there _ _ _ ih => exact ih

theorem isSome (h : Root V x z w) : ∃ v, V x = some v := by
  cases h with
  | here hv _ | there hv _ _ => exact ⟨_, hv⟩

theorem unique {z' : Nat} {w' : VInfo} (h : Root V x z w) (h' : Root V x z' w') :
    z = z' ∧ w = w' := by
  induction h with
  | here hv hs =>
    cases h' with
    | here hv' _ => exact ⟨rfl, Option.some.inj (hv.symm.trans hv')⟩
    | there hv' hs' _ =>
      cases hv.symm.trans hv'
      simp [hs] at hs'
  | there hv hs _ ih =>
    cases h' with
    | here hv' hs' =>
      cases hv.symm.trans hv'
      simp [hs] at hs'
    | there hv' hs' h' =>
      cases hv.symm.trans hv'
      cases hs.symm.trans hs'
      exact ih h'

/-- The loop ends at the root. -/
theorem follow_eq (h : Root V x z w) : ∃ k, Steps (link V) x k ∧ ∀ j > k, follow V j x = .ok w := by
  induction h with
  | @here x v hv hs =>
    refine ⟨0, .stop (by simp [link, hv, hs]), fun j hj => ?_⟩
    obtain ⟨j, rfl⟩ : ∃ i, j = i + 1 := ⟨j - 1, by omega⟩
    simp [follow, hv, hs]
  | @there x y z v w hv hs hy ih =>
    obtain ⟨k, hk, hfollow⟩ := ih
    obtain ⟨u, hu⟩ := hy.isSome
    refine ⟨k + 1, .go (by simp [link, hv, hs, hu]) hk, fun j hj => ?_⟩
    obtain ⟨j, rfl⟩ : ∃ i, j = i + 1 := ⟨j - 1, by omega⟩
    simp only [follow, hv, hs]
    exact hfollow j (by omega)

end Root

/-- **The loop of `vreg`** ends if the copies lead to a slot that is not one. -/
theorem follow_eq_ok_iff {V : Table} {slots : Nat} (hdom : ∀ x v, V x = some v → x < slots)
    {x : Nat} {w : VInfo} : follow V (slots + 1) x = .ok w ↔ ∃ z, Root V x z w := by
  constructor
  · generalize slots + 1 = fuel
    intro h
    induction fuel generalizing x with
    | zero => simp [follow] at h
    | succ fuel ih =>
      rw [follow] at h
      cases hv : V x with
      | none => simp [hv] at h
      | some v =>
        cases hs : v.shadow with
        | none =>
          simp only [hv, hs, Except.ok.injEq] at h
          exact ⟨x, .here (h ▸ hv) (h ▸ hs)⟩
        | some y =>
          simp only [hv, hs] at h
          obtain ⟨z, hz⟩ := ih h
          exact ⟨z, .there hv hs hz⟩
  · rintro ⟨z, hz⟩
    obtain ⟨k, hk, hfollow⟩ := hz.follow_eq
    obtain ⟨v, hv⟩ := hz.isSome
    have hstay : ∀ x ∈ Finset.range slots, ∀ y ∈ link V x, y ∈ Finset.range slots := by
      intro x _ y hy
      obtain ⟨u, -, hu⟩ := Option.bind_eq_some_iff.mp hy
      obtain ⟨w', hw'⟩ := Option.isSome_iff_exists.mp (Option.filter_eq_some_iff.mp hu).2
      exact Finset.mem_range.mpr (hdom y w' hw')
    have hlt := hk.lt_card hstay (Finset.mem_range.mpr (hdom x v hv))
    rw [Finset.card_range] at hlt
    exact hfollow _ (by omega)

end Bcc.Lua
