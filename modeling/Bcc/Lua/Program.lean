import Bcc.Lua.Straight

namespace Bcc.Lua

open Bpf CText Function

/-!
# The Lua compiler — programs from their start on

* `start_tracks` — at the start the context is in `R6` and no slot is a copy;
* `compile_describes` — from there on the table describes the values of all slots that are live, as
  long as no bytecode overwrites a slot in a way that the compiler does not handle: `vcopy`, and
  arithmetic in place, leave copies of the slot pointing to it.
-/

variable {stackslots : Nat} {o : Order stackslots}

/-! ### The start -/

/-- The values at the start: the first slot is the context, if the program takes one. -/
def initial (params : Bool) (m : Machine) : Values :=
  ⟨fun x => if params = true ∧ x = 0 then ⟨some (m.regs 1), some .mem⟩ else ⟨none, none⟩, m.calls⟩

/-- The compiler when it knows the context. -/
def entered (params : Bool) : Emitter :=
  if params then vset ⟨fun _ => none, [.mov 6 1]⟩ 0 (some 6) (some (.proxy .mem)) none
  else ⟨fun _ => none, [.mov 6 1]⟩

theorem start_eq (stackslots : Nat) (params : Bool) : start stackslots params
    = vset (vset (entered params) stackslots none none none) (stackslots + 1) none none none := rfl

theorem entered_code (params : Bool) : (entered params).code = [.mov 6 1] := by
  cases params <;> rfl

theorem entered_entry {params : Bool} {x : Nat} {v : VInfo} (h : (entered params).V x = some v) :
    params = true ∧ x = 0 ∧ v = ⟨some 6, none, some (.proxy .mem), none, none, none⟩ := by
  cases params with
  | false => simp [entered] at h
  | true =>
    by_cases hx : x = 0
    · subst hx
      exact ⟨rfl, rfl, (Option.some.inj h).symm⟩
    · have hnone : (entered true).V x = none := update_of_ne hx ..
      simp [hnone] at h

theorem entered_layout (params : Bool) : Layout stackslots (entered params).V where
  dom x v hv := by
    obtain ⟨-, rfl, -⟩ := entered_entry hv
    omega
  rooted x v hv := by
    have hs : v.shadow = none := by
      obtain ⟨-, -, rfl⟩ := entered_entry hv
      rfl
    exact ⟨x, v, .here hv hs⟩
  unique x y v w r hv _ _ hw _ _ := by
    obtain ⟨-, rfl, -⟩ := entered_entry hv
    obtain ⟨-, rfl, -⟩ := entered_entry hw
    rfl
  spill_eq x v slot hv hslot := by
    obtain ⟨-, -, rfl⟩ := entered_entry hv
    simp at hslot
  reg_or x v r hv hr := by
    obtain ⟨-, -, rfl⟩ := entered_entry hv
    cases hr
    omega

theorem entered_describes (params : Bool) (w : World) (m : Machine) :
    Describes stackslots (entered params).V (initial params m).env (exec w m [.mov 6 1]) := by
  intro x v hv
  have hentry := hv
  obtain ⟨hparams, hx, rfl⟩ := entered_entry hv
  have henv : (initial params m).env x = ⟨some (m.regs 1), some .mem⟩ := if_pos ⟨hparams, hx⟩
  rw [henv]
  refine ⟨⟨⟨some 6, none, some (.proxy .mem), none, none, none⟩, ?_, rfl⟩, rfl, fun c hc hn => ?_⟩
  · simp [follow, hentry]
  · cases hc
    simp [Const.isNumber] at hn

/-- No slot is a copy, and none becomes one. -/
theorem vset_plain {s : Emitter} (h : ∀ y u, s.V y = some u → u.shadow = none) (x : Nat)
    (reg : Option Nat) (const : Option Const) (vtype : Option CType) :
    ∀ y u, (vset s x reg const vtype).V y = some u → u.shadow = none := by
  intro y u hu
  have hno : ∀ y u, s.V y = some u → u.shadow ≠ some x := fun y u hu => by simp [h y u hu]
  simp only [vset, handOver_eq_self hno] at hu
  rcases update_eq_some.mp hu with ⟨rfl, rfl⟩ | ⟨-, hu⟩
  · rfl
  · exact h y u hu

/-- **The start of a program.** -/
theorem start_tracks (stackslots : Nat) (params : Bool) :
    Tracks stackslots (start stackslots params) fun _ m => initial params m := by
  have hV : Layout stackslots (entered params).V := entered_layout params
  have hplain : ∀ y u, (entered params).V y = some u → u.shadow = none := by
    intro y u hu
    obtain ⟨-, -, rfl⟩ := entered_entry hu
    rfl
  have hover : ∀ (s : Emitter) (x : Nat), Layout stackslots s.V →
      (∀ y u, s.V y = some u → u.shadow = none) → Overwritable stackslots s.V x :=
    fun s x hV h => .inl (copies_eq_nil hV.toRooted fun y u hu => by simp [h y u hu])
  -- the two slots for temporary values, one after the other
  obtain ⟨hV₁, hno₁, hd₁⟩ := vset_correct hV (by omega) (hover _ stackslots hV hplain) none none
  have hscratch₁ : Scratch (vset (entered params) stackslots none none none).V stackslots :=
    ⟨⟨_, vset_empty _ _, rfl, rfl⟩, hno₁⟩
  obtain ⟨hV₂, -, hd₂⟩ := vset_correct hV₁ (by omega)
    (hover _ (stackslots + 1) hV₁ (vset_plain hplain stackslots none none none)) none none
  rw [start_eq]
  refine ⟨hV₂, hscratch₁.vset (by omega) none none, fun w m => ?_⟩
  have hd := hd₂ _ _ (hd₁ _ _ (entered_describes params w m))
  have hcode : (vset (vset (entered params) stackslots none none none) (stackslots + 1) none none
      none).code = [.mov 6 1] := entered_code params
  rw [hcode]
  refine ⟨_, fun x hx => ?_, hd, rfl⟩
  rw [update_of_ne (by omega), update_of_ne (by omega)]

/-! ### After each bytecode -/

/-- **The table shows the values of the slots of the program**: following copies ends, at an entry
    that stands for the value, and a constant that is recorded is that value. -/
def Shows (stackslots : Nat) (V : Table) (env : Env) (m : Machine) : Prop :=
  ∀ x < stackslots, ∀ v, V x = some v →
    (∃ w, follow V (stackslots + 3) x = .ok w ∧ w.value m = env x) ∧ v.Records (env x)

/-- The slots that are live after some bytecodes. -/
def live (params : Bool) (ops : List Straight) : List Nat :=
  (if params then [0] else []) ++ defined ops

theorem start_live (stackslots : Nat) {params : Bool} (h : params = true) :
    ((start stackslots params).V 0).isSome = true := by
  subst h
  have hentry : ((entered true).V 0).isSome = true := rfl
  exact keeps_vset _ _ _ _ _ 0 (keeps_vset _ _ _ _ _ 0 hentry)

/-- Slots in the order of their numbers. -/
def ascending (stackslots : Nat) : Order stackslots :=
  ⟨fun _ => List.range (stackslots + 2), fun _ => .refl _⟩

/-- **Straight-line programs.**  If the compiler is right about each bytecode, then after each of
    them every live slot has an entry, the table shows the values of all slots in the machine
    that the code so far leads to, and copies lead to a slot that is none; unless the program is
    rejected. -/
theorem compile_describes (o : Order stackslots) (params : Bool) (ops : List Straight)
    (hops : ∀ op ∈ ops, ∀ x ∈ op.slots, x < stackslots)
    (hsafe : SafeRun o (start stackslots params) ops) (k : Nat) :
    Yields (compile o (start stackslots params) (ops.take k)) fun s =>
      Rooted stackslots s.V ∧ (∀ x ∈ live params (ops.take k), (s.V x).isSome = true)
        ∧ ∀ w m, Shows stackslots s.V
          ((ops.take k).foldl (Straight.run w) (initial params m)).env (exec w m s.code) := by
  have hrun := compile_tracks (start_tracks stackslots params)
    (fun op hop => hops op (List.mem_of_mem_take hop)) (hsafe.take k)
  rcases hrun with ⟨e, herr, he⟩ | ⟨s, hs, htracks⟩
  · rw [herr]
    exact .of_error he
  obtain ⟨hkeeps, hdefined⟩ := compile_keeps s hs
  rw [hs]
  refine .of_ok ⟨htracks.layout.toRooted, fun x hx => ?_, fun w m x hx v hv => ?_⟩
  · rcases List.mem_append.mp hx with hx | hx
    · by_cases hparams : params = true
      · rw [if_pos hparams, List.mem_singleton] at hx
        exact hx ▸ hkeeps 0 (start_live stackslots hparams)
      · simp [hparams] at hx
    · exact hdefined x hx
  · obtain ⟨env, hagree, hd, -⟩ := htracks.values w m
    rw [← hagree x hx]
    exact hd x v hv

/-- A field of the context, the result of a helper, a copy, a sum, and the copy overwritten. -/
theorem compile_describes_sum : ∃ s, compile (ascending 4) (start 4 true)
      [.tget 1 0 4 4, .call 2 5 8, .mov 3 1, .addvv 2 2 3, .knum 1 7, .subvn 3 3 2] = .ok s
    ∧ Rooted 4 s.V ∧ (∀ x ∈ [0, 1, 2, 3], (s.V x).isSome = true)
    ∧ ∀ w m, Shows 4 s.V
      ([.tget 1 0 4 4, .call 2 5 8, .mov 3 1, .addvv 2 2 3, .knum 1 7, .subvn 3 3 2].foldl
        (Straight.run w) (initial true m)).env (exec w m s.code) := by
  have h := compile_describes (ascending 4) true
    [.tget 1 0 4 4, .call 2 5 8, .mov 3 1, .addvv 2 2 3, .knum 1 7, .subvn 3 3 2]
    (by decide) (by decide +kernel) 6
  rcases h with ⟨e, he, -⟩ | ⟨s, hs, hrooted, hlive, hshows⟩
  · exact absurd he (by rintro ⟨⟩)
  · refine ⟨s, hs, hrooted, fun x hx => hlive x ?_, hshows⟩
    revert x
    decide

/-- Nothing outside: the packet and memory are empty, and helpers return 0. -/
def silent : World := ⟨fun _ _ => 0, fun _ _ => 0, fun _ x => x, fun _ _ => 0, fun _ _ => 0⟩

/-- **Copies of a slot that is overwritten.**  After `b = a; a = a + 1` the table shows the new
    value of `a` for `b`; after `b = a; a = b` following copies never ends. -/
theorem compile_loses_copy :
    (∃ s, compile (ascending 3) (start 3 false) [.call 1 5 8, .mov 2 1, .addvn 1 1 1] = .ok s
      ∧ ¬ Shows 3 s.V
        ([.call 1 5 8, .mov 2 1, .addvn 1 1 1].foldl (Straight.run silent)
          (initial false ⟨fun _ => 0, fun _ => 0, 0⟩)).env
        (exec silent ⟨fun _ => 0, fun _ => 0, 0⟩ s.code))
    ∧ compile (ascending 3) (start 3 false) [.call 1 5 8, .mov 2 1, .mov 1 2, .addvn 2 2 1]
      = .error .outOfFuel := by
  refine ⟨⟨_, rfl, fun h => ?_⟩, rfl⟩
  obtain ⟨⟨w, hw, hval⟩, -⟩ := h 2 (by decide) _ rfl
  cases hw
  revert hval
  decide

end Bcc.Lua
