import Bcc.Usdt.BracketShapes
import Bcc.Usdt.RegexOperands
import Bcc.Usdt.X64Accepted

namespace Bcc.Usdt

open CText Regex

/-!
# USDT — the six argument parsers and the loop that drives them

`Location::Location` runs the parser of the architecture bcc was built for over the format
string of a probe.  This file puts the six parsers side by side.

* `Arch.advances_iff` — the calls that stay inside the string and move on, and
  `Arch.location_safe_iff`, the same for a whole run of the loop;
* `Arch.accepted_wellFormed_iff` — the calls whose accepted argument is well formed.
-/

/-- The architectures with an argument parser. -/
inductive Arch where
  | x64
  | aarch64
  | loongarch64
  | powerpc64
  | s390x
  | riscv64
  deriving DecidableEq, Repr

namespace Arch

/-- `Argument arg; parser.parse(&arg)` with the cursor at `curPos`. -/
def parse (A : Arch) (s : CStr) : Nat → Res ParseOut :=
  match A with
  | x64 => X64.parse s Argument.empty
  | aarch64 => Aarch64.parse s Argument.empty
  | loongarch64 => Loongarch64.parse s Argument.empty
  | powerpc64 => Powerpc64.parse s Argument.empty
  | s390x => S390x.parse s Argument.empty
  | riscv64 => Riscv64.parse s Argument.empty

/-- `Location::Location`: the arguments of a format string, or `none` if a parser throws.
    The fuel allows as many calls of `parse` as the string has characters. -/
def location (A : Arch) (fmt : CStr) : Res (Option (List Argument)) :=
  parseLoop (A.parse fmt) fmt fmt.length 0

/-! ### Calls that stay inside the string -/

/-- The texts from which a call stays inside the string and moves the cursor on: on x86-64 the
    operand is not cut off by the end of the string, on s390x a number in front of `@` fits an
    `int`. -/
def StepSafe : Arch → List Char → Prop
  | x64, t => X64.truncated t = false
  | s390x, t => (search S390x.sizeRx t).isSome → stoi (sizeText t) ≠ none
  | _, _ => True

variable {A : Arch} {s : CStr} {p : Nat}

/-- **One call.**  It reads only inside the string and moves the cursor on exactly from the
    texts of `StepSafe`. -/
theorem advances_iff (A : Arch) (h : p < s.length) :
    Advances (A.parse s) s p ↔ A.StepSafe (s.chars.drop p) := by
  cases A with
  | x64 => exact X64.parse_advances_iff h rfl
  | aarch64 =>
    refine iff_of_true ?_ trivial
    unfold Advances
    simp only [parse, Aarch64.parse_eq h]
    exact Outcome.exists_run h (outcomeOf_inside Aarch64.register_spec _ _)
      (fun _ _ => outcomeOf_accept_pos)
  | loongarch64 =>
    refine iff_of_true ?_ trivial
    unfold Advances
    simp only [parse, Loongarch64.parse_eq h]
    exact Outcome.exists_run h (outcomeOf_inside Loongarch64.register_spec _ _)
      (fun _ _ => outcomeOf_accept_pos)
  | powerpc64 =>
    exact iff_of_true ((parseRx_advances_iff Powerpc64.frame h _).mpr
      (fun _ _ => stoi_of_digitSize)) trivial
  | s390x =>
    rw [parse, S390x.parse, parseRx_advances_iff S390x.frame h]
    constructor
    · intro hall hsome
      obtain ⟨⟨c, t₁⟩, hm⟩ := Option.isSome_iff_exists.mp hsome
      rw [← (size_of_search (by decide) hm).2.1]
      exact hall c t₁ hm
    · intro hfit c t₁ hm
      rw [(size_of_search (by decide) hm).2.1]
      exact hfit (Option.isSome_iff_exists.mpr ⟨_, hm⟩)
  | riscv64 =>
    exact iff_of_true ((parseRx_advances_iff Riscv64.frame h _).mpr
      (fun _ _ => stoi_of_digitSize)) trivial

/-- **The whole loop.**  Every call it makes reads only inside the string and moves the cursor
    on, and it ends within `strlen` calls, exactly if every position it comes to stand at has
    a text of `StepSafe`. -/
theorem location_safe_iff (A : Arch) (s : CStr) :
    ((∀ p, Reaches (A.parse s) s p → p < s.length → Advances (A.parse s) s p)
        ∧ ∃ r, A.location s = .ok r)
      ↔ ∀ p, Reaches (A.parse s) s p → p < s.length → A.StepSafe (s.chars.drop p) := by
  constructor
  · rintro ⟨hadv, -⟩ p hp hlt
    exact (advances_iff A hlt).mp (hadv p hp hlt)
  · intro hsafe
    have hadv : ∀ p, Reaches (A.parse s) s p → p < s.length → Advances (A.parse s) s p :=
      fun p hp hlt => (advances_iff A hlt).mpr (hsafe p hp hlt)
    exact ⟨hadv, parseLoop_ok_of_advances hadv s.length 0 .refl (by omega)⟩

/-- A symbol name without its address makes the x86-64 parser read past the terminating NUL;
    a size that does not fit makes the s390x parser throw with the cursor where it was. -/
theorem location_leaves_string :
    x64.location (CStr.ofString "foo") = .error .outOfBounds
      ∧ s390x.parse (CStr.ofString "2147483648@%r2") 0 = .ok ⟨.threw, Argument.empty, 0⟩ := by
  constructor <;> rfl

/-! ### Accepted arguments -/

/-- The texts from which a call at `p` accepts an argument that is not well formed: on x86-64
    see `X64.IllFormed`; on s390x an index register without displacement. -/
def IllFormed : Arch → Nat → List Char → Prop
  | x64, p, t => X64.IllFormed p t
  | s390x, _, t => (search S390x.sizeRx t).isSome ∧ stoi (sizeText t) ≠ none
      ∧ (search S390x.memRx (operandText t)).isSome
      ∧ peek (operandText t) = '(' ∧ ',' ∈ token (operandText t)
  | _, _, _ => False

variable {d : Argument}

/-- What the parsers of aarch64 and loongarch64 accept. -/
theorem bracket_accepted {startsReg : Char → Bool} {bare : Argument → Argument} {q : Nat}
    {registerAt : List Char → Except Nat (Nat × String)}
    (ha : (outcomeOf startsReg registerAt bare (s.chars.drop p) Argument.empty).run s p
      = .ok ⟨.accepted, d, q⟩) :
    ∃ m size, sizeAt (s.chars.drop p) = some (m, size)
      ∧ peek ((s.chars.drop p).drop m) = '@'
      ∧ ValueShape startsReg registerAt bare (operandText (s.chars.drop p))
          { Argument.empty with argSize := some size } d := by
  obtain ⟨n, hn⟩ := Outcome.of_run_accepted ha
  exact outcomeOf_accept hn

/-- What the parsers with patterns accept: a size and an operand. -/
theorem rx_accepted {a : Regex} {operand : List Char → Argument → Matched} {q : Nat}
    (hf : FrameSpec (seq (group 1 a) (chr '@')) operand) (hat : inClass a.alphabet '@' = false)
    (h : p < s.length)
    (ha : parseRx (seq (group 1 a) (chr '@')) operand s Argument.empty p = .ok ⟨.accepted, d, q⟩) :
    ∃ n rest, (search (seq (group 1 a) (chr '@')) (s.chars.drop p)).isSome
      ∧ stoi (sizeText (s.chars.drop p)) = some n
      ∧ operand (operandText (s.chars.drop p)) { Argument.empty with argSize := some n }
          = .yes rest d := by
  obtain ⟨c, t₁, n, rest, hs, hn, hop⟩ := (parseRx_accepted_iff hf h Argument.empty d).mp ⟨q, ha⟩
  obtain ⟨-, hstr, htext, -⟩ := size_of_search hat hs
  exact ⟨n, rest, by rw [hs]; rfl, hstr ▸ hn, htext ▸ hop⟩

/-- The s390x parser accepts a memory operand without displacement, whatever stands in the
    parentheses. -/
theorem s390x_accepts_bare (h : p < s.length)
    (hs : (search S390x.sizeRx (s.chars.drop p)).isSome)
    (hn : stoi (sizeText (s.chars.drop p)) ≠ none)
    (hm : (search S390x.memRx (operandText (s.chars.drop p))).isSome)
    (hp : peek (operandText (s.chars.drop p)) = '(') :
    ∃ d q rest n, s390x.parse s p = .ok ⟨.accepted, d, q⟩
      ∧ S390x.operand (operandText (s.chars.drop p)) { Argument.empty with argSize := some n }
          = .yes rest d := by
  obtain ⟨⟨c, t₁⟩, hs⟩ := Option.isSome_iff_exists.mp hs
  obtain ⟨n, hn⟩ := Option.ne_none_iff_exists'.mp hn
  obtain ⟨-, hstr, htext, -⟩ := size_of_search (by decide) hs
  obtain ⟨rest, d, hop⟩ :=
    S390x.operand_of_memRx hm hp { Argument.empty with argSize := some n }
  obtain ⟨q, hq⟩ := (parseRx_accepted_iff S390x.frame h Argument.empty d).mpr
    ⟨c, t₁, n, rest, hs, hstr ▸ hn, htext ▸ hop⟩
  exact ⟨d, q, rest, n, hq, hop⟩

variable {t rest : List Char}

/-- What the operand patterns accept is well formed, except that on s390x an index register
    may come without displacement. -/
theorem s390x_wellFormed_iff {n : Int}
    (h : S390x.operand t { Argument.empty with argSize := some n } = .yes rest d) :
    d.WellFormed ↔ ¬ ((search S390x.memRx t).isSome ∧ peek t = '(' ∧ ',' ∈ token t) := by
  obtain ⟨-, ⟨v, rfl, hno, -⟩ | ⟨r, rfl, hno⟩ | ⟨hm, hparen, off, r, idx, rfl, hoff, hidx⟩⟩ :=
    S390x.operand_cases h
  · refine iff_of_true ⟨by simp [Argument.empty], by simp [Argument.empty]⟩ ?_
    rintro ⟨hm, -⟩
    obtain ⟨m, hm⟩ := Option.isSome_iff_exists.mp hm
    exact hno (S390x.memRx_cases (mem_run_of_search hm)).1
  · refine iff_of_true ⟨by simp [Argument.empty], by simp [Argument.empty]⟩ ?_
    rintro ⟨hm, -⟩
    obtain ⟨m, hm⟩ := Option.isSome_iff_exists.mp hm
    exact hno (S390x.memRx_cases (mem_run_of_search hm)).1
  · rcases hoff with ⟨hp, rfl⟩ | ⟨hp, hsome⟩
    · rcases hidx with ⟨hc, hi⟩ | ⟨hc, rfl⟩
      · exact iff_of_false (fun hwf => absurd (hwf.deref (.inl hi)) (by simp [Argument.empty]))
          (not_not.mpr ⟨hm, hp, hc⟩)
      · exact iff_of_true ⟨by simp [Argument.empty], by simp [Argument.empty]⟩
          (fun hx => hc hx.2.2)
    · exact iff_of_true ⟨by simp [Argument.empty], fun _ => hsome⟩ (fun hx => hp hx.2.1)

theorem powerpc64_wellFormed {n : Int}
    (h : Powerpc64.operand t { Argument.empty with argSize := some n } = .yes rest d) :
    d.WellFormed := by
  obtain ⟨-, ⟨v, rfl, -⟩ | ⟨r, rfl, -⟩ | ⟨off, r, rfl, -⟩ | ⟨r, r', rfl, -⟩⟩ :=
    Powerpc64.operand_cases h <;>
  exact ⟨by simp [Argument.empty], by simp [Argument.empty]⟩

theorem riscv64_wellFormed {n : Int}
    (h : Riscv64.operand t { Argument.empty with argSize := some n } = .yes rest d) :
    d.WellFormed := by
  obtain ⟨-, ⟨v, rfl, -⟩ | ⟨r, rfl, -⟩ | ⟨off, r, rfl, -⟩⟩ := Riscv64.operand_cases h <;>
  exact ⟨by simp [Argument.empty], by simp [Argument.empty]⟩

/-- Every accepted argument is well formed, except from the texts of `IllFormed`. -/
theorem wellFormed_iff (A : Arch) (h : p < s.length) :
    (∀ d q, A.parse s p = .ok ⟨.accepted, d, q⟩ → d.WellFormed)
      ↔ ¬ A.IllFormed p (s.chars.drop p) := by
  cases A with
  | x64 => exact X64.accepted_wellFormed_iff h
  | aarch64 =>
    refine iff_of_true ?_ not_false
    intro d q ha
    obtain ⟨m, size, -, -, hv⟩ := bracket_accepted ((Aarch64.parse_eq h _).symm.trans ha)
    exact hv.wellFormed (fun e => ⟨some 0, rfl⟩)
  | loongarch64 =>
    refine iff_of_true ?_ not_false
    intro d q ha
    obtain ⟨m, size, -, -, hv⟩ := bracket_accepted ((Loongarch64.parse_eq h _).symm.trans ha)
    exact hv.wellFormed (fun e => ⟨e.derefOffset, rfl⟩)
  | powerpc64 =>
    refine iff_of_true ?_ not_false
    intro d q ha
    obtain ⟨n, rest, -, -, hop⟩ := rx_accepted Powerpc64.frame (by decide) h ha
    exact powerpc64_wellFormed hop
  | s390x =>
    constructor
    · rintro hall ⟨hs, hn, hm, hp, hc⟩
      obtain ⟨d, q, rest, n, hq, hop⟩ := s390x_accepts_bare h hs hn hm hp
      exact (s390x_wellFormed_iff hop).mp (hall d q hq) ⟨hm, hp, hc⟩
    · intro hill d q ha
      obtain ⟨n, rest, hs, hn, hop⟩ := rx_accepted S390x.frame (by decide) h ha
      refine (s390x_wellFormed_iff hop).mpr (fun hx => hill ⟨hs, by simp [hn], hx⟩)
  | riscv64 =>
    refine iff_of_true ?_ not_false
    intro d q ha
    obtain ⟨n, rest, -, -, hop⟩ := rx_accepted Riscv64.frame (by decide) h ha
    exact riscv64_wellFormed hop

/-- **Accepted arguments.**  Every argument a call accepts is well formed, and
    `assign_to_local` never dereferences an absent optional on it, exactly if the text at the
    cursor is not one of `IllFormed`. -/
theorem accepted_usable_iff (A : Arch) (s : CStr) (p : Nat) (h : p < s.length) :
    (∀ d q, A.parse s p = .ok ⟨.accepted, d, q⟩ →
        d.WellFormed
          ∧ ∀ globals binpath pid, ∃ r, d.assignToLocal globals binpath pid = .ok r)
      ↔ ¬ A.IllFormed p (s.chars.drop p) := by
  rw [← wellFormed_iff A h]
  constructor
  · intro hall d q ha
    exact (hall d q ha).1
  · intro hall d q ha
    have hwf := hall d q ha
    exact ⟨hwf, fun globals binpath pid => assignToLocal_of_wellFormed globals hwf binpath pid⟩

/-- The call that accepts `4@%eax` leaves a usable argument. -/
theorem accepted_usable_eax :
    ∃ d q, x64.parse (CStr.ofString "4@%eax") 0 = .ok ⟨.accepted, d, q⟩ ∧ d.WellFormed
      ∧ ∀ globals binpath pid, ∃ r, d.assignToLocal globals binpath pid = .ok r := by
  have hiff := accepted_usable_iff x64 (CStr.ofString "4@%eax") 0 (by decide)
  refine ⟨_, _, rfl, hiff.mpr ?_ _ _ rfl⟩
  rintro (⟨-, h⟩ | ⟨⟨h, -⟩, -⟩)
  · cases h
  · cases h

/-- A lone `$`, and a blank at the very start, are accepted as arguments that
    `assign_to_local` cannot read; an index register without displacement is accepted on
    s390x. -/
theorem accepts_unusable :
    (∃ d q, x64.parse (CStr.ofString "8@$") 0 = .ok ⟨.accepted, d, q⟩ ∧ ¬ d.WellFormed
        ∧ d.assignToLocal (fun _ _ _ => none) "" none = .error .absentValue)
      ∧ (∃ d q, x64.parse (CStr.ofString " %rax") 0 = .ok ⟨.accepted, d, q⟩ ∧ ¬ d.WellFormed
        ∧ d.assignToLocal (fun _ _ _ => none) "" none = .error .absentValue)
      ∧ ∃ d q, s390x.parse (CStr.ofString "8@(%r1,%r2)") 0 = .ok ⟨.accepted, d, q⟩
        ∧ ¬ d.WellFormed :=
  ⟨⟨_, _, rfl, by decide, rfl⟩, ⟨_, _, rfl, by decide, rfl⟩, ⟨_, _, rfl, by decide⟩⟩

end Arch

end Bcc.Usdt
