import Bcc.Text.Regex
import Bcc.Usdt.Parser

namespace Bcc.Usdt

open CText Regex

/-!
# USDT — the powerpc64, s390x and riscv64 argument parsers

* `parseRx` — matches the text at the cursor against a regular expression for the size prefix, and
  then against one for each kind of operand;
* `parseRx_advances_iff` — nobody catches what `std::stoi` and `std::stoull` throw.
-/

/-! ### The shared frame -/

/-- What a chain of operand patterns makes of a text. -/
inductive Matched where
  /-- None of the patterns matches. -/
  | no
  /-- A number conversion throws. -/
  | threw
  /-- A pattern matches: the text behind the match, and the filled argument. -/
  | yes (rest : List Char) (dest : Argument)
  deriving DecidableEq, Repr

/-- The error path: skip the rest of the token and the white space behind it. -/
def mismatch (s : CStr) (dest : Argument) (curPos : Nat) : Res ParseOut := do
  let pos ← skipUntilWhitespaceFrom s curPos
  let pos ← skipWhitespaceFrom s pos
  return ⟨.rejected, dest, pos⟩

/-- `parse`.  `matches.length(0)` is the difference in length of the text before and behind
    the match. -/
def parseRx (sizeRx : Regex) (operand : List Char → Argument → Matched)
    (s : CStr) (dest : Argument) (curPos : Nat) : Res ParseOut := do
  if ← done s curPos then return ⟨.rejected, dest, curPos⟩
  let t ← s.text curPos
  match search sizeRx t with
  | none => mismatch s dest curPos
  | some (c, t₁) =>
    match stoi (c.str 1) with
    | none => return ⟨.threw, dest, curPos⟩
    | some n =>
      let dest := { dest with argSize := some n }
      let curPos := curPos + (t.length - t₁.length)
      match operand t₁ dest with
      | .no => mismatch s dest curPos
      | .threw => return ⟨.threw, dest, curPos⟩
      | .yes rest dest => acceptAt s dest (curPos + (t₁.length - rest.length))

/-- A branch that stores the constant in group 1. -/
def constBranch (dest : Argument) (m : Captures × List Char) : Matched :=
  match stoull (m.1.str 1) with
  | none => .threw
  | some v => .yes m.2 { dest with constant := some v }

/-- A branch that stores the displacement in group 1 and the base register in group 2. -/
def offsetBranch (name : List Char → String) (dest : Argument) (m : Captures × List Char) :
    Matched :=
  match stoi (m.1.str 1) with
  | none => .threw
  | some off => .yes m.2
      { dest with derefOffset := some off, baseRegisterName := some (name (m.1.str 2)) }

/-! ### The patterns -/

/-- `-?[0-9]+` -/
def numberRx : Regex := seq (opt (chr '-')) (many [('0', '9')])

/-- ` +|$` -/
def blankRx : Regex := alt (many [(' ', ' ')]) eos

/-- `^(\-?[1248])\@` -/
def digitSizeRx : Regex :=
  seq (group 1 (seq (opt (chr '-')) (cls [('1', '1'), ('2', '2'), ('4', '4'), ('8', '8')])))
    (chr '@')

namespace Powerpc64

/-- `[1-2]?[0-9]|3[0-1]` -/
def regNumRx : Regex :=
  alt (seq (opt (cls [('1', '2')])) (cls [('0', '9')])) (seq (chr '3') (cls [('0', '1')]))

/-- `(?:%r)?([1-2]?[0-9]|3[0-1])`, as group `i` -/
def regRefRx (i : Nat) : Regex := seq (opt (lit ['%', 'r'])) (group i regNumRx)

/-- `^i(\-?[0-9]+)( +|$)` -/
def constRx : Regex := seq (seq (chr 'i') (group 1 numberRx)) (group 2 blankRx)

/-- `^(?:%r)?([1-2]?[0-9]|3[0-1])( +|$)` -/
def regRx : Regex := seq (regRefRx 1) (group 2 blankRx)

/-- `^(\-?[0-9]+)\((?:%r)?([1-2]?[0-9]|3[0-1])\)( +|$)` -/
def bregOffRx : Regex :=
  seq (group 1 numberRx) (seq (chr '(') (seq (regRefRx 2) (seq (chr ')') (group 3 blankRx))))

/-- `^(?:%r)?([1-2]?[0-9]|3[0-1])\,(?:%r)?([1-2]?[0-9]|3[0-1])( +|$)` -/
def bregIregRx : Regex :=
  seq (regRefRx 1) (seq (chr ',') (seq (regRefRx 2) (group 3 blankRx)))

/-- The name of a general purpose register. -/
def gpr (num : List Char) : String := "gpr[" ++ String.ofList num ++ "]"

/-- The chain of operand patterns. -/
def operand (t : List Char) (dest : Argument) : Matched :=
  match search constRx t with
  | some m => constBranch dest m
  | none => match search regRx t with
    | some m => .yes m.2 { dest with baseRegisterName := some (gpr (m.1.str 1)) }
    | none => match search bregOffRx t with
      | some m => offsetBranch gpr dest m
      | none => match search bregIregRx t with
        | some m => .yes m.2 { dest with
            derefOffset := some 0
            baseRegisterName := some (gpr (m.1.str 1))
            indexRegisterName := some (gpr (m.1.str 2))
            scale := dest.argSize.map (fun n => (n.natAbs : Int)) }
        | none => .no

/-- `ArgumentParser_powerpc64::parse`. -/
def parse : CStr → Argument → Nat → Res ParseOut := parseRx digitSizeRx operand

end Powerpc64

namespace S390x

/-- `%r([0-9]|1[0-5])`, as group `i` -/
def regRefRx (i : Nat) : Regex :=
  seq (lit ['%', 'r']) (group i (alt (cls [('0', '9')]) (seq (chr '1') (cls [('0', '5')]))))

/-- `^(-?[0-9]+)@` -/
def sizeRx : Regex := seq (group 1 numberRx) (chr '@')

/-- `^(-?[0-9]+)(?: +|$)` -/
def immRx : Regex := seq (group 1 numberRx) blankRx

/-- `^%r([0-9]|1[0-5])(?: +|$)` -/
def regRx : Regex := seq (regRefRx 1) blankRx

/-- `^(-?[0-9]+)?\(%r([0-9]|1[0-5])(?:,%r([0-9]|1[0-5]))?\)(?: +|$)` -/
def memRx : Regex :=
  seq (opt (group 1 numberRx))
    (seq (chr '(') (seq (regRefRx 2)
      (seq (opt (seq (chr ',') (regRefRx 3))) (seq (chr ')') blankRx))))

/-- The name of a general purpose register. -/
def gprs (num : List Char) : String := "gprs[" ++ String.ofList num ++ "]"

/-- The memory branch: a displacement that is not there stays unset, and so does an index
    register. -/
def memBranch (dest : Argument) (m : Captures × List Char) : Matched :=
  let fill (dest : Argument) : Matched :=
    .yes m.2 { dest with
      baseRegisterName := some (gprs (m.1.str 2))
      indexRegisterName :=
        if 0 < (m.1.str 3).length then some (gprs (m.1.str 3)) else dest.indexRegisterName }
  if 0 < (m.1.str 1).length then
    match stoi (m.1.str 1) with
    | none => .threw
    | some off => fill { dest with derefOffset := some off }
  else fill dest

/-- The chain of operand patterns. -/
def operand (t : List Char) (dest : Argument) : Matched :=
  match search immRx t with
  | some m => constBranch dest m
  | none => match search regRx t with
    | some m => .yes m.2 { dest with baseRegisterName := some (gprs (m.1.str 1)) }
    | none => match search memRx t with
      | some m => memBranch dest m
      | none => .no

/-- `ArgumentParser_s390x::parse`. -/
def parse : CStr → Argument → Nat → Res ParseOut := parseRx sizeRx operand

end S390x

namespace Riscv64

/-- `((a[0-9])|((s[0-9p])|s1[0-1])|(t[0-6p])|(pc)|(ra)|(fp)|(gp))`, its groups numbered from
    `i` -/
def regStrRx (i : Nat) : Regex :=
  group i
    (alt (group (i + 1) (seq (chr 'a') (cls [('0', '9')])))
    (alt (group (i + 2) (alt (group (i + 3) (seq (chr 's') (cls [('0', '9'), ('p', 'p')])))
        (seq (lit ['s', '1']) (cls [('0', '1')]))))
    (alt (group (i + 4) (seq (chr 't') (cls [('0', '6'), ('p', 'p')])))
    (alt (group (i + 5) (lit ['p', 'c']))
    (alt (group (i + 6) (lit ['r', 'a']))
    (alt (group (i + 7) (lit ['f', 'p']))
    (group (i + 8) (lit ['g', 'p']))))))))

/-- `^(\-?[0-9]+)( +|$)` -/
def constRx : Regex := seq (group 1 numberRx) (group 2 blankRx)

/-- `^` reg_str `( +|$)` -/
def regRx : Regex := seq (regStrRx 1) (group 10 blankRx)

/-- `^(\-?[0-9]+)\(` reg_str `\)( +|$)` -/
def bregOffRx : Regex :=
  seq (group 1 numberRx) (seq (chr '(') (seq (regStrRx 2) (seq (chr ')') (group 11 blankRx))))

/-- The chain of operand patterns. -/
def operand (t : List Char) (dest : Argument) : Matched :=
  match search constRx t with
  | some m => constBranch dest m
  | none => match search regRx t with
    | some m => .yes m.2 { dest with baseRegisterName := some (String.ofList (m.1.str 1)) }
    | none => match search bregOffRx t with
      | some m => offsetBranch String.ofList dest m
      | none => .no

/-- `ArgumentParser_riscv64::parse`. -/
def parse : CStr → Argument → Nat → Res ParseOut := parseRx digitSizeRx operand

end Riscv64

/-! ### What a call does -/

section Frame

variable {s : CStr} {pos : Nat}

/-- The error path stays inside the string and, before the end, moves on. -/
theorem mismatch_ok (dest : Argument) (h : pos ≤ s.length) :
    ∃ q, mismatch s dest pos = .ok ⟨.rejected, dest, q⟩ ∧ pos ≤ q ∧ q ≤ s.length
      ∧ (pos < s.length → pos < q) := by
  set a := ((s.chars.drop pos).takeWhile (fun c => !isspace c)).length with ha
  have h1 : pos + a ≤ s.length := CStr.skip_le_length _ h
  have h2 := CStr.skip_le_length isspace h1
  refine ⟨pos + a + ((s.chars.drop (pos + a)).takeWhile isspace).length, ?_, by omega, h2, ?_⟩
  · rw [mismatch, skipUntilWhitespaceFrom_eq h, ok_bind, skipWhitespaceFrom_eq h1]
    rfl
  · intro hlt
    obtain ⟨c, cs, hr⟩ := List.exists_cons_of_ne_nil (drop_ne_nil hlt)
    by_cases hc : isspace c = true
    · -- no token to skip, but at least this white space
      have ha0 : a = 0 := by rw [ha, hr]; simp [hc]
      rw [ha0, Nat.add_zero, hr, List.takeWhile_cons_of_pos hc, List.length_cons]
      omega
    · have : 0 < a := by rw [ha, hr]; simp [hc]
      omega

variable {sizeRx : Regex} {operand : List Char → Argument → Matched}

/-- A size pattern takes at least one character, and a chain of operand patterns leaves a
    rest of the text. -/
structure FrameSpec (sizeRx : Regex) (operand : List Char → Argument → Matched) : Prop where
  size_lt : ∀ {t c t₁}, search sizeRx t = some (c, t₁) → t₁.length < t.length
  rest_le : ∀ {t rest dest d}, operand t dest = .yes rest d → rest.length ≤ t.length

theorem parseRx_eq (h : pos < s.length) (dest : Argument) :
    parseRx sizeRx operand s dest pos = match search sizeRx (s.chars.drop pos) with
      | none => mismatch s dest pos
      | some (c, t₁) =>
        match stoi (c.str 1) with
        | none => .ok ⟨.threw, dest, pos⟩
        | some n =>
          match operand t₁ { dest with argSize := some n } with
          | .no => mismatch s { dest with argSize := some n } (pos + (s.length - pos - t₁.length))
          | .threw => .ok ⟨.threw, { dest with argSize := some n },
              pos + (s.length - pos - t₁.length)⟩
          | .yes rest d => acceptAt s d
              (pos + (s.length - pos - t₁.length) + (t₁.length - rest.length)) := by
  rw [parseRx, done_eq (le_of_lt h), ok_bind, decide_eq_false (by omega),
    CStr.text_eq (le_of_lt h), ok_bind, length_drop]
  cases search sizeRx (s.chars.drop pos) with
  | none => rfl
  | some m =>
    dsimp only
    cases stoi (m.1.str 1) with
    | none => rfl
    | some n =>
      cases operand m.2 { dest with argSize := some n } <;> rfl

/-- A call reads only inside the string, and moves on unless the size does not fit. -/
theorem parseRx_advances_iff (hf : FrameSpec sizeRx operand) (h : pos < s.length)
    (dest : Argument) :
    Advances (parseRx sizeRx operand s dest) s pos
      ↔ ∀ c t₁, search sizeRx (s.chars.drop pos) = some (c, t₁) → stoi (c.str 1) ≠ none := by
  unfold Advances
  rw [parseRx_eq h]
  cases hsz : search sizeRx (s.chars.drop pos) with
  | none =>
    obtain ⟨q, hq, -, hle, hlt⟩ := mismatch_ok dest (le_of_lt h)
    exact iff_of_true ⟨_, hq, hlt h, hle⟩ (by simp)
  | some m =>
    obtain ⟨c, t₁⟩ := m
    have hlen := hf.size_lt hsz
    rw [length_drop] at hlen
    dsimp only
    cases hst : stoi (c.str 1) with
    | none =>
      refine iff_of_false ?_ (fun hno => hno c t₁ rfl hst)
      rintro ⟨out, ho, hlt, -⟩
      cases ho
      exact absurd hlt (Nat.lt_irrefl _)
    | some n =>
      refine iff_of_true ?_ ?_
      · dsimp only
        set k := pos + (s.length - pos - t₁.length) with hk
        have hk1 : pos < k := by omega
        cases hop : operand t₁ { dest with argSize := some n } with
        | no =>
          obtain ⟨q, hq, hge, hle, -⟩ :=
            @mismatch_ok s k { dest with argSize := some n } (by omega)
          exact ⟨_, hq, by dsimp only; omega, hle⟩
        | threw => exact ⟨_, rfl, hk1, by dsimp only; omega⟩
        | yes rest d =>
          have hin : k + (t₁.length - rest.length) ≤ s.length := by omega
          have := CStr.skip_le_length isspace hin
          exact ⟨_, acceptAt_eq hin d, by dsimp only; omega, this⟩
      · intro c' t' heq
        cases heq
        simp [hst]

/-- What a call accepts. -/
theorem parseRx_accepted_iff (hf : FrameSpec sizeRx operand) (h : pos < s.length)
    (dest d : Argument) :
    (∃ q, parseRx sizeRx operand s dest pos = .ok ⟨.accepted, d, q⟩)
      ↔ ∃ c t₁ n rest, search sizeRx (s.chars.drop pos) = some (c, t₁)
          ∧ stoi (c.str 1) = some n
          ∧ operand t₁ { dest with argSize := some n } = .yes rest d := by
  rw [parseRx_eq h]
  cases hsz : search sizeRx (s.chars.drop pos) with
  | none =>
    obtain ⟨q, hq, -⟩ := mismatch_ok dest (le_of_lt h)
    simp [hq]
  | some m =>
    obtain ⟨c, t₁⟩ := m
    have hlen := hf.size_lt hsz
    rw [length_drop] at hlen
    dsimp only
    cases hst : stoi (c.str 1) with
    | none => simp [hst]
    | some n =>
      dsimp only
      cases hop : operand t₁ { dest with argSize := some n } with
      | no =>
        obtain ⟨q, hq, -⟩ := @mismatch_ok s (pos + (s.length - pos - t₁.length))
          { dest with argSize := some n } (by omega)
        simp [hq, hst, hop]
      | threw => simp [hst, hop]
      | yes rest e =>
        have hin : pos + (s.length - pos - t₁.length) + (t₁.length - rest.length) ≤ s.length := by
          omega
        simp only [acceptAt_eq hin e]
        constructor
        · rintro ⟨q, hq⟩
          cases hq
          exact ⟨c, t₁, n, rest, rfl, hst, hop⟩
        · rintro ⟨c', t', n', rest', heq, hst', hop'⟩
          cases heq
          rw [hst] at hst'
          cases hst'
          rw [hop] at hop'
          cases hop'
          exact ⟨_, rfl⟩

end Frame

end Bcc.Usdt
