import Bcc.Text.Format

namespace CText

open List

/-!
# C text — `sscanf`

* `sscanf` — as the GNU library has it: a number is converted as by `strtol`, that is clamped to
  `long`, and then stored in the type of its length modifier.
-/

variable {P : Type}

/-- What is stored through an argument: a number in the type of its conversion, a string (with a NUL
    behind it), or the number of characters consumed. -/
inductive Stored where
  | num (n : Nat)
  | chars (cs : List Char)
  | count (n : Nat)
  deriving DecidableEq, Repr

/-- A call of `sscanf` under way: the input that is left, the arguments that are left, the number of
    conversions done, what was stored, and the result if the call has ended. -/
structure Scanning (P : Type) where
  rest : List Char
  args : List P
  done : Nat
  stores : List (P × Stored)
  rc : Option Int

namespace Scanning

/-- The input does not match. -/
def matchFailure (st : Scanning P) : Scanning P := { st with rc := some st.done }

/-- The input has ended. -/
def inputFailure (st : Scanning P) : Scanning P :=
  { st with rc := some (if st.done = 0 then -1 else st.done) }

/-- A conversion is stored through the next argument. -/
def assign (st : Scanning P) (p : P) (args : List P) (x : Stored) (rest : List Char) : Scanning P :=
  ⟨rest, args, st.done + 1, st.stores ++ [(p, x)], st.rc⟩

end Scanning

/-- The radix of `%i`: after `0x` there have to be digits. -/
def scanfRadix (r : List Char) : Nat × Nat :=
  if peek r = '0' then
    if peek r.tail = 'x' ∨ peek r.tail = 'X' then (16, 2) else (8, 0)
  else (10, 0)

/-- Hexadecimal digits are read back. -/
theorem scanUnsigned_hex (n : Nat) {e : List Char} (he : NumberEnd e) :
    scanUnsigned scanfRadix ("0x".toList ++ hex n ++ e) = ⟨2 + (hex n).length, false, n⟩ := by
  have hradix : scanfRadix ("0x".toList ++ hex n ++ e) = (16, 2) := rfl
  have hdigits : ∀ c ∈ hex n, decide (digitVal c < 16) = true := fun c hc =>
    decide_eq_true (digitVal_lt_of_mem_hex hc)
  have hend : e.takeWhile (fun c => decide (digitVal c < 16)) = [] := by
    cases e with
    | nil => rfl
    | cons c cs =>
      have hc : digitVal c = 36 := digitVal_eq_of_not_isAlphanum he
      simp [hc]
  have htake : (("0x".toList ++ hex n ++ e).drop 2).takeWhile (fun c => decide (digitVal c < 16))
      = hex n := by
    show (hex n ++ e).takeWhile _ = _
    rw [takeWhile_append_of_pos hdigits, hend, append_nil]
  rw [scanUnsigned, hradix]
  simp only [htake, digitsValue_hex]
  simp [hex_ne_nil]

/-- A number as it is stored: clamped to `long`, then converted to the type of the modifier. -/
def Length.store (len : Length) (v : Int) : Nat :=
  (max (-2 ^ 63) (min (2 ^ 63 - 1) v) % 2 ^ len.bits).toNat

/-- One directive, in a call whose input had `total` characters. -/
def Scanning.step (total : Nat) (st : Scanning P) (d : Directive) : Res (Scanning P) :=
  if st.rc.isSome then .ok st
  else match d, st.args with
    | .literal c, _ =>
      if isspace c then .ok { st with rest := st.rest.dropWhile isspace }
      else match st.rest with
        | [] => .ok st.inputFailure
        | x :: r => .ok (if x = c then { st with rest := r } else st.matchFailure)
    | .int len, p :: args =>
      let r := st.rest.dropWhile isspace
      let m := scanSigned scanfRadix r
      if r = [] then .ok st.inputFailure
      else if m.used = 0 then .ok st.matchFailure
      else .ok (st.assign p args (.num (len.store m.value)) (r.drop m.used))
    | .upTo c, p :: args =>
      let cs := st.rest.takeWhile (· ≠ c)
      if st.rest = [] then .ok st.inputFailure
      else if cs = [] then .ok st.matchFailure
      else .ok (st.assign p args (.chars cs) (st.rest.dropWhile (· ≠ c)))
    | .count, p :: args =>
      .ok { st with args := args, stores := st.stores ++ [(p, .count (total - st.rest.length))] }
    | _, _ => .error .absentValue

/-- `sscanf(s, f, args...)`: the result, and what is stored through the arguments. -/
def sscanf (s f : List Char) (args : List P) : Res (Int × List (P × Stored)) := do
  let ds ← deref (directives f)
  let st ← ds.foldlM (Scanning.step s.length) ⟨s, args, 0, [], none⟩
  return (st.rc.getD st.done, st.stores)

/-- The directives take the arguments, consume the input up to `r'`, and store. -/
structure Consumes (ds : List Directive) (args : List P) (r r' : List Char)
    (stores : List (P × Stored)) : Prop where
  suffix : r' <:+ r
  run : ∀ total args' done stores',
    ds.foldlM (Scanning.step total) ⟨r, args ++ args', done, stores', none⟩
      = .ok ⟨r', args', done + args.length, stores' ++ stores, none⟩

namespace Consumes

variable {ds ds' : List Directive} {args args' : List P} {r r' r'' : List Char}
  {stores stores' : List (P × Stored)}

theorem nil (r : List Char) : Consumes (P := P) [] [] r r [] :=
  ⟨suffix_refl r, fun _ _ _ _ => by simp⟩

theorem append (h : Consumes ds args r r' stores) (h' : Consumes ds' args' r' r'' stores') :
    Consumes (ds ++ ds') (args ++ args') r r'' (stores ++ stores') := by
  refine ⟨h'.suffix.trans h.suffix, fun total args'' done stores'' => ?_⟩
  rw [foldlM_append, append_assoc, h.run, ok_bind, h'.run, length_append,
    Nat.add_assoc, append_assoc]

theorem single {d : Directive} (hsuffix : r' <:+ r)
    (hstep : ∀ total args' done stores',
      Scanning.step total ⟨r, args ++ args', done, stores', none⟩ d
        = .ok ⟨r', args', done + args.length, stores' ++ stores, none⟩) :
    Consumes [d] args r r' stores := by
  refine ⟨hsuffix, fun total args' done stores' => ?_⟩
  rw [foldlM_cons, hstep]
  rfl

/-- A character that is not white space. -/
theorem literal {c : Char} (hc : isspace c = false) (r : List Char) :
    Consumes (P := P) [.literal c] [] (c :: r) r [] := by
  apply single (suffix_cons c r)
  unfold Scanning.step
  simp [hc]

/-- White space, of which the input has one character. -/
theorem space (hr : isspace (peek r) = false) :
    Consumes (P := P) [.literal ' '] [] (' ' :: r) r [] := by
  have hdrop : (' ' :: r).dropWhile isspace = r := by
    cases r with
    | nil => rfl
    | cons c cs => exact dropWhile_isspace_of_head hr cs
  apply single (suffix_cons ' ' r)
  unfold Scanning.step
  simp [hdrop]

/-- A number that is written as `0x%x`. -/
theorem int (len : Length) (p : P) (n : Nat) {e : List Char} (he : NumberEnd e) :
    Consumes [.int len] [p] ("0x".toList ++ hex n ++ e) e [(p, .num (len.store n))] := by
  have hscan := scanUnsigned_hex n he
  apply single (suffix_append _ e)
  have hsigned : scanSigned scanfRadix ("0x".toList ++ hex n ++ e)
      = ⟨2 + (hex n).length, false, n⟩ := hscan
  have hdrop : ("0x".toList ++ hex n ++ e).drop (2 + (hex n).length) = e :=
    drop_left' (by rw [length_append]; rfl)
  have hspace : ("0x".toList ++ hex n ++ e).dropWhile isspace = "0x".toList ++ hex n ++ e := rfl
  unfold Scanning.step
  simp only [singleton_append, hspace, hsigned, hdrop]
  simp [Scanning.assign, Scan.value]

/-- A string in front of the character that ends it. -/
theorem upTo {c : Char} (p : P) {cs : List Char} (hne : cs ≠ []) (hc : c ∉ cs) (r : List Char) :
    Consumes [.upTo c] [p] (cs ++ c :: r) (c :: r) [(p, .chars cs)] := by
  have hcs : ∀ x ∈ cs, decide (x ≠ c) = true := fun x hx =>
    decide_eq_true (fun h => hc (h ▸ hx))
  have htake : (cs ++ c :: r).takeWhile (· ≠ c) = cs := by
    rw [takeWhile_append_of_pos hcs]
    simp
  have hdrop : (cs ++ c :: r).dropWhile (· ≠ c) = c :: r := by
    rw [dropWhile_append_of_pos hcs]
    simp
  apply single (suffix_append cs (c :: r))
  unfold Scanning.step
  simp only [singleton_append, htake, hdrop]
  simp [hne, Scanning.assign]

end Consumes

/-- **A format that ends in `%n`.**  All conversions are done, and the last argument gets the number
    of characters in front of what is left. -/
theorem sscanf_count {s f r : List Char} {ds : List Directive} {args : List P}
    {stores : List (P × Stored)} (hf : directives f = some ds) (h : Consumes ds args s r stores)
    (p : P) :
    sscanf s (f ++ "%n".toList) (args ++ [p])
      = .ok (args.length, stores ++ [(p, .count (s.length - r.length))]) := by
  have hdirectives : directives (f ++ "%n".toList) = some (ds ++ [.count]) :=
    directives_append hf rfl
  have hrun := h.run s.length [p] 0 []
  simp only [sscanf, hdirectives, deref, ok_bind, foldlM_append, hrun]
  show Except.ok (((0 + args.length : Nat) : Int), [] ++ stores ++ [(p, Stored.count _)]) = _
  rw [Nat.zero_add, nil_append]

/-- `%[^c]` with no character in front of `c` stores nothing, and the call returns zero. -/
theorem sscanf_upTo_nil (c : Char) (r : List Char) (p q : P) :
    sscanf (c :: r) ("%[^".toList ++ [c] ++ "]%n".toList) [p, q] = .ok (0, []) := by
  have hdirectives :
      directives ("%[^".toList ++ [c] ++ "]%n".toList) = some [.upTo c, .count] := rfl
  have hfails : Scanning.step (c :: r).length ⟨c :: r, [p, q], 0, [], none⟩ (.upTo c)
      = .ok (Scanning.matchFailure ⟨c :: r, [p, q], 0, [], none⟩) := by
    unfold Scanning.step
    simp
  simp only [sscanf, hdirectives, deref, ok_bind, foldlM_cons, hfails]
  rfl

end CText
