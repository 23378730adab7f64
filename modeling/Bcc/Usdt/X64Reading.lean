import Bcc.Usdt.X64

namespace Bcc.Usdt.X64

open CText List

/-!
# USDT — the x86-64 parser over the remaining text

The positions of `ArgumentParser_x64` only say how much text is left.  `operandAt` and the
functions it is made of restate the parser over that text, with success and failure kept
apart in `Reading`; what is proved about operands is proved on this level.

* `operandAt` — the operand at the start of a text, and where it ends or fails;
* `parse1_eq` — the parser of the source reads the remaining text: its result is the
  encoding of `operandAt`.
-/

/-! ### The parser over the remaining text -/

/-- How far an operand was read: up to an end, or to the place where it fails.  Positions
    count from the start of the operand. -/
inductive Reading where
  | stop (n : Nat) (dest : Argument)
  | fail (n : Nat) (dest : Argument)
  deriving DecidableEq, Repr

/-- The position encoding of the source, for an operand that starts at `pos`. -/
def Reading.encode (pos : Nat) : Reading → Int × Argument
  | .stop n dest => ((pos : Int) + n, dest)
  | .fail n dest => (-((pos : Int) + n), dest)

variable (n : Nat) (r : List Char) (dest : Argument)

/-- The length of the identifier at the start of a text; `0` if there is none. -/
def identLen : Nat :=
  if (peek r).isAlpha || peek r == '_' then 1 + (r.tail.takeWhile isIdentChar).length else 0

/-- The identifier at the start of a text, if there is one. -/
def identAt (result : Option String) : Option String :=
  if 0 < identLen r then some (String.ofList (r.take (identLen r))) else result

/-- The register at the start of a text: its length, normalised name and size. -/
def registerAt : Option (Nat × String × Int) :=
  if peek r = '%' then
    let name := r.tail.takeWhile Char.isAlphanum
    (normalizeRegister (String.ofList name)).map (fun e => (1 + name.length, e.1, e.2))
  else none

/-- The `int` at the start of a text, if there is one. -/
def intAt (result : Option Int) : Option Int :=
  if 0 < (strtol r).1 then some (toInt32 (strtol r).2) else result

/-- `)`; the text `r` is at offset `n`. -/
def closeAt : Reading :=
  if peek r = ')' then .stop (n + 1) dest else .fail n dest

/-- `scale)`. -/
def scaleAt : Reading :=
  closeAt (n + (strtol r).1) (r.drop (strtol r).1) { dest with scale := intAt r dest.scale }

/-- A register, and then either `,` and what `R` reads or `)`. -/
def registerThen (f : String → Int → Argument) (R : Nat → List Char → Argument → Reading) (n : Nat)
    (r : List Char) (dest : Argument) : Reading :=
  match registerAt r with
  | none => .fail (n + 1) dest
  | some (k, name, size) =>
      if peek (r.drop k) = ',' then R (n + k + 1) (r.drop (k + 1)) (f name size)
      else closeAt (n + k) (r.drop k) (f name size)

/-- `%index)` or `%index,scale)`. -/
def indexAt : Reading :=
  registerThen (fun name _ => { dest with indexRegisterName := some name }) scaleAt n r dest

/-- `%base)`, `%base,%index)` or `%base,%index,scale)`. -/
def baseAt : Reading :=
  registerThen (withBase dest) indexAt n r dest

/-- `(` and the registers. -/
def addressAt : Reading :=
  if peek r = '(' then baseAt (n + 1) r.tail dest else .fail n dest

/-- `off(…)` or `off+ident(…)`. -/
def offsetFirstAt : Reading :=
  let k := (strtol r).1
  let dest := { dest with derefOffset := intAt r dest.derefOffset }
  if peek (r.drop k) = '+' then
    let j := identLen (r.drop (k + 1))
    let ident := identAt (r.drop (k + 1)) dest.derefIdent
    if ident.isNone then .fail (n + k + 1 + j) { dest with derefIdent := ident }
    else addressAt (n + k + 1 + j) (r.drop (k + 1 + j)) { dest with derefIdent := ident }
  else addressAt (n + k) (r.drop k) dest

/-- `(…)`, `ident(…)`, `ident+off(…)` or `ident-off(…)`. -/
def identFirstAt : Reading :=
  let j := identLen r
  let dest := { dest with derefOffset := some 0, derefIdent := identAt r dest.derefIdent }
  if peek (r.drop j) = '+' ∨ peek (r.drop j) = '-' then
    let k := (strtol (r.drop j)).1
    addressAt (n + j + k) (r.drop (j + k))
      { dest with derefOffset := intAt (r.drop j) dest.derefOffset }
  else addressAt (n + j) (r.drop j) dest

/-- A constant, a register or an operand in memory. -/
def exprAt : Reading :=
  if peek r = '$' then
    .stop (n + 1 + (strtoull r.tail).1)
      { dest with constant :=
          if 0 < (strtoull r.tail).1 then some (strtoull r.tail).2 else dest.constant }
  else if peek r = '%' then
    match registerAt r with
    | none => .fail (n + 1) dest
    | some (k, name, size) => .stop (n + k) (withBase dest name size)
  else if (peek r).isDigit || peek r == '-' then offsetFirstAt n r dest
  else identFirstAt n r dest

/-- The length of the size prefix `N@` at the start of a text; `0` if there is none. -/
def sizeAt : Nat :=
  if ((peek r).isDigit || peek r == '-') && 0 < (strtol r).1 && peek (r.drop (strtol r).1) == '@'
  then (strtol r).1 + 1 else 0

/-- An operand: the optional size, and the expression. -/
def operandAt : Reading :=
  if sizeAt r = 0 then exprAt 0 r dest
  else exprAt (sizeAt r) (r.drop (sizeAt r)) { dest with argSize := intAt r none }

/-! ### The two agree -/

section Agreement

variable {s : CStr} {pos : Nat}

theorem identLen_le (r : List Char) : identLen r ≤ r.length := by
  unfold identLen
  split
  · rename_i h
    cases r with
    | nil => cases h
    | cons c cs =>
      have : (cs.takeWhile isIdentChar).length ≤ cs.length := (takeWhile_sublist _).length_le
      simp only [tail_cons, length_cons]
      omega
  · exact Nat.zero_le _

theorem parseIdentifier_eq (h : pos ≤ s.length) (result : Option String) :
    parseIdentifier s pos result
      = .ok (pos + identLen (s.chars.drop pos), identAt (s.chars.drop pos) result) := by
  rw [parseIdentifier, CStr.read_eq h, ok_bind]
  by_cases hc : ((peek (s.chars.drop pos)).isAlpha || peek (s.chars.drop pos) == '_') = true
  · have hlt : pos + 1 ≤ s.length := by
      have := identLen_le (s.chars.drop pos)
      rw [identLen, if_pos hc, length_drop] at this
      omega
    have hlen : identLen (s.chars.drop pos)
        = 1 + ((s.chars.drop (pos + 1)).takeWhile isIdentChar).length := by
      rw [identLen, if_pos hc, tail_drop]
    have hsub : pos + 1 + ((s.chars.drop (pos + 1)).takeWhile isIdentChar).length - pos
        = identLen (s.chars.drop pos) := by omega
    rw [if_pos hc, CStr.skipWhile_eq _ hlt, ok_bind, hsub, identAt, if_pos (by omega)]
    congr 2; omega
  · have hlen : identLen (s.chars.drop pos) = 0 := by rw [identLen, if_neg hc]
    rw [if_neg hc, identAt, hlen]
    rfl

/-- The position encoding of a register that was read, or not, at `pos`. -/
def encodeRegister (pos : Nat) : Option (Nat × String × Int) → Int × String × Int
  | none => (-((pos : Int) + 1), "", 0)
  | some (k, name, size) => ((pos : Int) + k, name, size)

theorem parseRegister_eq (h : pos ≤ s.length) :
    parseRegister s pos = .ok (encodeRegister pos (registerAt (s.chars.drop pos))) := by
  have hread : s.read (pos + 1 - 1) = .ok (peek (s.chars.drop pos)) := CStr.read_eq h
  show (s.read (pos + 1 - 1) >>= _) = _
  rw [hread]
  by_cases hc : peek (s.chars.drop pos) = '%'
  · have hlt : pos + 1 ≤ s.length := succ_le_of_peek hc (by decide)
    have hsub : pos + 1 + ((s.chars.drop (pos + 1)).takeWhile Char.isAlphanum).length - (pos + 1)
        = ((s.chars.drop (pos + 1)).takeWhile Char.isAlphanum).length := by omega
    have htake : (s.chars.drop (pos + 1)).take
        ((s.chars.drop (pos + 1)).takeWhile Char.isAlphanum).length
        = (s.chars.drop (pos + 1)).takeWhile Char.isAlphanum :=
      (prefix_iff_eq_take.mp (List.takeWhile_prefix _)).symm
    rw [registerAt, tail_drop]
    simp only [hc, bne_self_eq_false, Bool.false_eq_true, if_false, CStr.skipWhile_eq _ hlt,
      ok_bind, hsub, CStr.substr, htake]
    cases normalizeRegister _ with
    | none => simp [encodeRegister]
    | some e =>
      simp only
      congr 2; omega
  · rw [registerAt]
    simp [hc, encodeRegister]

/-- A register that was read lies inside the text. -/
theorem registerAt_bounds {r : List Char} {k : Nat} {name : String} {size : Int}
    (h : registerAt r = some (k, name, size)) : 0 < k ∧ k ≤ r.length := by
  unfold registerAt at h
  split at h
  · rename_i hc
    rw [eq_cons_of_peek hc (by decide)] at h ⊢
    simp only [tail_cons, Option.map_eq_some_iff, Prod.mk.injEq] at h
    have : (r.tail.takeWhile Char.isAlphanum).length ≤ r.tail.length :=
      (takeWhile_sublist _).length_le
    rw [length_cons]
    omega
  · cases h

/-- What is done with a register that was read. -/
theorem parseRegister_then_eq (h : pos ≤ s.length) (dest : Argument) (f : String → Int → Argument) :
    (parseRegister s pos >>= fun r => if r.1 < 0 then return (r.1, dest)
      else return (r.1, f r.2.1 r.2.2)) = .ok (match registerAt (s.chars.drop pos) with
        | none => (-((pos : Int) + 1), dest)
        | some (k, name, size) => ((pos : Int) + k, f name size)) := by
  rw [parseRegister_eq h, ok_bind]
  cases registerAt (s.chars.drop pos) with
  | none =>
    have : -((pos : Int) + 1) < 0 := by omega
    simp only [encodeRegister, this, if_true, pure_eq_ok]
  | some e =>
    have : ¬ (pos : Int) + e.1 < 0 := by omega
    simp [encodeRegister, this]

theorem parseBaseRegister_eq (h : pos ≤ s.length) (dest : Argument) :
    parseBaseRegister s pos dest = .ok (match registerAt (s.chars.drop pos) with
      | none => (-((pos : Int) + 1), dest)
      | some (k, name, size) => ((pos : Int) + k, withBase dest name size)) :=
  parseRegister_then_eq h dest (withBase dest)

theorem parseIndexRegister_eq (h : pos ≤ s.length) (dest : Argument) :
    parseIndexRegister s pos dest = .ok (match registerAt (s.chars.drop pos) with
      | none => (-((pos : Int) + 1), dest)
      | some (k, name, _) => ((pos : Int) + k, { dest with indexRegisterName := some name })) :=
  parseRegister_then_eq h dest fun name _ => { dest with indexRegisterName := some name }

/-- The parser goes on according to the character it is at. -/
theorem read_beq_eq {α : Type} {x : Char} (hx : x ≠ nul) (f : α → Int × Argument)
    {A B : Res (Int × Argument)} {a b : α} (h : pos ≤ s.length)
    (hA : pos + 1 ≤ s.length → A = .ok (f a)) (hB : B = .ok (f b)) :
    (s.read pos >>= fun c => if c == x then A else B)
      = .ok (f (if peek (s.chars.drop pos) = x then a else b)) := by
  rw [CStr.read_eq h]
  by_cases hc : peek (s.chars.drop pos) = x
  · simp [hc, hA (succ_le_of_peek hc hx)]
  · simp [hc, hB]

variable {n : Nat}

section

variable (h : pos + n ≤ s.length)
include h

variable (dest : Argument)

theorem parseClose_eq :
    parseClose s (pos + n) dest
      = .ok ((closeAt n (s.chars.drop (pos + n)) dest).encode pos) := by
  refine read_beq_eq (by decide) (Reading.encode pos) h (fun _ => ?_) ?_
  · simp [Reading.encode, Int.add_assoc]
  · simp [Reading.encode]

/-- Reading on after `k` characters of the text at `pos + n`. -/
theorem add_le_length {k : Nat} (hk : k ≤ (s.chars.drop (pos + n)).length) :
    pos + (n + k) ≤ s.length := by
  rw [length_drop] at hk; omega

/-- Reading on after a register, and after the comma behind it. -/
theorem register_then_eq {x : Res (Int × Argument)} {dest : Argument} {f : String → Int → Argument}
    (hx : x = .ok (match registerAt (s.chars.drop (pos + n)) with
      | none => (-(((pos + n : Nat) : Int) + 1), dest)
      | some (k, name, size) => (((pos + n : Nat) : Int) + k, f name size)))
    {g : Nat → Argument → Res (Int × Argument)} {R : Nat → List Char → Argument → Reading}
    (hg : ∀ m d, pos + m ≤ s.length →
      g (pos + m) d = .ok ((R m (s.chars.drop (pos + m)) d).encode pos)) :
    (x >>= fun r => if r.1 < 0 then return (r.1, r.2)
      else s.read r.1.toNat >>= fun c => if c == ',' then g (r.1.toNat + 1) r.2
        else parseClose s r.1.toNat r.2)
      = .ok ((registerThen f R n (s.chars.drop (pos + n)) dest).encode pos) := by
  rw [registerThen]
  rw [hx, ok_bind]
  cases hreg : registerAt (s.chars.drop (pos + n)) with
  | none =>
    have : -(((pos + n : Nat) : Int) + 1) < 0 := by omega
    simp only [this]
    congr 2
  | some e =>
    obtain ⟨k, name, size⟩ := e
    have hk := add_le_length h (registerAt_bounds hreg).2
    have hnat : (((pos + n : Nat) : Int) + (k : Int)).toNat = pos + (n + k) := by omega
    simp only [hnat, drop_drop, Nat.add_assoc]
    exact read_beq_eq (by decide) (Reading.encode pos) hk (fun hlt => hg (n + (k + 1)) _ hlt)
      (parseClose_eq hk _)

theorem parseIndex_eq :
    parseIndex s (pos + n) dest
      = .ok ((indexAt n (s.chars.drop (pos + n)) dest).encode pos) := by
  refine register_then_eq h (parseIndexRegister_eq h dest)
    (g := fun p d => parseScale s p d >>= fun r => parseClose s r.1 r.2) fun m d hm => ?_
  have hscale := parseClose_eq (add_le_length hm (strtol_used_le (s.chars.drop (pos + m))))
  simp only [parseScale, parseInt_eq hm, ok_bind, pure_eq_ok, scaleAt, drop_drop, Nat.add_assoc]
  exact hscale _

theorem parseAddress_eq :
    parseAddress s (pos + n) dest
      = .ok ((addressAt n (s.chars.drop (pos + n)) dest).encode pos) := by
  rw [parseAddress, CStr.read_eq h, addressAt]
  by_cases hc : peek (s.chars.drop (pos + n)) = '('
  · have hlt : pos + (n + 1) ≤ s.length := succ_le_of_peek hc (by decide)
    simp only [hc, tail_drop]
    exact register_then_eq hlt (parseBaseRegister_eq hlt dest) fun _ _ hm => parseIndex_eq hm _
  · simp [hc, Reading.encode]

/-- A displacement, and a symbol behind it. -/
theorem parseOffsetFirst_eq :
    (parseInt s (pos + n) dest.derefOffset >>= fun r => s.read r.1 >>= fun c =>
      if c == '+' then parseIdentifier s (r.1 + 1) dest.derefIdent >>= fun i =>
        if i.2.isNone then
          return (-(i.1 : Int), { dest with derefOffset := r.2, derefIdent := i.2 })
        else parseAddress s i.1 { dest with derefOffset := r.2, derefIdent := i.2 }
      else parseAddress s r.1 { dest with derefOffset := r.2 })
      = .ok ((offsetFirstAt n (s.chars.drop (pos + n)) dest).encode pos) := by
  have hn := add_le_length h (strtol_used_le _)
  rw [parseInt_eq h, ok_bind]
  simp only [offsetFirstAt, drop_drop, Nat.add_assoc]
  refine read_beq_eq (by decide) (Reading.encode pos) hn (fun hlt => ?_) (parseAddress_eq hn _)
  have hj := add_le_length hlt (identLen_le _)
  simp only [Nat.add_assoc] at hlt hj
  rw [parseIdentifier_eq hlt, ok_bind]
  cases hid : identAt (s.chars.drop _) dest.derefIdent with
  | none =>
    simp only [Option.isNone_none, if_true]
    congr 2; omega
  | some ident =>
    simp only [Option.isNone_some, Bool.false_eq_true, if_false, Nat.add_assoc]
    exact parseAddress_eq hj _

theorem parseMemory_eq :
    parseMemory s (pos + n) dest
      = .ok ((if (peek (s.chars.drop (pos + n))).isDigit || peek (s.chars.drop (pos + n)) == '-'
          then offsetFirstAt n (s.chars.drop (pos + n)) dest
          else identFirstAt n (s.chars.drop (pos + n)) dest).encode pos) := by
  rw [parseMemory, CStr.read_eq h, ok_bind]
  split
  · exact parseOffsetFirst_eq h dest
  -- the symbol, if any, comes first
  have hn := add_le_length h (identLen_le _)
  rw [parseIdentifier_eq h, identFirstAt]
  simp only [drop_drop, Nat.add_assoc, CStr.read_eq hn, ok_bind, Bool.or_eq_true, beq_iff_eq]
  split
  · have hk := add_le_length hn (strtol_used_le _)
    simp only [Nat.add_assoc] at hk
    simp only [parseInt_eq hn, ok_bind, Nat.add_assoc]
    exact parseAddress_eq hk _
  · exact parseAddress_eq hn _

theorem parseExpr_eq :
    parseExpr s (pos + n) dest
      = .ok ((exprAt n (s.chars.drop (pos + n)) dest).encode pos) := by
  rw [parseExpr, CStr.read_eq h, ok_bind, exprAt]
  simp only [beq_iff_eq]
  split
  · next hd =>
    have hlt : pos + n + 1 ≤ s.length := succ_le_of_peek hd (by decide)
    simp only [parseLongLong_eq hlt, ok_bind, tail_drop]
    congr 2; omega
  split
  · rw [parseBaseRegister_eq h]
    cases registerAt (s.chars.drop (pos + n)) with
    | none => congr 2
    | some e => simp only; congr 2; omega
  · simp [parseMemory_eq h]

end

/-- **The parser of the source reads the remaining text.** -/
theorem parse1_eq (h : pos ≤ s.length) (dest : Argument) :
    parse1 s pos dest = .ok ((operandAt (s.chars.drop pos) dest).encode pos) := by
  have h0 : pos + 0 ≤ s.length := h
  have hexpr : parseExpr s pos dest = .ok ((exprAt 0 (s.chars.drop pos) dest).encode pos) :=
    parseExpr_eq h0 dest
  rw [parse1, CStr.read_eq h, ok_bind]
  unfold operandAt sizeAt
  by_cases hc : ((peek (s.chars.drop pos)).isDigit || peek (s.chars.drop pos) == '-') = true
  · have hm : pos + (strtol (s.chars.drop pos)).1 ≤ s.length := by
      have := add_le_length h0 (strtol_used_le _)
      simpa using this
    simp only [hc, parseInt_eq h, ok_bind, CStr.read_eq hm, drop_drop]
    set k := (strtol (s.chars.drop pos)).1 with hk
    by_cases hpos : 0 < k
    · by_cases hat : peek (s.chars.drop (pos + k)) = '@'
      · have hlt : pos + (k + 1) ≤ s.length := succ_le_of_peek hat (by decide)
        simp only [hat]
        rw [Nat.add_assoc pos k 1, parseExpr_eq hlt]
        simp [intAt, ← hk, hpos]
      · simp [hat, hexpr]
    · simp [hpos, hexpr]
  · have hc' : ((peek (s.chars.drop pos)).isDigit || peek (s.chars.drop pos) == '-') = false := by
      simpa using hc
    simp [hc', hexpr]

end Agreement

end Bcc.Usdt.X64
