import Bcc.Usdt.Bracket

namespace Bcc.Usdt

open CText List

/-!
# USDT — the aarch64 and loongarch64 parsers, without positions

* `outcomeOf` — the parsers of `Bcc.Usdt.Bracket` on the text that remains;
* `parseOf_eq` — the agreement.
-/

/-! ### The parsers on the remaining text -/

/-- How a parser, or a part of it, ends: behind `n` characters with a filled argument, or in
    `error_return` there. -/
inductive Outcome where
  | accept (n : Nat) (dest : Argument)
  | reject (n : Nat) (dest : Argument)
  deriving DecidableEq, Repr

namespace Outcome

/-- The same end, seen from `k` characters before. -/
def shift (k : Nat) : Outcome → Outcome
  | accept n d => accept (k + n) d
  | reject n d => reject (k + n) d

/-- The end of a call of `parse` at `pos`. -/
def run (s : CStr) (pos : Nat) : Outcome → Res ParseOut
  | accept n d => acceptAt s d (pos + n)
  | reject n d => rejectAt s d (pos + n)

/-- The end of a part of `parse` that starts at `pos`. -/
def filled (s : CStr) (pos : Nat) : Outcome → Res Filled
  | accept n d => .ok (.go (pos + n) d)
  | reject n d => do return .fail (← errorReturn s (pos + n)) d

/-- It ends inside a text of the given length. -/
def Inside (len : Nat) : Outcome → Prop
  | accept n _ => n ≤ len
  | reject n _ => n ≤ len

theorem Inside.shift {o : Outcome} {k len len' : Nat} (h : o.Inside len) (hk : k + len ≤ len') :
    (o.shift k).Inside len' := by
  cases o <;> simp only [Outcome.shift, Inside] at h ⊢ <;> omega

theorem run_shift (s : CStr) (pos k : Nat) (o : Outcome) :
    (o.shift k).run s pos = o.run s (pos + k) := by
  cases o <;> simp only [shift, run, Nat.add_assoc]

theorem filled_shift (s : CStr) (pos k : Nat) (o : Outcome) :
    (o.shift k).filled s pos = o.filled s (pos + k) := by
  cases o <;> simp only [shift, filled, Nat.add_assoc]

/-- What `parse` makes of the end of one of its parts. -/
theorem run_eq_filled (s : CStr) (pos : Nat) (o : Outcome) :
    (do match ← o.filled s pos with
        | .fail q d => return ⟨.rejected, d, q⟩
        | .go newPos d => acceptAt s d newPos) = o.run s pos := by
  cases o with
  | accept n d => rfl
  | reject n d =>
    simp only [filled, run, rejectAt]
    cases errorReturn s (pos + n) <;> rfl

end Outcome

/-- The register at the start of `r`: its length and name, or where `error_return` starts. -/
def registerAtOf (marker : List Char) (sp : Int) (r : List Char) : Except Nat (Nat × String) :=
  if marker.isPrefixOf r then
    let u := strtol (r.drop marker.length)
    if u.1 = 0 ∨ toInt32 u.2 < 0 ∨ 31 < toInt32 u.2 then .error marker.length
    else .ok (marker.length + u.1, registerName sp (toInt32 u.2))
  else if ['s', 'p'].isPrefixOf r then .ok (2, "sp")
  else .error 0

/-- The size at the start of `r`: the length of its text and its value. -/
def sizeAt (r : List Char) : Option (Nat × Int) :=
  if (strtol r).1 = 0 then none
  else if (toInt32 (strtol r).2).natAbs ∈ [1, 2, 4, 8] then
    some ((strtol r).1, toInt32 (strtol r).2)
  else none

/-- What stands behind the comma of a memory operand. -/
def offsetAt (registerAt : List Char → Except Nat (Nat × String)) (r : List Char)
    (dest : Argument) : Outcome :=
  if (strtol r).1 = 0 then
    let w := (r.takeWhile isspace).length
    match registerAt (r.drop w) with
    | .error _ => .reject w dest
    | .ok (k, name) => .accept (w + k)
        { dest with indexRegisterName := some name, scale := some 1, derefOffset := some 0 }
  else .accept (strtol r).1 { dest with derefOffset := some (toInt32 (strtol r).2) }

/-- The closing bracket of a memory operand whose inside ends with the outcome. -/
def closeAt (r : List Char) : Outcome → Outcome
  | .reject n d => .reject n d
  | .accept n d => if peek (r.drop n) = ']' then .accept (n + 1) d else .reject n d

/-- The memory operand whose inside starts at `r`; `bare` is what happens to the argument
    when the bracket closes right behind the base register. -/
def memAtOf (registerAt : List Char → Except Nat (Nat × String)) (bare : Argument → Argument)
    (r : List Char) (dest : Argument) : Outcome :=
  match registerAt r with
  | .error k => .reject k dest
  | .ok (k, name) =>
    let d := { dest with baseRegisterName := some name }
    if peek (r.drop k) = ',' then
      closeAt r ((offsetAt registerAt (r.drop (k + 1)) d).shift (k + 1))
    else if peek (r.drop k) = ']' then .accept (k + 1) (bare d)
    else .reject k d

/-- The value behind `<size>@`. -/
def valueAtOf (startsReg : Char → Bool) (registerAt : List Char → Except Nat (Nat × String))
    (bare : Argument → Argument) (t : List Char) (dest : Argument) : Outcome :=
  if startsReg (peek t) then
    match registerAt t with
    | .error k => .reject k dest
    | .ok (k, name) => .accept k { dest with baseRegisterName := some name }
  else if peek t = '[' then (memAtOf registerAt bare (t.drop 1) dest).shift 1
  else if (strtoull t).1 = 0 then .reject 0 dest
  else .accept (strtoull t).1 { dest with constant := some (strtoull t).2 }

/-- The operand at the start of `r`. -/
def outcomeOf (startsReg : Char → Bool) (registerAt : List Char → Except Nat (Nat × String))
    (bare : Argument → Argument) (r : List Char) (dest : Argument) : Outcome :=
  match sizeAt r with
  | none => .reject 0 dest
  | some (n, size) =>
    let d := { dest with argSize := some size }
    if peek (r.drop n) = '@' then
      (valueAtOf startsReg registerAt bare (r.drop (n + 1)) d).shift (n + 1)
    else .reject n d

namespace Aarch64

def registerAt : List Char → Except Nat (Nat × String) := registerAtOf ['x'] 31

/-- The operand at the start of `r`. -/
def operandAt : List Char → Argument → Outcome :=
  outcomeOf (fun c => c == 'x' || c == 's') registerAt (fun d => { d with derefOffset := some 0 })

end Aarch64

namespace Loongarch64

def registerAt : List Char → Except Nat (Nat × String) := registerAtOf ['$', 'r'] 3

/-- The operand at the start of `r`. -/
def operandAt : List Char → Argument → Outcome :=
  outcomeOf (fun c => c == '$' || c == 's') registerAt id

end Loongarch64

/-! ### Agreement -/

section Agreement

variable {s : CStr} {pos : Nat}

theorem startsAt_eq {m : List Char} (hm : nul ∉ m) (h : pos ≤ s.length) :
    startsAt s pos m = .ok (m.isPrefixOf (s.chars.drop pos)) := by
  induction m generalizing pos with
  | nil => rfl
  | cons x xs ih =>
    have hx : x ≠ nul := fun he => hm (he ▸ mem_cons_self)
    rw [startsAt, CStr.read_eq h, ok_bind]
    by_cases hc : peek (s.chars.drop pos) = x
    · have hcons := eq_cons_of_peek hc hx
      have hlt : pos + 1 ≤ s.length := succ_le_of_peek hc hx
      rw [ih (fun hmem => hm (mem_cons_of_mem _ hmem)) hlt, hcons]
      simp
    · rw [beq_eq_false_iff_ne.mpr hc]
      cases hr : s.chars.drop pos with
      | nil => rfl
      | cons c cs =>
        rw [hr, peek_cons] at hc
        simp [List.isPrefixOf, beq_eq_false_iff_ne.mpr (Ne.symm hc)]

/-- A register read at `pos` in the words of `parse_register`. -/
def encodeRegister (s : CStr) (pos : Nat) :
    Except Nat (Nat × String) → Res (Except Nat (Nat × String))
  | .ok (k, name) => .ok (.ok (pos + k, name))
  | .error k => do return .error (← errorReturn s (pos + k))

/-- `parse_register` and its reading of the remaining text belong together. -/
structure RegisterSpec (parseRegister : CStr → Nat → Res (Except Nat (Nat × String)))
    (registerAt : List Char → Except Nat (Nat × String)) : Prop where
  agree : ∀ {s : CStr} {pos : Nat}, pos ≤ s.length →
    parseRegister s pos = encodeRegister s pos (registerAt (s.chars.drop pos))
  ok_le : ∀ {r k name}, registerAt r = .ok (k, name) → 0 < k ∧ k ≤ r.length
  error_le : ∀ {r k}, registerAt r = .error k → k ≤ r.length

theorem length_le_of_isPrefixOf {m r : List Char} (h : m.isPrefixOf r = true) :
    m.length ≤ r.length := (List.isPrefixOf_iff_prefix.mp h).length_le

theorem parseRegisterOf_spec {marker : List Char} (hm : nul ∉ marker) (sp : Int) :
    RegisterSpec (parseRegisterOf marker sp) (registerAtOf marker sp) where
  agree := by
    intro s pos h
    rw [parseRegisterOf, registerAtOf, startsAt_eq hm h, ok_bind]
    by_cases hpre : marker.isPrefixOf (s.chars.drop pos) = true
    · have hlen := length_le_of_isPrefixOf hpre
      rw [length_drop] at hlen
      rw [if_pos hpre, if_pos hpre]
      dsimp only
      rw [parseInt_eq (by omega), ok_bind, drop_drop]
      set u := strtol (s.chars.drop (pos + marker.length))
      by_cases h0 : u.1 = 0
      · simp [h0, encodeRegister]
      · simp only [h0, Nat.add_eq_left, Nat.pos_iff_ne_zero, ne_eq, not_false_eq_true, if_true,
          if_false, false_or]
        split
        · simp [encodeRegister]
        · simp [encodeRegister, Nat.add_assoc]
    · rw [if_neg hpre, if_neg hpre, startsAt_eq (by decide) h, ok_bind]
      by_cases hsp : ['s', 'p'].isPrefixOf (s.chars.drop pos) = true
      · rw [if_pos hsp, if_pos hsp]
        rfl
      · rw [if_neg hsp, if_neg hsp]
        rfl
  ok_le := by
    intro r k name h
    unfold registerAtOf at h
    split at h
    · have hu := strtol_used_le (r.drop marker.length)
      rw [List.length_drop] at hu
      dsimp only at h
      split at h
      · cases h
      · obtain ⟨rfl, -⟩ := Prod.mk.inj (Except.ok.inj h)
        omega
    · split at h
      · rename_i hsp
        cases h
        exact ⟨by omega, length_le_of_isPrefixOf hsp⟩
      · cases h
  error_le := by
    intro r k h
    unfold registerAtOf at h
    split at h
    · rename_i hpre
      dsimp only at h
      split at h
      · cases h
        exact length_le_of_isPrefixOf hpre
      · cases h
    · split at h
      · cases h
      · cases h
        exact Nat.zero_le _

theorem parseSize_eq (h : pos ≤ s.length) :
    parseSize s pos = match sizeAt (s.chars.drop pos) with
      | none => do return .error (← errorReturn s pos)
      | some (n, size) => .ok (.ok (pos + n, size)) := by
  rw [parseSize, parseInt_eq h, ok_bind, sizeAt]
  set u := strtol (s.chars.drop pos)
  by_cases h0 : u.1 = 0
  · simp [h0]
  · simp only [h0, Nat.add_eq_left, Nat.pos_iff_ne_zero, ne_eq, not_false_eq_true, if_true,
      if_false]
    by_cases hsz : (toInt32 u.2).natAbs ∈ [1, 2, 4, 8]
    · simp only [if_pos hsz, pure_eq_ok]
    · simp only [if_neg hsz]

theorem sizeAt_bounds {r : List Char} {n : Nat} {size : Int} (h : sizeAt r = some (n, size)) :
    0 < n ∧ n ≤ r.length := by
  unfold sizeAt at h
  have hle := strtol_used_le r
  split at h
  · cases h
  · split at h
    · obtain ⟨rfl, -⟩ := Prod.mk.inj (Option.some.inj h)
      omega
    · cases h

/-- Inside the string `error_return` does not fault. -/
theorem exists_errorReturn (h : pos ≤ s.length) : ∃ q, errorReturn s pos = .ok q :=
  ⟨_, errorReturn_eq h⟩

section Members

variable {parseRegister : CStr → Nat → Res (Except Nat (Nat × String))}
  {registerAt : List Char → Except Nat (Nat × String)}

theorem closeMem_eq {o : Outcome} (h : pos ≤ s.length)
    (ho : o.Inside (s.chars.drop pos).length) :
    (do closeMem s (← o.filled s pos)) = (closeAt (s.chars.drop pos) o).filled s pos := by
  rw [length_drop] at ho
  cases o with
  | reject n d =>
    simp only [Outcome.filled, closeAt]
    cases errorReturn s (pos + n) <;> rfl
  | accept n d =>
    have hn : pos + n ≤ s.length := by
      simp only [Outcome.Inside] at ho
      omega
    simp only [Outcome.filled, ok_bind, closeMem, closeAt, CStr.read_eq hn]
    by_cases hc : peek (s.chars.drop (pos + n)) = ']'
    · simp [hc, Nat.add_assoc]
    · simp [hc]

/-- The closing bracket behind the base register. -/
theorem closeMem_go_eq {k : Nat} (h : pos + k ≤ s.length) (dest : Argument) :
    closeMem s (.go (pos + k) dest)
      = (closeAt (s.chars.drop pos) (.accept k dest)).filled s pos := by
  have hlen := length_drop s pos
  exact closeMem_eq (o := .accept k dest) (by omega) (show k ≤ _ by omega)

/-- `parse_mem` of both parsers: `bare` is for what `[reg]` leaves. -/
def parseMemOf (parseRegister : CStr → Nat → Res (Except Nat (Nat × String)))
    (bare : Argument → Argument) (s : CStr) (pos : Nat) (dest : Argument) : Res Filled := do
  match ← parseRegister s pos with
  | .error q => return .fail q dest
  | .ok (newPos, base) =>
    let dest := { dest with baseRegisterName := some base }
    let c ← s.read newPos
    if c == ',' then closeMem s (← parseOffset parseRegister s newPos dest)
    else if c == ']' then closeMem s (.go newPos (bare dest))
    else closeMem s (.go newPos dest)

variable (hreg : RegisterSpec parseRegister registerAt)
include hreg

theorem parseOffset_eq (h : pos + 1 ≤ s.length) (dest : Argument) :
    parseOffset parseRegister s pos dest
      = (offsetAt registerAt (s.chars.drop (pos + 1)) dest).filled s (pos + 1) := by
  rw [parseOffset, parseInt_eq h, ok_bind, offsetAt]
  by_cases h0 : (strtol (s.chars.drop (pos + 1))).1 = 0
  · have hle := CStr.skip_le_length isspace h
    simp only [h0, skipWhitespaceFrom_eq h, ok_bind, hreg.agree hle, drop_drop]
    cases hr : registerAt (s.chars.drop
        (pos + 1 + ((s.chars.drop (pos + 1)).takeWhile isspace).length)) with
    | error k =>
      -- `parse_register` has left through `error_return` already; the cursor is set again
      have hk := hreg.error_le hr
      rw [length_drop] at hk
      obtain ⟨q, hq⟩ := @exists_errorReturn s
        (pos + 1 + ((s.chars.drop (pos + 1)).takeWhile isspace).length + k) (by omega)
      simp [encodeRegister, hq, Outcome.filled]
    | ok p =>
      simp [encodeRegister, Outcome.filled, Nat.add_assoc]
  · simp only [h0, Nat.add_eq_left, Nat.pos_iff_ne_zero, ne_eq]
    rfl

theorem offsetAt_inside (r : List Char) (dest : Argument) :
    (offsetAt registerAt r dest).Inside r.length := by
  unfold offsetAt
  have hw : (r.takeWhile isspace).length ≤ r.length := (takeWhile_sublist _).length_le
  by_cases h0 : (strtol r).1 = 0
  · rw [if_pos h0]
    dsimp only
    cases hr : registerAt (r.drop (r.takeWhile isspace).length) with
    | error k => exact hw
    | ok p =>
      have := (hreg.ok_le hr).2
      rw [List.length_drop] at this
      show _ + p.1 ≤ _
      omega
  · rw [if_neg h0]
    exact strtol_used_le r

/-- The comma branch of `parse_mem`, from the start of the operand. -/
theorem closeMem_parseOffset_eq {k : Nat} (hc : peek (s.chars.drop (pos + k)) = ',')
    (dest : Argument) :
    (do closeMem s (← parseOffset parseRegister s (pos + k) dest))
      = (closeAt (s.chars.drop pos)
          ((offsetAt registerAt (s.chars.drop (pos + k + 1)) dest).shift
            (k + 1))).filled s pos := by
  have hlt : pos + k + 1 ≤ s.length := succ_le_of_peek hc (by decide)
  have hin := offsetAt_inside hreg (s.chars.drop (pos + k + 1)) dest
  have hlen1 := length_drop s (pos + k + 1)
  have hlen2 := length_drop s pos
  rw [← closeMem_eq (by omega) (hin.shift (by omega)), Outcome.filled_shift,
    parseOffset_eq hreg hlt, Nat.add_assoc]

theorem memAtOf_inside (bare : Argument → Argument) (r : List Char) (dest : Argument) :
    (memAtOf registerAt bare r dest).Inside r.length := by
  have hclose : ∀ o : Outcome, o.Inside r.length → (closeAt r o).Inside r.length := by
    intro o ho
    cases o with
    | reject n d => exact ho
    | accept n d =>
      simp only [closeAt]
      split
      · rename_i hc
        exact succ_le_of_peek hc (by decide)
      · exact ho
  unfold memAtOf
  cases hr : registerAt r with
  | error k => exact hreg.error_le hr
  | ok p =>
    have hk := (hreg.ok_le hr).2
    dsimp only
    split
    · rename_i hc
      have := succ_le_of_peek hc (by decide)
      refine hclose _ ((offsetAt_inside hreg _ _).shift ?_)
      rw [List.length_drop]
      omega
    · split
      · rename_i hc
        exact succ_le_of_peek hc (by decide)
      · exact hk

theorem parseMemOf_eq (bare : Argument → Argument) (h : pos ≤ s.length) (dest : Argument) :
    parseMemOf parseRegister bare s pos dest
      = (memAtOf registerAt bare (s.chars.drop pos) dest).filled s pos := by
  rw [parseMemOf, hreg.agree h, memAtOf]
  cases hr : registerAt (s.chars.drop pos) with
  | error k =>
    simp only [encodeRegister, Outcome.filled]
    cases errorReturn s (pos + k) <;> rfl
  | ok p =>
    obtain ⟨k, name⟩ := p
    have hk := (hreg.ok_le hr).2
    rw [length_drop] at hk
    have hle : pos + k ≤ s.length := by omega
    simp only [encodeRegister, ok_bind, CStr.read_eq hle]
    by_cases hc : peek (s.chars.drop (pos + k)) = ','
    · simp [hc, closeMem_parseOffset_eq hreg hc, Nat.add_assoc]
    · by_cases hb : peek (s.chars.drop (pos + k)) = ']'
      · simp [hb, closeMem_go_eq hle, closeAt]
      · simp [hc, hb, closeMem_go_eq hle, closeAt]

end Members

theorem Aarch64.register_spec : RegisterSpec Aarch64.parseRegister Aarch64.registerAt :=
  parseRegisterOf_spec (by decide) 31

theorem Loongarch64.register_spec : RegisterSpec Loongarch64.parseRegister Loongarch64.registerAt :=
  parseRegisterOf_spec (by decide) 3

theorem Aarch64.parseMem_eq (h : pos ≤ s.length) (dest : Argument) :
    Aarch64.parseMem s pos dest
      = (memAtOf Aarch64.registerAt (fun d => { d with derefOffset := some 0 })
          (s.chars.drop pos) dest).filled s pos := by
  rw [← parseMemOf_eq Aarch64.register_spec _ h dest]
  rfl

theorem Loongarch64.parseMem_eq (h : pos ≤ s.length) (dest : Argument) :
    Loongarch64.parseMem s pos dest
      = (memAtOf Loongarch64.registerAt id (s.chars.drop pos) dest).filled s pos := by
  rw [← parseMemOf_eq Loongarch64.register_spec id h dest, parseMemOf]
  simp only [id, ite_self]
  rfl

section Parse

variable {startsReg : Char → Bool}
  {parseRegister : CStr → Nat → Res (Except Nat (Nat × String))}
  {registerAt : List Char → Except Nat (Nat × String)}
  {parseMem : CStr → Nat → Argument → Res Filled} {bare : Argument → Argument}

section

variable (hreg : RegisterSpec parseRegister registerAt)
include hreg

theorem outcomeOf_inside (r : List Char) (dest : Argument) :
    (outcomeOf startsReg registerAt bare r dest).Inside r.length := by
  have hvalue : ∀ t d, (valueAtOf startsReg registerAt bare t d).Inside t.length := by
    intro t d
    unfold valueAtOf
    split
    · cases hr : registerAt t with
      | error k => exact hreg.error_le hr
      | ok p => exact (hreg.ok_le hr).2
    · split
      · rename_i hb
        have : 0 + 1 ≤ t.length := succ_le_of_peek hb (by decide)
        refine (memAtOf_inside hreg bare (t.drop 1) d).shift ?_
        rw [List.length_drop]
        omega
      · split
        · exact Nat.zero_le _
        · exact strtoull_used_le t
  unfold outcomeOf
  cases hsz : sizeAt r with
  | none => exact Nat.zero_le _
  | some p =>
    have hn := (sizeAt_bounds hsz).2
    dsimp only
    split
    · rename_i hat
      have := succ_le_of_peek hat (by decide)
      refine (hvalue _ _).shift ?_
      rw [List.length_drop]
      omega
    · exact hn

variable (hmem : ∀ {s : CStr} {pos : Nat}, pos ≤ s.length → ∀ dest, parseMem s pos dest
  = (memAtOf registerAt bare (s.chars.drop pos) dest).filled s pos)
include hmem

/-- `parse` behind `<size>@`. -/
theorem valueAtOf_eq (h : pos ≤ s.length) (dest : Argument) :
    (do
      let c ← s.read pos
      if startsReg c then
        match ← parseRegister s pos with
        | .error q => return ⟨.rejected, dest, q⟩
        | .ok (newPos, name) => acceptAt s { dest with baseRegisterName := some name } newPos
      else if c == '[' then
        match ← parseMem s (pos + 1) dest with
        | .fail q dest => return ⟨.rejected, dest, q⟩
        | .go newPos dest => acceptAt s dest newPos
      else
        let (newPos, val) ← parseLongLong s pos none
        if newPos = pos then rejectAt s dest pos
        else acceptAt s { dest with constant := val } newPos : Res ParseOut)
      = (valueAtOf startsReg registerAt bare (s.chars.drop pos) dest).run s pos := by
  rw [CStr.read_eq h, ok_bind, valueAtOf]
  by_cases hsr : startsReg (peek (s.chars.drop pos)) = true
  · rw [if_pos hsr, if_pos hsr, hreg.agree h]
    cases hr : registerAt (s.chars.drop pos) with
    | error k =>
      simp only [encodeRegister, Outcome.run, rejectAt]
      cases errorReturn s (pos + k) <;> rfl
    | ok p => rfl
  · rw [if_neg hsr, if_neg hsr]
    by_cases hb : peek (s.chars.drop pos) = '['
    · have hlt : pos + 1 ≤ s.length := succ_le_of_peek hb (by decide)
      rw [if_pos (beq_iff_eq.mpr hb), if_pos hb, Outcome.run_shift, ← Outcome.run_eq_filled,
        hmem hlt, drop_drop]
    · rw [if_neg (by simpa using hb), if_neg hb, parseLongLong_eq h]
      by_cases h0 : (strtoull (s.chars.drop pos)).1 = 0
      · simp [h0, Outcome.run]
      · simp [h0, Nat.pos_iff_ne_zero, Outcome.run]

/-- **Agreement.**  Inside the string the parser does what its reading of the remaining text
    says. -/
theorem parseOf_eq (h : pos < s.length) (dest : Argument) :
    parseOf startsReg parseRegister parseMem s dest pos
      = (outcomeOf startsReg registerAt bare (s.chars.drop pos) dest).run s pos := by
  have hle : pos ≤ s.length := le_of_lt h
  rw [parseOf, done_eq hle, decide_eq_false (by omega), outcomeOf]
  simp only [parseSize_eq hle]
  cases hsz : sizeAt (s.chars.drop pos) with
  | none =>
    simp only [Outcome.run, rejectAt]
    cases errorReturn s pos <;> rfl
  | some p =>
    obtain ⟨n, size⟩ := p
    have hn := (sizeAt_bounds hsz).2
    rw [length_drop] at hn
    have hin : pos + n ≤ s.length := by omega
    simp only [ok_bind, CStr.read_eq hin, drop_drop]
    by_cases hat : peek (s.chars.drop (pos + n)) = '@'
    · have hlt : pos + n + 1 ≤ s.length := succ_le_of_peek hat (by decide)
      simp only [hat, if_true, Outcome.run_shift]
      exact valueAtOf_eq hreg hmem hlt _
    · simp [hat, Outcome.run]

end

/-- An accepted operand is not empty. -/
theorem outcomeOf_accept_pos {r : List Char} {dest d : Argument} {n : Nat}
    (h : outcomeOf startsReg registerAt bare r dest = .accept n d) : 0 < n := by
  unfold outcomeOf at h
  cases hsz : sizeAt r with
  | none => rw [hsz] at h; cases h
  | some p =>
    obtain ⟨m, size⟩ := p
    rw [hsz] at h
    dsimp only at h
    split at h
    · cases hv : valueAtOf startsReg registerAt bare (r.drop (m + 1))
        { dest with argSize := some size } with
      | accept k e =>
        rw [hv] at h
        cases h
        omega
      | reject k e => rw [hv] at h; exact absurd h (by simp [Outcome.shift])
    · cases h

end Parse

/-- A call that ends inside the string, and behind its start if it accepts, advances. -/
theorem Outcome.exists_run {o : Outcome} (h : pos < s.length)
    (hin : o.Inside (s.chars.drop pos).length) (hacc : ∀ n d, o = .accept n d → 0 < n) :
    ∃ out, o.run s pos = .ok out ∧ pos < out.curPos ∧ out.curPos ≤ s.length := by
  rw [length_drop] at hin
  cases o with
  | accept n d =>
    have hn : n ≤ s.length - pos := hin
    have hpos := hacc n d rfl
    have := @CStr.skip_le_length s (pos + n) isspace (by omega)
    exact ⟨_, acceptAt_eq (by omega) d, by dsimp only; omega, this⟩
  | reject n d =>
    have hn : n ≤ s.length - pos := hin
    have hle := @add_errorSkip_le s (pos + n) (by omega)
    refine ⟨_, rejectAt_eq (by omega) d, ?_, hle⟩
    rcases Nat.eq_zero_or_pos n with rfl | hpos
    · have := errorSkip_pos (drop_ne_nil h)
      dsimp only
      rw [Nat.add_zero]
      omega
    · dsimp only
      omega

theorem Aarch64.parse_eq (h : pos < s.length) (dest : Argument) :
    Aarch64.parse s dest pos = (Aarch64.operandAt (s.chars.drop pos) dest).run s pos :=
  parseOf_eq Aarch64.register_spec Aarch64.parseMem_eq h dest

theorem Loongarch64.parse_eq (h : pos < s.length) (dest : Argument) :
    Loongarch64.parse s dest pos = (Loongarch64.operandAt (s.chars.drop pos) dest).run s pos :=
  parseOf_eq Loongarch64.register_spec Loongarch64.parseMem_eq h dest

end Agreement

end Bcc.Usdt
