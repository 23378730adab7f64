import Bcc.Usdt.Arch

namespace Bcc.Usdt

open CText List Regex

/-!
# USDT — the two names of an argument's type

* `accepted_typed_iff` — `ctype` prints a type from its size, whatever that is; `ctype_name` looks
  it up in a table of eight, at the logarithm of the size.
-/

/-- `ctype_name()` reads inside the table, and finds the type `ctype()` prints. -/
def Argument.Typed (a : Argument) : Prop := ∃ t, a.ctypeName = .ok t ∧ t.name = ctype a.size

/-- The sizes of the types of the table. -/
def IsTypeSize (n : Int) : Prop := n.natAbs ∈ [1, 2, 4, 8]

instance (n : Int) : Decidable (IsTypeSize n) := inferInstanceAs (Decidable (_ ∈ _))

/-- Between two powers of two the table gives the smaller type, but the width is printed. -/
theorem isTypeSize_of_name : ∀ n : Fin 16, ∀ signed : Bool, ∀ t,
    (typeNames signed)[n.1.log2]? = some t →
      t.name = ctype (if signed then -(n.1 : Int) else n.1) → n.1 = 0 ∨ n.1 ∈ [1, 2, 4, 8] := by
  decide +kernel

/-- **The two names agree** exactly for the sizes of the types in the table. -/
theorem typed_iff (a : Argument) : a.Typed ↔ IsTypeSize a.size := by
  unfold Argument.Typed Argument.ctypeName
  generalize a.size = n
  constructor
  · rintro ⟨t, ht, hname⟩
    split at ht
    · cases ht
    next hzero =>
    split at ht
    · next t' hentry =>
      obtain rfl := Except.ok.inj ht
      -- the table has four columns, so the size has at most four bits
      have hlog : n.natAbs.log2 < 4 := by
        have hrow : ∀ b, (typeNames b).length = 4 := by decide
        have hlt := (List.getElem?_eq_some_iff.mp hentry).1
        rwa [hrow] at hlt
      have hbits : n.natAbs < 16 := (Nat.log2_lt (by omega)).mp hlog
      have hsign : (if decide (n < 0) = true then -((n.natAbs : Nat) : Int) else n.natAbs) = n := by
        by_cases hneg : n < 0
        · rw [if_pos (decide_eq_true hneg)]
          omega
        · rw [if_neg (by simpa using hneg)]
          omega
      rcases isTypeSize_of_name ⟨n.natAbs, hbits⟩ _ t' hentry (by rw [hsign]; exact hname) with
        hz | hsize
      · exact absurd (Int.natAbs_eq_zero.mp hz) hzero
      · exact hsize
    · cases ht
  · intro hsize
    have hcases : n ∈ [1, 2, 4, 8, -1, -2, -4, -8] := by
      simp only [IsTypeSize, mem_cons, not_mem_nil, or_false] at hsize ⊢
      omega
    have hall : ∀ m ∈ ([1, 2, 4, 8, -1, -2, -4, -8] : List Int), m ≠ 0
        ∧ ∃ t ∈ (typeNames (m < 0))[m.natAbs.log2]?, t.name = ctype m := by
      decide +kernel
    obtain ⟨hzero, t, hentry, hname⟩ := hall n hcases
    rw [if_neg hzero, Option.mem_def.mp hentry]
    exact ⟨t, rfl, hname⟩

/-! ### x86-64 -/

namespace X64

variable {n m k : Nat} {r : List Char} {dest d : Argument}

/-- The text behind the first `%`: the name of the base register of an operand that has one.
    Constants have none, nor has white space at the start of the string. -/
def baseText (t : List Char) : List Char :=
  if peek t = '$' ∨ isspace (peek t) = true then [] else (t.dropWhile (· != '%')).tail

/-- The texts that are read with the size of a type: the number in front of `@` is one, or
    there is no such number and the operand has no `xmm` register as its base. -/
def SizeFits (t : List Char) : Prop :=
  if sizeAt t = 0 then ¬ ['x', 'm', 'm'] <+: baseText t else IsTypeSize (toInt32 (strtol t).2)

/-- The sizes of the registers. -/
theorem registers_size : ∀ e ∈ registers,
    (IsTypeSize e.2.2 ↔ ¬ ['x', 'm', 'm'] <+: e.1.toList) := by
  decide +kernel

theorem prefix_takeWhile_iff {α : Type} {p : α → Bool} {l : List α} (hl : ∀ x ∈ l, p x = true)
    (r : List α) : l <+: r.takeWhile p ↔ l <+: r := by
  refine ⟨fun h => h.trans (List.takeWhile_prefix p), ?_⟩
  rintro ⟨e, rfl⟩
  rw [takeWhile_append_of_pos hl]
  exact prefix_append l _

/-- The size of a register can be told from the start of its name. -/
theorem registerAt_size {name : String} {size : Int} (h : registerAt r = some (k, name, size)) :
    peek r = '%' ∧ (IsTypeSize size ↔ ¬ ['x', 'm', 'm'] <+: r.tail) := by
  unfold registerAt at h
  split at h
  · next hpercent =>
    obtain ⟨e, he, heq⟩ := Option.map_eq_some_iff.mp h
    obtain ⟨entry, hfind, rfl⟩ := Option.map_eq_some_iff.mp he
    have hname : entry.1 = String.ofList (r.tail.takeWhile Char.isAlphanum) := by
      simpa using find?_some hfind
    have hsize : entry.2.2 = size := by
      simpa using congrArg (fun x => x.2.2) heq
    have hiff := registers_size entry (mem_of_find?_eq_some hfind)
    rw [hname, String.toList_ofList, prefix_takeWhile_iff (by simp), hsize] at hiff
    exact ⟨hpercent, hiff⟩
  · cases h

/-- The operand `r` is read with a base register, whose name stands behind the first `%`; its
    size is taken unless one is given. -/
def HasBase (r : List Char) (given : Option Int) (d : Argument) : Prop :=
  ∃ w r', r = w ++ r' ∧ '%' ∉ w ∧ ∃ k name size, registerAt r' = some (k, name, size)
    ∧ d.argSize = some (given.getD size)

theorem HasBase.of_drop {given : Option Int} (hw : '%' ∉ r.take k)
    (h : HasBase (r.drop k) given d) : HasBase r given d := by
  obtain ⟨w, r', hr, hw', hreg⟩ := h
  refine ⟨r.take k ++ w, r', ?_, ?_, hreg⟩
  · rw [append_assoc, ← hr, take_append_drop]
  · rw [mem_append, not_or]
    exact ⟨hw, hw'⟩

/-- One character in front. -/
theorem HasBase.of_tail {given : Option Int} {c : Char} (hc : peek r = c) (hne : c ≠ '%')
    (h : HasBase r.tail given d) : HasBase r given d := by
  apply HasBase.of_drop (k := 1)
  · cases r with
    | nil => exact not_mem_nil
    | cons x r =>
      obtain rfl : x = c := hc
      simpa using hne.symm
  · rwa [drop_one]

theorem hasBase_of_addressAt (h : addressAt n r dest = .stop m d) : HasBase r dest.argSize d := by
  unfold addressAt at h
  split at h
  · next hopen =>
    refine HasBase.of_tail hopen (by decide) ⟨[], r.tail, rfl, not_mem_nil, ?_⟩
    unfold baseAt registerThen at h
    split at h
    · cases h
    next k name size hreg =>
    refine ⟨k, name, size, hreg, ?_⟩
    split at h
    · obtain ⟨idx, sc, rfl⟩ := indexAt_stop h
      rfl
    · rw [closeAt_stop h]
      rfl
  · cases h

/-- No number has a `%` in it. -/
theorem percent_notMem_strtol (r : List Char) : '%' ∉ r.take (strtol r).1 :=
  fun h => absurd (strtol_numberChar r _ h) (by decide)

/-- No identifier has a `%` in it. -/
theorem percent_notMem_ident (r : List Char) : '%' ∉ r.take (identLen r) := by
  unfold identLen
  split
  · next hfirst =>
    cases r with
    | nil => exact not_mem_nil
    | cons c r =>
      rw [tail_cons, Nat.add_comm, take_succ_cons,
        ← prefix_iff_eq_take.mp (List.takeWhile_prefix isIdentChar), mem_cons, not_or]
      refine ⟨?_, fun hmem => absurd (mem_takeWhile_imp hmem) (by decide)⟩
      rintro rfl
      cases hfirst
  · exact not_mem_nil

theorem hasBase_of_offsetFirstAt (h : offsetFirstAt n r dest = .stop m d) :
    HasBase r dest.argSize d := by
  unfold offsetFirstAt at h
  apply HasBase.of_drop (percent_notMem_strtol r)
  dsimp only at h
  split at h
  · next hplus =>
    apply HasBase.of_tail hplus (by decide)
    rw [tail_drop]
    split at h
    · cases h
    · apply HasBase.of_drop (percent_notMem_ident _)
      rw [drop_drop]
      have hbase := hasBase_of_addressAt h
      exact hbase
  · have hbase := hasBase_of_addressAt h
    exact hbase

theorem hasBase_of_identFirstAt (h : identFirstAt n r dest = .stop m d) :
    HasBase r dest.argSize d := by
  unfold identFirstAt at h
  apply HasBase.of_drop (percent_notMem_ident r)
  dsimp only at h
  split at h
  · apply HasBase.of_drop (percent_notMem_strtol _)
    rw [drop_drop]
    have hbase := hasBase_of_addressAt h
    exact hbase
  · have hbase := hasBase_of_addressAt h
    exact hbase

/-- A constant keeps the size there is; any other operand has a base register. -/
theorem exprAt_size (h : exprAt n r dest = .stop m d) :
    (peek r = '$' ∧ d.argSize = dest.argSize) ∨ (peek r ≠ '$' ∧ HasBase r dest.argSize d) := by
  unfold exprAt at h
  split at h
  · next hdollar =>
    obtain ⟨-, rfl⟩ := Reading.stop.inj h
    exact .inl ⟨hdollar, rfl⟩
  next hdollar =>
  refine .inr ⟨hdollar, ?_⟩
  split at h
  · split at h
    · cases h
    next k name size hreg =>
    cases h
    exact ⟨[], r, rfl, not_mem_nil, k, name, size, hreg, rfl⟩
  split at h
  · exact hasBase_of_offsetFirstAt h
  · exact hasBase_of_identFirstAt h

/-- Without a size of its own, an operand has that of its base register. -/
theorem HasBase.isTypeSize_iff (h : HasBase r none d) (hdollar : peek r ≠ '$')
    (hspace : isspace (peek r) = false) :
    IsTypeSize d.size ↔ ¬ ['x', 'm', 'm'] <+: baseText r := by
  obtain ⟨w, r', rfl, hw, k, name, size, hreg, hsize⟩ := h
  obtain ⟨hpercent, hiff⟩ := registerAt_size hreg
  have hskip : ∀ x ∈ w, (x != '%') = true := by
    intro x hx
    rw [bne_iff_ne]
    rintro rfl
    exact hw hx
  have hbase : baseText (w ++ r') = r'.tail := by
    rw [baseText, if_neg (by simp [hdollar, hspace]), dropWhile_append_of_pos hskip,
      eq_cons_of_peek hpercent (by decide)]
    rfl
  rw [hbase, ← hiff, Argument.size, hsize]
  rfl

/-- With a size of its own, it has that. -/
theorem HasBase.size_eq {size : Int} (h : HasBase r (some size) d) : d.size = size := by
  obtain ⟨_, _, _, _, _, _, _, _, hsize⟩ := h
  rw [Argument.size, hsize]
  rfl

theorem operandAt_size (h : operandAt r Argument.empty = .stop m d) :
    IsTypeSize d.size ↔ SizeFits r := by
  have hspace : isspace (peek r) = false := by
    by_contra hspace
    rw [operandAt_space (by simpa using hspace)] at h
    cases h
  unfold operandAt at h
  unfold SizeFits
  split at h
  · next hnone =>
    rw [if_pos hnone]
    rcases exprAt_size h with ⟨hdollar, hsize⟩ | ⟨hdollar, hbase⟩
    · refine iff_of_true ?_ ?_
      · rw [Argument.size, hsize]
        decide
      · rw [baseText, if_pos (.inl hdollar)]
        decide
    · exact hbase.isTypeSize_iff hdollar hspace
  · next hsome =>
    rw [if_neg hsome]
    have hused : 0 < (strtol r).1 := by
      by_contra hz
      exact hsome (by simp [sizeAt, hz])
    have hint : intAt r none = some (toInt32 (strtol r).2) := if_pos hused
    rcases exprAt_size h with ⟨-, hsize⟩ | ⟨-, hbase⟩
    · have hd : d.size = toInt32 (strtol r).2 := by
        rw [Argument.size, hsize]
        show (intAt r none).getD 8 = _
        rw [hint]
        rfl
      rw [hd]
    · have hd : d.size = toInt32 (strtol r).2 := by
        apply HasBase.size_eq
        rw [← hint]
        exact hbase
      rw [hd]

/-- What a call accepts: an operand, or the white space at the start of the string. -/
theorem accepted_cases {s : CStr} {pos q : Nat} (h : pos < s.length)
    (ha : parse s Argument.empty pos = .ok ⟨.accepted, d, q⟩) :
    (∃ n, operandAt (s.chars.drop pos) Argument.empty = .stop n d)
      ∨ (isspace (peek (s.chars.drop pos)) = true
        ∧ d = { Argument.empty with derefOffset := some 0 }) := by
  have hex := operandAt_exact (s.chars.drop pos) Argument.empty rfl
  cases hop : operandAt (s.chars.drop pos) Argument.empty with
  | stop n d' =>
    rw [hop] at hex
    have hlen := length_drop s pos
    have hle : pos + n ≤ s.length := by
      have := hex.2.1
      omega
    rw [parse_of_stop h hop hle] at ha
    split at ha
    · rw [acceptAt_eq hle d'] at ha
      cases ha
      exact .inl ⟨n, rfl⟩
    · rw [rejectAt_eq hle d'] at ha
      cases ha
  | fail n d' =>
    by_cases hpos : 0 < pos + n
    · rw [parse_of_fail h hop hpos] at ha
      rcases Nat.lt_or_ge s.length (pos + n + 1) with hlt | hge
      · rw [rejectAt_of_length_lt d' hlt] at ha
        cases ha
      · rw [rejectAt_eq hge d'] at ha
        cases ha
    · obtain ⟨rfl, rfl⟩ : pos = 0 ∧ n = 0 := by omega
      rw [drop_zero] at hop ⊢
      rw [parse_of_fail_zero h hop] at ha
      split at ha
      · next hspace =>
        rw [operandAt_space hspace] at hop
        cases ha
        cases hop
        exact .inr ⟨hspace, rfl⟩
      · rw [rejectAt_eq (Nat.zero_le _) d'] at ha
        cases ha

theorem accepted_size {s : CStr} {pos q : Nat} (h : pos < s.length)
    (ha : parse s Argument.empty pos = .ok ⟨.accepted, d, q⟩) :
    IsTypeSize d.size ↔ SizeFits (s.chars.drop pos) := by
  rcases accepted_cases h ha with ⟨n, hop⟩ | ⟨hspace, rfl⟩
  · exact operandAt_size hop
  · have hsize : sizeAt (s.chars.drop pos) = 0 := by
      have hnum := @eq_false_of_isspace (fun c => c.isDigit || c == '-') _ (by decide) hspace
      simp [sizeAt, hnum]
    rw [SizeFits, if_pos hsize, baseText, if_pos (.inr hspace)]
    decide

end X64

/-! ### All parsers -/

/-- A value behind `<size>@` keeps the size. -/
theorem ValueShape.argSize_eq {startsReg : Char → Bool}
    {registerAt : List Char → Except Nat (Nat × String)} {bare : Argument → Argument}
    {t : List Char} {e d : Argument} (hbare : ∀ e : Argument, (bare e).argSize = e.argSize)
    (h : ValueShape startsReg registerAt bare t e d) : d.argSize = e.argSize := by
  cases h with
  | reg k name => rfl
  | const v => rfl
  | bare k name => exact hbare _
  | offset k name off => rfl
  | index k name idx => rfl

/-- The sizes of aarch64 and loongarch64 are checked. -/
theorem isTypeSize_of_sizeAt {r : List Char} {m : Nat} {size : Int}
    (h : sizeAt r = some (m, size)) : IsTypeSize size := by
  unfold sizeAt at h
  split at h
  · cases h
  split at h
  · next hsize =>
    obtain ⟨-, rfl⟩ := Prod.mk.inj (Option.some.inj h)
    exact hsize
  · cases h

/-- So are those of powerpc64 and riscv64, by their pattern. -/
theorem isTypeSize_of_digitSize {t : List Char} {n : Int} (hs : (search digitSizeRx t).isSome)
    (hn : stoi (sizeText t) = some n) : IsTypeSize n := by
  obtain ⟨⟨c, t₁⟩, hs⟩ := Option.isSome_iff_exists.mp hs
  obtain ⟨n', hn', hsize⟩ := stoi_digitSize hs
  rw [(size_of_search (by decide) hs).2.1, hn] at hn'
  cases hn'
  exact hsize

/-- A call that looks for the end of the string first accepts nothing there. -/
theorem lt_length_of_accepted {s : CStr} {p q : Nat} {dest d : Argument}
    {next : Bool → Res ParseOut}
    (hend : next true = .ok ⟨.rejected, dest, p⟩)
    (ha : (done s p >>= next) = .ok ⟨.accepted, d, q⟩) : p < s.length := by
  by_contra hge
  rcases Nat.eq_or_lt_of_le (Nat.not_lt.mp hge) with heq | hlt
  · rw [done_eq (le_of_eq heq.symm), decide_eq_true heq.symm, ok_bind, hend] at ha
    cases ha
  · rw [done, CStr.read_of_length_lt hlt] at ha
    cases ha

namespace Arch

/-- The texts that a parser reads with the size of a type.  On aarch64, loongarch64, powerpc64
    and riscv64 others are not accepted. -/
def SizeFits : Arch → List Char → Prop
  | x64, t => X64.SizeFits t
  | s390x, t => ∃ n, stoi (sizeText t) = some n ∧ IsTypeSize n
  | _, _ => True

/-- **The two names of the type agree** exactly on the arguments whose text gives them the size
    of a type. -/
theorem accepted_typed_iff (A : Arch) {s : CStr} {p q : Nat} {d : Argument}
    (ha : A.parse s p = .ok ⟨.accepted, d, q⟩) : d.Typed ↔ A.SizeFits (s.chars.drop p) := by
  have h : p < s.length := by
    cases A <;> exact lt_length_of_accepted rfl ha
  have hgiven : ∀ {size : Int}, d.argSize = some size → d.size = size := by
    intro size hsize
    rw [Argument.size, hsize]
    rfl
  rw [typed_iff]
  cases A with
  | x64 => exact X64.accepted_size h ha
  | aarch64 =>
    obtain ⟨m, size, hsize, -, hv⟩ := bracket_accepted ((Aarch64.parse_eq h _).symm.trans ha)
    have hd := hv.argSize_eq (by intro e; rfl)
    rw [hgiven hd]
    exact iff_of_true (isTypeSize_of_sizeAt hsize) trivial
  | loongarch64 =>
    obtain ⟨m, size, hsize, -, hv⟩ := bracket_accepted ((Loongarch64.parse_eq h _).symm.trans ha)
    have hd := hv.argSize_eq (by intro e; rfl)
    rw [hgiven hd]
    exact iff_of_true (isTypeSize_of_sizeAt hsize) trivial
  | powerpc64 =>
    obtain ⟨n, rest, hs, hn, hop⟩ := rx_accepted Powerpc64.frame (by decide) h ha
    have hd : d.argSize = some n := by
      obtain ⟨-, ⟨v, rfl, -⟩ | ⟨r, rfl, -⟩ | ⟨off, r, rfl, -⟩ | ⟨r, r', rfl, -⟩⟩ :=
        Powerpc64.operand_cases hop <;> rfl
    rw [hgiven hd]
    exact iff_of_true (isTypeSize_of_digitSize hs hn) trivial
  | s390x =>
    obtain ⟨n, rest, -, hn, hop⟩ := rx_accepted S390x.frame (by decide) h ha
    have hd : d.argSize = some n := by
      obtain ⟨-, ⟨v, rfl, -⟩ | ⟨r, rfl, -⟩ | ⟨-, -, off, r, idx, rfl, -⟩⟩ :=
        S390x.operand_cases hop <;> rfl
    rw [hgiven hd, SizeFits, hn]
    simp
  | riscv64 =>
    obtain ⟨n, rest, hs, hn, hop⟩ := rx_accepted Riscv64.frame (by decide) h ha
    have hd : d.argSize = some n := by
      obtain ⟨-, ⟨v, rfl, -⟩ | ⟨r, rfl, -⟩ | ⟨off, r, rfl, -⟩⟩ :=
        Riscv64.operand_cases hop <;> rfl
    rw [hgiven hd]
    exact iff_of_true (isTypeSize_of_digitSize hs hn) trivial

/-- A four-byte register has a type in the table. -/
theorem accepted_typed_eax :
    ∃ d q, x64.parse (CStr.ofString "%eax") 0 = .ok ⟨.accepted, d, q⟩ ∧ d.Typed := by
  have hfits : x64.SizeFits ((CStr.ofString "%eax").chars.drop 0) := by
    unfold SizeFits X64.SizeFits
    decide +kernel
  exact ⟨_, _, rfl, (@accepted_typed_iff x64 (CStr.ofString "%eax") 0 _ _ rfl).mpr hfits⟩

/-- An `xmm` register is read past the end of the table, and so is a size of 16 on s390x; of a
    size of 3, the two names differ. -/
theorem accepts_untyped :
    (∃ d q, x64.parse (CStr.ofString "%xmm0") 0 = .ok ⟨.accepted, d, q⟩ ∧ d.size = 16
        ∧ d.ctypeName = .error .outOfBounds)
      ∧ (∃ d q, x64.parse (CStr.ofString "3@%rax") 0 = .ok ⟨.accepted, d, q⟩
        ∧ d.ctypeName = .ok .uint16 ∧ ctype d.size = "uint24_t")
      ∧ ∃ d q, s390x.parse (CStr.ofString "16@%r2") 0 = .ok ⟨.accepted, d, q⟩
        ∧ d.ctypeName = .error .outOfBounds :=
  ⟨⟨_, _, rfl, rfl, rfl⟩, ⟨_, _, rfl, rfl, rfl⟩, ⟨_, _, rfl, rfl⟩⟩

end Arch

end Bcc.Usdt
