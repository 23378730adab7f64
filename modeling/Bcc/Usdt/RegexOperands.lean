import Bcc.Usdt.RegexParsers

namespace Bcc.Usdt

open CText List Regex

/-!
# USDT — what the powerpc64, s390x and riscv64 parsers accept

* `operand_cases` — the texts the operand patterns accept, told apart by the token up to the next
  space, whether a parenthesis or a comma is in it, and its first character.
-/

section Pieces

variable {c c' : Captures} {t t' : List Char} {m : Captures × List Char}

/-- ` +|$` matches only at a space or at the end. -/
theorem mem_run_blank (h : (c', t') ∈ run blankRx c t) : c' = c ∧ (t = [] ∨ peek t = ' ') := by
  simp only [blankRx, mem_run_alt, mem_run_many, mem_run_eos] at h
  rcases h with ⟨hc, w, hne, hall, rfl⟩ | ⟨hc, -, ht⟩
  · obtain ⟨x, xs, rfl⟩ := exists_cons_of_ne_nil hne
    exact ⟨hc, .inr (inClass_single.mp (hall x mem_cons_self))⟩
  · exact ⟨hc, .inl ht⟩

theorem blank_of_mem_run (h : (c', t') ∈ run blankRx c t) : t = [] ∨ peek t = ' ' :=
  (mem_run_blank h).2

theorem blank_of_mem_run_group {i : Nat} (h : (c', t') ∈ run (group i blankRx) c t) :
    t = [] ∨ peek t = ' ' := by
  obtain ⟨c₁, w, h1, -, -⟩ := mem_run_group.mp h
  exact blank_of_mem_run h1

/-- `-?[0-9]+` takes a non-empty word of digits and signs. -/
theorem number_of_mem_run (h : (c', t') ∈ run numberRx c t) :
    c' = c ∧ ∃ w, w ≠ [] ∧ t = w ++ t'
      ∧ ∀ x, inClass numberRx.alphabet x = false → x ∉ w := by
  obtain ⟨w, hw, hx⟩ := exists_word_of_mem_run h
  simp only [numberRx, mem_run_seq, mem_run_opt, mem_run_chr, mem_run_many] at h
  obtain ⟨c₁, t₁, h1, rfl, v, hv, -, rfl⟩ := h
  have hc : c' = c := by rcases h1 with ⟨rfl, -⟩ | ⟨rfl, -⟩ <;> rfl
  refine ⟨hc, w, ?_, hw, hx⟩
  rintro rfl
  -- the digits alone are longer than nothing
  have hlen : t.length = t'.length := by rw [hw]; rfl
  have hpos : 0 < v.length := length_pos_iff.mpr hv
  rcases h1 with ⟨-, rfl⟩ | ⟨-, rfl⟩ <;>
    simp only [length_cons, length_append] at hlen <;> omega

/-- The first character of a word that ends at a space or at the end of the text. -/
theorem peek_cases {w e : List Char} (he : e = [] ∨ peek e = ' ') :
    peek (w ++ e) ∈ w ∨ peek (w ++ e) = ' ' ∨ peek (w ++ e) = nul := by
  cases w with
  | cons x xs => exact .inl mem_cons_self
  | nil => rcases he with rfl | he
           · exact .inr (.inr rfl)
           · exact .inr (.inl he)

/-- `seq a` and a blank: the token is what `a` takes. -/
theorem token_of_search {a b : Regex} (ha : inClass a.alphabet ' ' = false)
    (hb : ∀ {c c' t t'}, (c', t') ∈ run b c t → t = [] ∨ peek t = ' ')
    (h : search (seq a b) t = some m) :
    (∀ x, inClass a.alphabet x = false → x ∉ token t)
      ∧ ∀ x, inClass a.alphabet x = false → x ≠ ' ' → x ≠ nul → peek t ≠ x := by
  obtain ⟨c₁, e, h1, h2⟩ := mem_run_seq.mp (mem_run_of_search h)
  obtain ⟨w, rfl, hw⟩ := exists_word_of_mem_run h1
  have he := hb h2
  rw [token_append (hw _ ha) he]
  refine ⟨hw, fun x hx hs hn hp => ?_⟩
  rcases peek_cases he with h | h | h
  · exact hw x hx (hp ▸ h)
  · exact hs (hp.symm.trans h)
  · exact hn (hp.symm.trans h)

/-- A character between two patterns, of which the first takes no space, is in the token. -/
theorem mem_token_of_search {a b : Regex} {x : Char} (h : search (seq a (seq (chr x) b)) t = some m)
    (ha : inClass a.alphabet ' ' = false) (hx : x ≠ ' ') : x ∈ token t := by
  obtain ⟨c₁, t₁, h1, h2⟩ := mem_run_seq.mp (mem_run_of_search h)
  obtain ⟨w, rfl, hw⟩ := exists_word_of_mem_run h1
  obtain ⟨c₂, t₂, h3, -⟩ := mem_run_seq.mp h2
  obtain ⟨-, rfl⟩ := mem_run_chr.mp h3
  exact mem_token (hw _ ha) hx

/-- The rest behind a match is no longer than the text. -/
theorem rest_length_le {a : Regex} (h : search a t = some m) : m.2.length ≤ t.length := by
  obtain ⟨w, rfl⟩ := exists_append_of_mem_run (mem_run_of_search h)
  simp

end Pieces

/-! ### The branches -/

section Branches

variable {dest d : Argument} {m : Captures × List Char} {rest : List Char}

theorem constBranch_yes (h : constBranch dest m = .yes rest d) :
    rest = m.2 ∧ ∃ v, d = { dest with constant := some v } := by
  unfold constBranch at h
  split at h
  · cases h
  · rename_i v _
    cases h
    exact ⟨rfl, v, rfl⟩

theorem offsetBranch_yes {name : List Char → String} (h : offsetBranch name dest m = .yes rest d) :
    rest = m.2 ∧ ∃ off r,
      d = { dest with derefOffset := some off, baseRegisterName := some (name r) } := by
  unfold offsetBranch at h
  split at h
  · cases h
  · rename_i off _
    cases h
    exact ⟨rfl, off, _, rfl⟩

end Branches

/-! ### powerpc64 -/

namespace Powerpc64

variable {t rest : List Char} {dest d : Argument}

/-- **What powerpc64 accepts.**  A constant, a register, a displacement with a base register,
    or a base and an index register. -/
theorem operand_cases (h : operand t dest = .yes rest d) :
    rest.length ≤ t.length ∧
    ((∃ v, d = { dest with constant := some v }
        ∧ '(' ∉ token t ∧ ',' ∉ token t ∧ peek t = 'i')
      ∨ (∃ r, d = { dest with baseRegisterName := some (gpr r) }
        ∧ '(' ∉ token t ∧ ',' ∉ token t ∧ peek t ≠ 'i')
      ∨ (∃ off r, d = { dest with derefOffset := some off, baseRegisterName := some (gpr r) }
        ∧ '(' ∈ token t)
      ∨ ∃ r r', d = { dest with
            derefOffset := some 0
            baseRegisterName := some (gpr r)
            indexRegisterName := some (gpr r')
            scale := dest.argSize.map (fun n => (n.natAbs : Int)) }
        ∧ '(' ∉ token t ∧ ',' ∈ token t) := by
  unfold operand at h
  split at h
  · rename_i m hm
    obtain ⟨rfl, v, rfl⟩ := constBranch_yes h
    have htok := (token_of_search (by decide) blank_of_mem_run_group hm).1
    refine ⟨rest_length_le hm, .inl ⟨v, rfl, htok _ (by decide), htok _ (by decide), ?_⟩⟩
    have hrun := mem_run_of_search hm
    simp only [constRx, mem_run_seq, mem_run_chr] at hrun
    obtain ⟨c₁, t₁, ⟨c₂, t₂, ⟨-, rfl⟩, -⟩, -⟩ := hrun
    rfl
  split at h
  · rename_i m hm
    cases h
    obtain ⟨htok, hpeek⟩ := token_of_search (by decide) blank_of_mem_run_group hm
    exact ⟨rest_length_le hm, .inr (.inl ⟨_, rfl, htok _ (by decide), htok _ (by decide),
      hpeek _ (by decide) (by decide) (by decide)⟩)⟩
  split at h
  · rename_i m hm
    obtain ⟨rfl, off, r, rfl⟩ := offsetBranch_yes h
    have hparen := mem_token_of_search hm (by decide) (by decide)
    exact ⟨rest_length_le hm, .inr (.inr (.inl ⟨off, r, rfl, hparen⟩))⟩
  split at h
  · rename_i m hm
    cases h
    obtain ⟨c₁, t₁, h1, h2⟩ := mem_run_seq.mp (mem_run_of_search hm)
    obtain ⟨u, rfl, hu⟩ := exists_word_of_mem_run h1
    obtain ⟨c₂, t₂, h3, h4⟩ := mem_run_seq.mp h2
    obtain ⟨-, rfl⟩ := mem_run_chr.mp h3
    obtain ⟨c₃, e, h5, h6⟩ := mem_run_seq.mp h4
    obtain ⟨v, rfl, hv⟩ := exists_word_of_mem_run h5
    have he := blank_of_mem_run_group h6
    have htok : token (u ++ ',' :: (v ++ e)) = u ++ ',' :: v := by
      rw [← token_append (w := u ++ ',' :: v) ?_ he, append_assoc, cons_append]
      simp [hu ' ' (by decide), hv ' ' (by decide)]
    refine ⟨rest_length_le hm, .inr (.inr (.inr ⟨_, _, rfl, ?_, ?_⟩))⟩
    · rw [htok]
      simp [hu '(' (by decide), hv '(' (by decide)]
    · rw [htok]
      simp
  · cases h

end Powerpc64

/-! ### s390x -/

namespace S390x

variable {c : Captures} {t rest : List Char} {dest d : Argument}

/-- `%r<num>` captures the number. -/
theorem regRef_of_mem_run {c c' : Captures} {t t' : List Char} {i : Nat}
    (h : (c', t') ∈ run (regRefRx i) c t) :
    ∃ w v, t = w ++ t' ∧ c' = (i, v) :: c ∧ v ≠ []
      ∧ ∀ x, inClass (regRefRx i).alphabet x = false → x ∉ w := by
  obtain ⟨w, hw, hx⟩ := exists_word_of_mem_run h
  simp only [regRefRx, mem_run_seq, mem_run_lit, mem_run_group, mem_run_alt, mem_run_cls,
    mem_run_chr] at h
  obtain ⟨c₁, t₁, ⟨rfl, rfl⟩, c₂, v, hnum, hv, rfl⟩ := h
  refine ⟨w, v, hw, ?_, ?_, hx⟩
  · rcases hnum with ⟨rfl, -⟩ | ⟨c₃, t₃, ⟨rfl, -⟩, rfl, -⟩ <;> rfl
  · rintro rfl
    have hlen : t₁.length = t'.length := congrArg List.length hv
    rcases hnum with ⟨-, x, -, hx⟩ | ⟨c₃, t₃, ⟨-, hx⟩, -, y, -, hy⟩
    · rw [hx, length_cons] at hlen
      omega
    · rw [hx, hy, length_cons, length_cons] at hlen
      omega

/-- What the memory pattern tells: the displacement is missing exactly when the text starts
    with the parenthesis, the index register exactly when there is no comma. -/
theorem memRx_cases (h : (c, rest) ∈ run memRx [] t) :
    '(' ∈ token t ∧ (c.str 1 = [] ↔ peek t = '(') ∧ (c.str 3 = [] ↔ ',' ∉ token t) := by
  simp only [memRx, mem_run_seq] at h
  obtain ⟨c₁, t₁, h1, c₂, t₂, h2, c₃, t₃, h3, c₄, t₄, h4, c₅, t₅, h5, h6⟩ := h
  obtain ⟨hc, he⟩ := mem_run_blank h6
  obtain ⟨hc5, rfl⟩ := mem_run_chr.mp h5
  obtain rfl : c = c₄ := hc.trans hc5
  obtain ⟨rfl, rfl⟩ := mem_run_chr.mp h2
  obtain ⟨b, vb, rfl, rfl, -, hb⟩ := regRef_of_mem_run h3
  -- the displacement
  obtain ⟨disp, rfl, hd, hdisp⟩ : ∃ disp, t = disp ++ '(' :: (b ++ t₃)
      ∧ (disp = [] ∧ c₂ = [] ∨ disp ≠ [] ∧ c₂ = [(1, disp)])
      ∧ ∀ x, inClass numberRx.alphabet x = false → x ∉ disp := by
    rcases mem_run_opt.mp h1 with h1 | ⟨rfl, rfl⟩
    · obtain ⟨c₀, w, hnum, hw, rfl⟩ := mem_run_group.mp h1
      obtain ⟨rfl, w', hne, hw', hx⟩ := number_of_mem_run hnum
      obtain rfl : w = w' := append_cancel_right (hw.symm.trans hw')
      exact ⟨w, hw, .inr ⟨hne, rfl⟩, hx⟩
    · exact ⟨[], rfl, .inl ⟨rfl, rfl⟩, by simp⟩
  -- the index register
  obtain ⟨idx, rfl, hi, hidx⟩ : ∃ idx, t₃ = idx ++ ')' :: t₅
      ∧ ((idx = [] ∧ c = (2, vb) :: c₂)
        ∨ ∃ v, ',' ∈ idx ∧ v ≠ [] ∧ c = (3, v) :: (2, vb) :: c₂)
      ∧ ' ' ∉ idx := by
    rcases mem_run_opt.mp h4 with h4 | ⟨rfl, rfl⟩
    · obtain ⟨c₀, t₀, h7, h8⟩ := mem_run_seq.mp h4
      obtain ⟨rfl, rfl⟩ := mem_run_chr.mp h7
      obtain ⟨w, v, rfl, rfl, hv, hw⟩ := regRef_of_mem_run h8
      exact ⟨',' :: w, rfl, .inr ⟨v, mem_cons_self, hv, rfl⟩,
        by simp [hw ' ' (by decide)]⟩
    · exact ⟨[], rfl, .inl ⟨rfl, rfl⟩, by simp⟩
  have hspace : ' ' ∉ disp := hdisp _ (by decide)
  have htok : token (disp ++ '(' :: (b ++ (idx ++ ')' :: t₅)))
      = disp ++ '(' :: (b ++ (idx ++ [')'])) := by
    rw [← token_append (w := disp ++ '(' :: (b ++ (idx ++ [')']))) ?_ he]
    · simp
    · simp [hspace, hb ' ' (by decide), hidx]
  refine ⟨mem_token hspace (by decide), ?_, ?_⟩
  · have hstr : c.str 1 = disp := by
      rcases hd with ⟨rfl, rfl⟩ | ⟨-, rfl⟩ <;> rcases hi with ⟨-, rfl⟩ | ⟨v, -, -, rfl⟩ <;> rfl
    rw [hstr]
    cases disp with
    | nil => simp
    | cons x xs =>
      refine iff_of_false (by simp) ?_
      rintro rfl
      exact hdisp '(' (by decide) mem_cons_self
  · rw [htok]
    have hcomma : ',' ∈ disp ++ '(' :: (b ++ (idx ++ [')'])) ↔ ',' ∈ idx := by
      simp [hdisp ',' (by decide), hb ',' (by decide)]
    rw [hcomma]
    rcases hi with ⟨rfl, rfl⟩ | ⟨v, hmem, hv, rfl⟩
    · refine iff_of_true ?_ (by simp)
      rcases hd with ⟨-, rfl⟩ | ⟨-, rfl⟩ <;> rfl
    · exact iff_of_false hv (not_not.mpr hmem)

/-- The memory branch, by what the text shows. -/
theorem memBranch_yes {m : Captures × List Char} (hm : search memRx t = some m)
    (h : memBranch dest m = .yes rest d) :
    rest = m.2 ∧ ∃ off r idx,
      d = { dest with
        derefOffset := off, baseRegisterName := some (gprs r), indexRegisterName := idx }
      ∧ (peek t = '(' ∧ off = dest.derefOffset ∨ peek t ≠ '(' ∧ off.isSome)
      ∧ (',' ∈ token t ∧ idx.isSome ∨ ',' ∉ token t ∧ idx = dest.indexRegisterName) := by
  obtain ⟨-, hdisp, hidx⟩ := memRx_cases (mem_run_of_search hm)
  have hindex : ∀ i, (',' ∈ token t ∧ (if 0 < (m.1.str 3).length then some (gprs (m.1.str 3))
      else i).isSome ∨ ',' ∉ token t ∧ (if 0 < (m.1.str 3).length then some (gprs (m.1.str 3))
      else i) = i) := by
    intro i
    by_cases h3 : m.1.str 3 = []
    · exact .inr ⟨hidx.mp h3, by rw [if_neg (by simp [h3])]⟩
    · refine .inl ⟨by_contra (fun hno => h3 (hidx.mpr hno)), ?_⟩
      rw [if_pos (length_pos_iff.mpr h3)]
      rfl
  unfold memBranch at h
  dsimp only at h
  split at h
  · rename_i h1
    split at h
    · cases h
    · rename_i off _
      cases h
      have hp : peek t ≠ '(' := fun hp => by
        rw [hdisp.mpr hp] at h1
        cases h1
      exact ⟨rfl, some off, _, _, rfl, .inr ⟨hp, rfl⟩, hindex _⟩
  · cases h
    have hp : peek t = '(' := hdisp.mp (length_eq_zero_iff.mp (by omega))
    exact ⟨rfl, dest.derefOffset, _, _, rfl, .inl ⟨hp, rfl⟩, hindex _⟩

/-- **What s390x accepts.**  A constant, a register, or a memory operand, whose displacement
    stays unset if the text starts with the parenthesis. -/
theorem operand_cases (h : operand t dest = .yes rest d) :
    rest.length ≤ t.length ∧
    ((∃ v, d = { dest with constant := some v } ∧ '(' ∉ token t ∧ peek t ≠ '%')
      ∨ (∃ r, d = { dest with baseRegisterName := some (gprs r) } ∧ '(' ∉ token t)
      ∨ ((search memRx t).isSome ∧ '(' ∈ token t ∧ ∃ off r idx,
        d = { dest with
          derefOffset := off, baseRegisterName := some (gprs r), indexRegisterName := idx }
        ∧ (peek t = '(' ∧ off = dest.derefOffset ∨ peek t ≠ '(' ∧ off.isSome)
        ∧ (',' ∈ token t ∧ idx.isSome ∨ ',' ∉ token t ∧ idx = dest.indexRegisterName))) := by
  unfold operand at h
  split at h
  · rename_i m hm
    obtain ⟨rfl, v, rfl⟩ := constBranch_yes h
    obtain ⟨htok, hpeek⟩ := token_of_search (by decide) blank_of_mem_run hm
    exact ⟨rest_length_le hm, .inl ⟨v, rfl, htok _ (by decide),
      hpeek _ (by decide) (by decide) (by decide)⟩⟩
  split at h
  · rename_i m hm
    cases h
    have htok := (token_of_search (by decide) blank_of_mem_run hm).1
    exact ⟨rest_length_le hm, .inr (.inl ⟨_, rfl, htok _ (by decide)⟩)⟩
  split at h
  · rename_i m hm
    obtain ⟨rfl, hcases⟩ := memBranch_yes hm h
    exact ⟨rest_length_le hm, .inr (.inr ⟨by simp [hm],
      (memRx_cases (mem_run_of_search hm)).1, hcases⟩)⟩
  · cases h

/-- A memory operand that starts with the parenthesis is always accepted. -/
theorem operand_of_memRx (hm : (search memRx t).isSome) (hp : peek t = '(') (dest : Argument) :
    ∃ rest d, operand t dest = .yes rest d := by
  obtain ⟨m, hm⟩ := Option.isSome_iff_exists.mp hm
  have hparen : '(' ∈ token t := (memRx_cases (mem_run_of_search hm)).1
  have himm : search immRx t = none := Option.eq_none_iff_forall_ne_some.mpr fun _ hm' =>
    (token_of_search (by decide) blank_of_mem_run hm').1 '(' (by decide) hparen
  have hreg : search regRx t = none := Option.eq_none_iff_forall_ne_some.mpr fun _ hm' =>
    (token_of_search (by decide) blank_of_mem_run hm').1 '(' (by decide) hparen
  have h1 : m.1.str 1 = [] := (memRx_cases (mem_run_of_search hm)).2.1.mpr hp
  rw [operand, himm, hreg, hm]
  simp only [memBranch, h1]
  exact ⟨_, _, rfl⟩

end S390x

/-! ### riscv64 -/

namespace Riscv64

variable {t rest : List Char} {dest d : Argument}

/-- No register has an `x` in its name. -/
theorem reg_str_no_x {c : Captures} (h : (c, rest) ∈ run regRx [] t) : 'x' ∉ c.str 1 := by
  obtain ⟨c₁, e, h1, h2⟩ := mem_run_seq.mp h
  obtain ⟨c₀, w, h3, rfl, rfl⟩ := mem_run_group.mp h1
  obtain ⟨c₂, v, h4, -, rfl⟩ := mem_run_group.mp h2
  obtain ⟨rfl, -⟩ := mem_run_blank h4
  intro hx
  exact absurd (inClass_alphabet_of_mem_run h3 'x' hx) (by decide)

/-- **What riscv64 accepts.**  A constant, a register, or a displacement with a base
    register. -/
theorem operand_cases (h : operand t dest = .yes rest d) :
    rest.length ≤ t.length ∧
    ((∃ v, d = { dest with constant := some v } ∧ '(' ∉ token t ∧ (peek t).isAlpha = false)
      ∨ (∃ r, d = { dest with baseRegisterName := some (String.ofList r) } ∧ '(' ∉ token t
        ∧ 'x' ∉ r)
      ∨ ∃ off r, d = { dest with
            derefOffset := some off, baseRegisterName := some (String.ofList r) }
          ∧ '(' ∈ token t) := by
  unfold operand at h
  split at h
  · rename_i m hm
    obtain ⟨rfl, v, rfl⟩ := constBranch_yes h
    obtain ⟨htok, hpeek⟩ := token_of_search (by decide) blank_of_mem_run_group hm
    refine ⟨rest_length_le hm, .inl ⟨v, rfl, htok _ (by decide), ?_⟩⟩
    by_contra halpha
    have ha : (peek t).isAlpha = true := by simpa using halpha
    refine hpeek (peek t) ?_ ?_ ?_ rfl
    · -- a letter is neither a sign nor a digit
      have hm : inClass [('-', '-')] (peek t) = false := by
        rw [← Bool.not_eq_true, inClass_single]
        intro hs
        rw [hs] at ha
        cases ha
      show inClass ([('-', '-')] ++ [('0', '9')]) (peek t) = false
      rw [inClass_append, hm, inClass_digit, isDigit_eq_false_of_isAlpha ha, Bool.or_false]
    · intro hs; rw [hs] at ha; cases ha
    · intro hs; rw [hs] at ha; cases ha
  split at h
  · rename_i m hm
    cases h
    have htok := (token_of_search (by decide) blank_of_mem_run_group hm).1
    exact ⟨rest_length_le hm,
      .inr (.inl ⟨_, rfl, htok _ (by decide), reg_str_no_x (mem_run_of_search hm)⟩)⟩
  split at h
  · rename_i m hm
    obtain ⟨rfl, off, r, rfl⟩ := offsetBranch_yes h
    have hparen := mem_token_of_search hm (by decide) (by decide)
    exact ⟨rest_length_le hm, .inr (.inr ⟨off, r, rfl, hparen⟩)⟩
  · cases h

end Riscv64

/-! ### The size prefix -/

section SizePrefix

variable {c : Captures} {t t₁ : List Char}

/-- A size pattern captures the text of the size and leaves that of the operand. -/
theorem size_of_search {a : Regex} (ha : inClass a.alphabet '@' = false)
    (h : search (seq (group 1 a) (chr '@')) t = some (c, t₁)) :
    t = sizeText t ++ '@' :: t₁ ∧ c.str 1 = sizeText t ∧ operandText t = t₁
      ∧ ∃ c₁, (c₁, '@' :: t₁) ∈ run a [] t := by
  obtain ⟨c₂, t₂, h1, h2⟩ := mem_run_seq.mp (mem_run_of_search h)
  obtain ⟨rfl, rfl⟩ := mem_run_chr.mp h2
  obtain ⟨c₁, w, h3, rfl, rfl⟩ := mem_run_group.mp h1
  have hw : '@' ∉ w := fun hmem => by
    rw [inClass_alphabet_of_mem_run h3 '@' hmem] at ha
    cases ha
  rw [sizeText_append hw, operandText_append hw]
  exact ⟨rfl, rfl, rfl, c₁, h3⟩

theorem length_lt_of_size_search {a : Regex} (ha : inClass a.alphabet '@' = false)
    (h : search (seq (group 1 a) (chr '@')) t = some (c, t₁)) : t₁.length < t.length := by
  have heq := congrArg List.length (size_of_search ha h).1
  rw [length_append, length_cons] at heq
  omega

/-- The sizes of powerpc64 and riscv64 are powers of two of one digit. -/
theorem stoi_digitSize (h : search digitSizeRx t = some (c, t₁)) :
    ∃ n, stoi (c.str 1) = some n ∧ n.natAbs ∈ [1, 2, 4, 8] := by
  obtain ⟨heq, hstr, -, c₁, hrun⟩ := size_of_search (by decide) h
  simp only [mem_run_seq, mem_run_opt, mem_run_chr, mem_run_cls] at hrun
  obtain ⟨c₂, t₂, hsign, -, x, hx, rfl⟩ := hrun
  have hdigit : x = '1' ∨ x = '2' ∨ x = '4' ∨ x = '8' := by
    rw [show [('1', '1'), ('2', '2'), ('4', '4'), ('8', '8')]
        = [('1', '1')] ++ ([('2', '2')] ++ ([('4', '4')] ++ [('8', '8')])) from rfl] at hx
    simpa only [inClass_append, Bool.or_eq_true, inClass_single] using hx
  have hw : sizeText t = [x] ∨ sizeText t = ['-', x] := by
    rcases hsign with ⟨-, ht⟩ | ⟨-, ht⟩
    · exact .inr (append_cancel_right (heq.symm.trans ht))
    · exact .inl (append_cancel_right (heq.symm.trans ht.symm))
  rw [hstr]
  rcases hw with hw | hw <;> rw [hw] <;> rcases hdigit with rfl | rfl | rfl | rfl <;>
    exact ⟨_, rfl, by decide⟩

/-- So `std::stoi` reads them. -/
theorem stoi_of_digitSize (h : search digitSizeRx t = some (c, t₁)) : stoi (c.str 1) ≠ none := by
  obtain ⟨n, hn, -⟩ := stoi_digitSize h
  simp [hn]

end SizePrefix

theorem Powerpc64.frame : FrameSpec digitSizeRx Powerpc64.operand where
  size_lt := length_lt_of_size_search (by decide)
  rest_le := fun h => (Powerpc64.operand_cases h).1

theorem S390x.frame : FrameSpec S390x.sizeRx S390x.operand where
  size_lt := length_lt_of_size_search (by decide)
  rest_le := fun h => (S390x.operand_cases h).1

theorem Riscv64.frame : FrameSpec digitSizeRx Riscv64.operand where
  size_lt := length_lt_of_size_search (by decide)
  rest_le := fun h => (Riscv64.operand_cases h).1

end Bcc.Usdt
