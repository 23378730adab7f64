import Bcc.Usdt.Arch
import Bcc.Usdt.X64Locality

namespace Bcc.Usdt.X64

open CText List

/-!
# USDT — format strings as sequences of tokens

A format string is a sequence of operands separated by single spaces.  The x86-64 parser is
followed through the tokens of the string.

* `Token`, `format` — the tokens, and the string they make up;
* `tokenArg`, `args` — the arguments of the tokens by themselves;
* `dead_loop` — behind a failure the loop collects nothing more;
* `parse_tokens`, `loop_of_fail`, `loop_of_stop_inside` — a call at the start of a token.
-/

/-! ### Tokens -/

/-- A non-empty text without white space. -/
abbrev Token := { t : List Char // t ≠ [] ∧ ∀ c ∈ t, isspace c = false ∧ c ≠ nul }

theorem isToken_of_all {t : List Char}
    (h : (!t.isEmpty && t.all (fun c => !isspace c && c != nul)) = true) :
    t ≠ [] ∧ ∀ c ∈ t, isspace c = false ∧ c ≠ nul := by
  simpa using h

/-- What separates a token from the tokens that follow it, and these. -/
def follow : List Token → List Char
  | [] => []
  | u :: us => ' ' :: (u.1 ++ follow us)

/-- The tokens, joined by single spaces. -/
def join : List Token → List Char
  | [] => []
  | t :: ts => t.1 ++ follow ts

theorem nul_not_mem_follow (ts : List Token) : nul ∉ follow ts := by
  induction ts with
  | nil => exact not_mem_nil
  | cons u us ih =>
    simp only [follow, mem_cons, mem_append, not_or]
    exact ⟨by decide, fun h => (u.2.2 _ h).2 rfl, ih⟩

theorem nul_not_mem_join (ts : List Token) : nul ∉ join ts := by
  cases ts with
  | nil => exact not_mem_nil
  | cons t ts =>
    simp only [join, mem_append, not_or]
    exact ⟨fun h => (t.2.2 _ h).2 rfl, nul_not_mem_follow ts⟩

/-- The format string of a sequence of tokens. -/
def format (ts : List Token) : CStr := ⟨join ts, nul_not_mem_join ts⟩

/-- The argument of a token by itself: a fresh parser on that token alone.  `none` if the
    parser rejects it, or runs past its end. -/
def tokenArg (t : Token) : Option Argument :=
  match Arch.x64.parse (format [t]) 0 with
  | .ok ⟨.accepted, d, _⟩ => some d
  | _ => none

/-- The arguments of the tokens by themselves, without the malformed ones. -/
def args (ts : List Token) : List Argument := ts.filterMap tokenArg

section Text

variable {u : Token}

theorem Token.noSpace (t : Token) : NoSpace t.1 := fun c hc => (t.2.2 c hc).1

theorem Token.length_pos (t : Token) : 0 < t.1.length := length_pos_iff.mpr t.2.1

theorem isBreak_follow (ts : List Token) : IsBreak (follow ts) := by
  cases ts with
  | nil => exact isBreak_nil
  | cons u us => exact isBreak_cons.mpr rfl

/-- Inside a token there is no break. -/
theorem Token.not_isBreak {k : Nat} (t : Token) (hk : k < t.1.length) (e : List Char) :
    ¬ IsBreak (t.1.drop k ++ e) := by
  obtain ⟨c, cs, hc⟩ := exists_cons_of_ne_nil
    (length_pos_iff.mp (show 0 < (t.1.drop k).length by rw [List.length_drop]; omega))
  have hmem : c ∈ t.1 := mem_of_mem_drop (hc ▸ mem_cons_self)
  rw [hc, cons_append, isBreak_cons, t.noSpace c hmem]
  decide

/-- If the next token starts with no number, neither does what follows. -/
theorem used_follow (hu : (strtol u.1).1 = 0) (us : List Token) :
    (strtol (follow (u :: us))).1 = 0 := by
  obtain ⟨c, cs, hc⟩ := exists_cons_of_ne_nil u.2.1
  have hsp : isspace c = false := u.noSpace c (hc ▸ mem_cons_self)
  have hend := scanSigned_append_end c cs (isBreak_follow us).numberEnd
  have hnone : (scanSigned autoRadix (c :: cs)).used = 0 := by
    by_contra hne
    rw [hc] at hu
    replace hu : (scan autoRadix (c :: cs)).used = 0 := hu
    rw [scan, dropWhile_isspace_of_head hsp, Scan.after, if_neg hne] at hu
    simp only at hu
    omega
  show (scan autoRadix (' ' :: (u.1 ++ follow us))).used = 0
  rw [scan, dropWhile_cons_of_pos rfl, hc, cons_append, dropWhile_isspace_of_head hsp,
    ← cons_append, hend, Scan.after, if_pos hnone]
  rfl

end Text

/-! ### The parser behind a failure -/

section Dead

variable {s : CStr} {p : Nat}

/-- `error_return` leaves the cursor at a break. -/
theorem isBreak_drop_errorSkip (r : List Char) : IsBreak (r.drop (errorSkip r)) := by
  have hskip : ∀ l : List Char,
      IsBreak (l.drop (l.takeWhile (fun c => !isspace c)).length) := by
    intro l
    induction l with
    | nil => exact isBreak_nil
    | cons c cs ih =>
      by_cases hc : isspace c = true
      · rw [takeWhile_cons_of_neg (by simp [hc])]
        exact isBreak_cons.mpr hc
      · rw [takeWhile_cons_of_pos (by simp [hc])]
        exact ih
  unfold errorSkip
  split
  · rename_i hc
    obtain ⟨c, cs, rfl⟩ : ∃ c cs, r = c :: cs :=
      exists_cons_of_ne_nil (by rintro rfl; cases hc)
    rw [Nat.add_comm]
    exact hskip cs
  · exact hskip r

variable {fuel q : Nat}

/-- One turn of the loop over a call that rejects. -/
theorem parseLoop_rejected {d : Argument} (hlt : p < s.length)
    (h : Arch.x64.parse s p = .ok ⟨.rejected, d, q⟩) :
    parseLoop (Arch.x64.parse s) s (fuel + 1) p = parseLoop (Arch.x64.parse s) s fuel q := by
  rw [parseLoop, done_eq (le_of_lt hlt), decide_eq_false (by omega)]
  simp [h]

/-- One turn of the loop over a call that accepts. -/
theorem parseLoop_accepted {d : Argument} (hlt : p < s.length)
    (h : Arch.x64.parse s p = .ok ⟨.accepted, d, q⟩) :
    parseLoop (Arch.x64.parse s) s (fuel + 1) p = (do
      let l ← parseLoop (Arch.x64.parse s) s fuel q
      return l.map (d :: ·)) := by
  rw [parseLoop, done_eq (le_of_lt hlt), decide_eq_false (by omega)]
  simp [h]

theorem parseLoop_done : parseLoop (Arch.x64.parse s) s fuel s.length = .ok (some []) := by
  cases fuel <;>
  · rw [parseLoop, done_eq (Nat.le_refl _), decide_eq_true rfl]
    rfl

/-- **Behind a failure nothing more is collected.**  The cursor stands at a break inside the
    string; each further call takes the white space and the token behind it. -/
theorem dead_loop : ∀ (fuel p : Nat), 0 < p → p ≤ s.length → IsBreak (s.chars.drop p) →
    s.length - p ≤ fuel → parseLoop (Arch.x64.parse s) s fuel p = .ok (some []) := by
  intro fuel
  induction fuel with
  | zero =>
    intro p _ hle _ hf
    obtain rfl : p = s.length := by omega
    exact parseLoop_done
  | succ fuel ih =>
    intro p hpos hle hb hf
    by_cases hend : p = s.length
    · subst hend
      exact parseLoop_done
    have hlt : p < s.length := by omega
    have hsp : isspace (peek (s.chars.drop p)) = true := by
      rcases hb with hnil | hsp
      · exact absurd hnil (drop_ne_nil hlt)
      · exact hsp
    have hin : p + 0 + 1 ≤ s.length := by omega
    have hcall := parse_of_fail hlt (operandAt_space hsp) (by omega)
    rw [rejectAt_eq hin] at hcall
    have hle' := add_errorSkip_le hin
    rw [parseLoop_rejected hlt hcall]
    refine ih _ (by omega) hle' ?_ (by omega)
    rw [← drop_drop]
    exact isBreak_drop_errorSkip _

/-- The loop from a rejection inside the string. -/
theorem loop_rejectAt {d : Argument} (hlt : p < s.length) (hle : q ≤ s.length) (hpq : p ≤ q)
    (hfuel : s.length - p ≤ fuel + 1) (h : Arch.x64.parse s p = rejectAt s d q) :
    parseLoop (Arch.x64.parse s) s (fuel + 1) p = .ok (some []) := by
  rw [rejectAt_eq hle d] at h
  have hq := add_errorSkip_le hle
  have hmove : p < q + errorSkip (s.chars.drop q) := by
    rcases Nat.lt_or_ge p q with hlt' | hge
    · omega
    · obtain rfl : p = q := by omega
      have := errorSkip_pos (drop_ne_nil hlt)
      omega
  rw [parseLoop_rejected hlt h]
  refine dead_loop fuel _ (by omega) hq ?_ (by omega)
  rw [← drop_drop]
  exact isBreak_drop_errorSkip _

end Dead

/-! ### The parser at the start of a token -/

section Start

variable {s : CStr} {p fuel n : Nat} {t : Token} {ts : List Token} {d : Argument}

/-- An operand that ends where its tokens end: the call accepts it, and the cursor comes to
    stand at the start of the next token. -/
theorem parse_tokens {w : List Char} (hw : 0 < w.length) (hle : p ≤ s.length)
    (hdrop : s.chars.drop p = w ++ follow ts)
    (hop : operandAt (s.chars.drop p) Argument.empty = .stop w.length d) :
    ∃ q, Arch.x64.parse s p = .ok ⟨.accepted, d, q⟩ ∧ p < q ∧ q ≤ s.length
      ∧ s.chars.drop q = join ts := by
  have hlen := length_drop s p
  rw [hdrop, length_append] at hlen
  have hin : p + w.length ≤ s.length := by omega
  have hnext : s.chars.drop (p + w.length) = follow ts := by
    rw [← drop_drop, hdrop, drop_left]
  have hcall := parse_of_stop (by omega) hop hin
  rw [hnext, if_pos (isBreak_follow ts), acceptAt_eq hin d, hnext] at hcall
  have hskip := CStr.skip_le_length isspace hin
  rw [hnext] at hskip
  refine ⟨_, hcall, by omega, hskip, ?_⟩
  rw [← drop_drop, hnext]
  cases ts with
  | nil => rfl
  | cons u us =>
    -- one space, then the first character of the next token
    obtain ⟨c, cs, hc⟩ := exists_cons_of_ne_nil u.2.1
    have hcs : isspace c = false := u.noSpace c (hc ▸ mem_cons_self)
    rw [follow, join, hc, cons_append, takeWhile_cons_of_pos rfl,
      takeWhile_cons_of_neg (by simp [hcs])]
    rfl

/-- A failure: the rest of the string is lost, or the parser leaves the string. -/
theorem loop_of_fail (hle : p ≤ s.length) (hdrop : s.chars.drop p = join (t :: ts))
    (hfuel : s.length - p ≤ fuel + 1)
    (hop : operandAt (s.chars.drop p) Argument.empty = .fail n d) :
    parseLoop (Arch.x64.parse s) s (fuel + 1) p
      = if n < (join (t :: ts)).length then .ok (some []) else .error .outOfBounds := by
  have hlen := length_drop s p
  have htok := t.length_pos
  have hjoin : (join (t :: ts)).length = s.length - p := by rw [← hdrop, hlen]
  have hlt : p < s.length := by
    have : (join (t :: ts)).length = t.1.length + (follow ts).length := length_append
    omega
  by_cases hpos : 0 < p + n
  · have hcall : Arch.x64.parse s p = _ := parse_of_fail hlt hop hpos
    split
    · exact loop_rejectAt hlt (by omega) (by omega) hfuel hcall
    · rw [rejectAt_of_length_lt d (by omega)] at hcall
      rw [parseLoop, done_eq hle, decide_eq_false (by omega)]
      simp [hcall]
  · obtain ⟨rfl, rfl⟩ : p = 0 ∧ n = 0 := by omega
    rw [drop_zero] at hop hdrop
    have hcall : Arch.x64.parse s 0 = _ := parse_of_fail_zero hlt hop
    -- the string starts with a token, not with white space
    have hsp : isspace (peek s.chars) = false := by
      obtain ⟨c, cs, hc⟩ := exists_cons_of_ne_nil t.2.1
      rw [hdrop, join, hc]
      exact t.noSpace c (hc ▸ mem_cons_self)
    rw [hsp] at hcall
    rw [if_pos (by omega)]
    exact loop_rejectAt hlt hle (Nat.le_refl _) hfuel hcall

/-- An operand that ends inside a token: the rest of the string is lost. -/
theorem loop_of_stop_inside (hle : p ≤ s.length) (hfuel : s.length - p ≤ fuel + 1)
    (hn : n < (s.chars.drop p).length)
    (hop : operandAt (s.chars.drop p) Argument.empty = .stop n d)
    (hb : ¬ IsBreak (s.chars.drop (p + n))) :
    parseLoop (Arch.x64.parse s) s (fuel + 1) p = .ok (some []) := by
  rw [length_drop] at hn
  have hcall : Arch.x64.parse s p = _ := parse_of_stop (by omega) hop (by omega)
  rw [if_neg hb] at hcall
  exact loop_rejectAt (by omega) (by omega) (by omega) hfuel hcall

end Start

end Bcc.Usdt.X64
