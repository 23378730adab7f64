import Bcc.Text.Decimal

namespace CText

open List

/-!
# C text — searching and splitting

* `find`, `getlines` — searches of `std::string`, and the lines of `getline`.
-/

/-! ### The first place of a text -/

section Find

variable {α : Type} [DecidableEq α]

/-- The first place where `pat` stands in a text. -/
def find (pat : List α) : List α → Option Nat
  | [] => if pat = [] then some 0 else none
  | x :: xs => if pat.isPrefixOf (x :: xs) then some 0 else (find pat xs).map (· + 1)

/-- `s.find(pat, pos)`. -/
def findFrom (pat s : List α) (pos : Nat) : Option Nat := (find pat (s.drop pos)).map (· + pos)

variable {pat : List α}

theorem find_of_prefix {s : List α} (h : pat <+: s) : find pat s = some 0 := by
  cases s with
  | nil => exact if_pos (prefix_nil.mp h)
  | cons x xs => exact if_pos (List.isPrefixOf_iff_prefix.mpr h)

theorem find_isSome_iff {s : List α} : (find pat s).isSome = true ↔ pat <:+: s := by
  induction s with
  | nil => simp [find]
  | cons x xs ih =>
    rw [find, infix_cons_iff, ← isPrefixOf_iff_prefix, ← ih]
    by_cases hpre : pat.isPrefixOf (x :: xs) = true
    · simp [hpre]
    · simp [hpre]

/-- A text is not found where its first character does not occur. -/
theorem find_append {c : α} (hc : pat.head? = some c) {a : List α} (ha : c ∉ a) (b : List α) :
    find pat (a ++ b) = (find pat b).map (· + a.length) := by
  induction a with
  | nil => exact Option.map_id.symm ▸ rfl
  | cons x xs ih =>
    obtain ⟨hx, hxs⟩ := not_or.mp (fun h => ha (mem_cons.mpr h))
    have hpre : ¬ pat.isPrefixOf (x :: (xs ++ b)) = true := by
      intro h
      obtain ⟨t, ht⟩ := isPrefixOf_iff_prefix.mp h
      have hhead := congrArg List.head? ht
      rw [head?_append, hc] at hhead
      exact hx (Option.some.inj hhead)
    rw [cons_append, find, if_neg hpre, ih hxs, Option.map_map]
    rfl

/-- The first place of a text behind another in which its first character does not occur. -/
theorem find_append_self {c : α} (hc : pat.head? = some c) {a : List α} (ha : c ∉ a)
    (b : List α) : find pat (a ++ (pat ++ b)) = some a.length := by
  rw [find_append hc ha, find_of_prefix (prefix_append _ _)]
  exact congrArg some (Nat.zero_add _)

/-- A search that starts at a place, with what stands there. -/
theorem findFrom_of_drop {text mid b : List α} {c : α} (hc : pat.head? = some c) {n : Nat}
    (h : text.drop n = mid ++ (pat ++ b)) (hmid : c ∉ mid) :
    findFrom pat text n = some (mid.length + n) ∧ text.drop (mid.length + n) = pat ++ b := by
  constructor
  · rw [findFrom, h, find_append_self hc hmid]
    rfl
  · rw [Nat.add_comm, ← drop_drop, h, drop_left]

end Find

/-! ### The last of some characters -/

/-- What is before and behind the last character with the property. -/
def splitLast (p : Char → Bool) : List Char → Option (List Char × List Char)
  | [] => none
  | c :: cs =>
    match splitLast p cs with
    | some (a, b) => some (c :: a, b)
    | none => if p c then some ([], cs) else none

/-- Two lists that agree are split alike at the last occurrence of an element. -/
theorem append_cons_inj_last {α : Type} {a : α} {x y u v : List α} (hu : a ∉ u) (hv : a ∉ v)
    (h : x ++ a :: u = y ++ a :: v) : x = y ∧ u = v := by
  rcases append_eq_append_iff.mp h with ⟨c, rfl, hc⟩ | ⟨c, rfl, hc⟩
  · cases c with
    | nil => exact ⟨(append_nil x).symm, (List.cons.inj hc).2⟩
    | cons b c =>
      cases hc
      exact absurd (by simp) hu
  · cases c with
    | nil => exact ⟨append_nil y, (List.cons.inj hc).2.symm⟩
    | cons b c =>
      cases hc
      exact absurd (by simp) hv

/-! ### Lines -/

/-- What `getline` returns, line by line, with the line being read. -/
def linesFrom : List Char → List Char → List (List Char)
  | cur, [] => if cur = [] then [] else [cur.reverse]
  | cur, c :: cs => if c = '\n' then cur.reverse :: linesFrom [] cs else linesFrom (c :: cur) cs

/-- The lines of a file, as `getline` returns them. -/
def getlines (input : List Char) : List (List Char) := linesFrom [] input

theorem linesFrom_append {cur l : List Char} (hl : '\n' ∉ l) (rest : List Char) :
    linesFrom cur (l ++ '\n' :: rest) = (cur.reverse ++ l) :: getlines rest := by
  induction l generalizing cur with
  | nil =>
    rw [append_nil]
    exact if_pos rfl
  | cons c cs ih =>
    obtain ⟨hc, hcs⟩ := not_or.mp (fun h => hl (mem_cons.mpr h))
    rw [cons_append, linesFrom, if_neg (Ne.symm hc), ih hcs, reverse_cons, append_assoc]
    rfl

/-- The lines of a file are those it was written from. -/
theorem getlines_flatMap {ls : List (List Char)} (h : ∀ l ∈ ls, '\n' ∉ l) :
    getlines (ls.flatMap (· ++ ['\n'])) = ls := by
  induction ls with
  | nil => rfl
  | cons l ls ih =>
    obtain ⟨hl, hls⟩ := forall_mem_cons.mp h
    rw [flatMap_cons, append_assoc, singleton_append, getlines, linesFrom_append hl, ih hls]
    rfl

/-! ### Numbers -/

variable {e : List Char}

/-- Text of digits has no other characters. -/
theorem not_mem_toDigits {c : Char} (h : c.isDigit = false) (n : Nat) : c ∉ Nat.toDigits 10 n := by
  intro hc
  rw [Nat.isDigit_of_mem_toDigits (by decide) (by decide) hc] at h
  cases h

theorem scan_toDigits (n : Nat) (he : IsBreak e) :
    scan decimalRadix (Nat.toDigits 10 n ++ e) = ⟨(Nat.toDigits 10 n).length, false, n⟩ := by
  obtain ⟨c, cs, hc, hd⟩ := toDigits_eq_cons n
  obtain ⟨hminus, hplus, hspace⟩ := not_sign_of_isDigit hd
  have hall : ∀ d ∈ Nat.toDigits 10 n, decide (digitVal d < 10) = true := fun d hd =>
    decide_eq_true (digitVal_lt_ten.mpr (Nat.isDigit_of_mem_toDigits (by decide) (by decide) hd))
  have hunsigned : scanUnsigned decimalRadix (Nat.toDigits 10 n ++ e)
      = ⟨(Nat.toDigits 10 n).length, false, n⟩ := by
    unfold scanUnsigned decimalRadix
    rw [drop_zero, takeWhile_append_break (digit_spaceless 10 (by decide)) _ he,
      takeWhile_eq_self_iff.mpr hall, if_neg (by simp), digitsValue_toDigits, Nat.zero_add]
  unfold scan scanSigned
  rw [hc, cons_append, dropWhile_isspace_of_head hspace, takeWhile_cons_of_neg (by simp [hspace]),
    peek_cons, if_neg hminus, if_neg hplus, ← cons_append, ← hc, hunsigned]
  simp [Scan.after]

theorem stoi_toDigits_append {n : Nat} (hn : n < 2 ^ 31) (he : IsBreak e) :
    stoi (Nat.toDigits 10 n ++ e) = some (n : Int) := by
  have hlen : (Nat.toDigits 10 n).length ≠ 0 := by
    simp
  have hvalue : (Scan.mk (Nat.toDigits 10 n).length false n).value = n := rfl
  unfold stoi
  rw [scan_toDigits n he]
  dsimp only
  rw [hvalue, if_neg]
  rintro (h | h | h)
  · exact hlen h
  · omega
  · omega

/-- `stoi` reads decimal digits. -/
theorem stoi_toDigits {n : Nat} (hn : n < 2 ^ 31) : stoi (Nat.toDigits 10 n) = some (n : Int) := by
  simpa using stoi_toDigits_append hn isBreak_nil

end CText
