import Bcc.Text.Number

namespace CText

open List

/-!
# C text — regular expressions with captures

* `Regex`, `search` — the fragment of the ECMAScript syntax of `std::regex` that anchored patterns
  over single lines need, with the backtracking order of that syntax.
-/

/-- A regular expression.  A class is a list of character ranges. -/
inductive Regex where
  /-- The empty pattern. -/
  | eps
  /-- `[…]` -/
  | cls (ranges : List (Char × Char))
  /-- `[…]+`, greedy -/
  | many (ranges : List (Char × Char))
  /-- `ab` -/
  | seq (a b : Regex)
  /-- `a|b` -/
  | alt (a b : Regex)
  /-- `(a)`, the `i`-th capture group -/
  | group (i : Nat) (a : Regex)
  /-- `$` -/
  | eos
  deriving DecidableEq, Repr

/-- The texts the groups captured, the latest first. -/
abbrev Captures := List (Nat × List Char)

/-- `matches.str(i)`: the text of a group, empty if the group took no part in the match. -/
def Captures.str (c : Captures) (i : Nat) : List Char := (List.lookup i c).getD []

/-- Membership in a class. -/
def inClass (ranges : List (Char × Char)) (x : Char) : Bool :=
  ranges.any (fun r => decide (r.1 ≤ x) && decide (x ≤ r.2))

/-- The class of one character. -/
theorem inClass_single {x y : Char} : inClass [(x, x)] y = true ↔ y = x := by
  simp only [inClass, any_cons, any_nil, Bool.or_false, Bool.and_eq_true, decide_eq_true_eq]
  exact ⟨fun h => Char.le_antisymm h.2 h.1, fun h => h ▸ ⟨Char.le_refl _, Char.le_refl _⟩⟩

/-- The digits as a class. -/
theorem inClass_digit (x : Char) : inClass [('0', '9')] x = x.isDigit := by
  simp only [inClass, any_cons, any_nil, Bool.or_false]
  rfl

theorem inClass_append (p q : List (Char × Char)) (x : Char) :
    inClass (p ++ q) x = (inClass p x || inClass q x) := by
  simp [inClass]

namespace Regex

/-- A single character. -/
def chr (x : Char) : Regex := cls [(x, x)]

/-- A literal text. -/
def lit : List Char → Regex
  | [] => eps
  | x :: xs => seq (chr x) (lit xs)

/-- `a?`, greedy. -/
def opt (a : Regex) : Regex := alt a eps

/-- The matches at the start of `t`, in the order in which they are tried: the captures and
    the text behind the match. -/
def run : Regex → Captures → List Char → List (Captures × List Char)
  | eps, c, t => [(c, t)]
  | cls _, _, [] => []
  | cls p, c, x :: xs => if inClass p x then [(c, xs)] else []
  | many p, c, t =>
      (List.range (t.takeWhile (inClass p)).length).reverse.map (fun k => (c, t.drop (k + 1)))
  | seq a b, c, t => (run a c t).flatMap (fun m => run b m.1 m.2)
  | alt a b, c, t => run a c t ++ run b c t
  | group i a, c, t =>
      (run a c t).map (fun m => ((i, t.take (t.length - m.2.length)) :: m.1, m.2))
  | eos, c, t => if t.isEmpty then [(c, t)] else []

/-- `std::regex_search` with the pattern `^a`: the captures and the text behind the match. -/
def search (a : Regex) (t : List Char) : Option (Captures × List Char) := (run a [] t).head?

/-! ### The matches of each construct -/

variable {a b : Regex} {c c' : Captures} {t t' : List Char}

variable {p : List (Char × Char)}

@[simp] theorem mem_run_eps : (c', t') ∈ run eps c t ↔ c' = c ∧ t' = t :=
  mem_singleton.trans Prod.mk_inj

@[simp] theorem mem_run_cls :
    (c', t') ∈ run (cls p) c t ↔ c' = c ∧ ∃ x, inClass p x = true ∧ t = x :: t' := by
  cases t with
  | nil => simp [run]
  | cons y ys =>
    by_cases hy : inClass p y = true
    · simp only [run, hy, if_true, mem_singleton, Prod.mk.injEq, List.cons.injEq]
      constructor
      · rintro ⟨rfl, rfl⟩
        exact ⟨rfl, y, hy, rfl, rfl⟩
      · rintro ⟨rfl, x, -, rfl, rfl⟩
        exact ⟨rfl, rfl⟩
    · simp only [run, hy, Bool.false_eq_true, if_false, not_mem_nil, false_iff]
      rintro ⟨-, x, hx, rfl, -⟩
      exact hy hx

@[simp] theorem mem_run_many :
    (c', t') ∈ run (many p) c t
      ↔ c' = c ∧ ∃ w, w ≠ [] ∧ (∀ x ∈ w, inClass p x = true) ∧ t = w ++ t' := by
  refine mem_map.trans ?_
  simp only [mem_reverse, mem_range, Prod.mk.injEq]
  constructor
  · rintro ⟨k, hk, rfl, rfl⟩
    refine ⟨rfl, t.take (k + 1), ?_, ?_, (take_append_drop _ _).symm⟩
    · rw [Ne, take_eq_nil_iff]
      rintro (h | rfl)
      · omega
      · simp at hk
    · -- the first `k + 1` characters lie in the longest run of the class
      intro x hx
      have hpre : t.take (k + 1) <+: t.takeWhile (inClass p) :=
        prefix_of_prefix_length_le (List.take_prefix _ _) (List.takeWhile_prefix _)
          (by rw [length_take]; omega)
      exact mem_takeWhile_imp (hpre.subset hx)
  · rintro ⟨rfl, w, hw, hall, rfl⟩
    have hpos : 0 < w.length := length_pos_iff.mpr hw
    refine ⟨w.length - 1, ?_, rfl, ?_⟩
    · rw [takeWhile_append_of_pos hall, length_append]
      omega
    · rw [Nat.sub_add_cancel hpos, drop_left]

@[simp] theorem mem_run_seq :
    (c', t') ∈ run (seq a b) c t
      ↔ ∃ c₁ t₁, (c₁, t₁) ∈ run a c t ∧ (c', t') ∈ run b c₁ t₁ :=
  mem_flatMap.trans Prod.exists

@[simp] theorem mem_run_alt :
    (c', t') ∈ run (alt a b) c t ↔ (c', t') ∈ run a c t ∨ (c', t') ∈ run b c t :=
  mem_append

@[simp] theorem mem_run_eos : (c', t') ∈ run eos c t ↔ c' = c ∧ t' = [] ∧ t = [] := by
  cases t with
  | nil => simp [run]
  | cons x xs => simp [run]

/-- A match takes a piece from the front of the text. -/
theorem exists_append_of_mem_run (h : (c', t') ∈ run a c t) : ∃ w, t = w ++ t' := by
  induction a generalizing c c' t t' with
  | eps => exact ⟨[], (mem_run_eps.mp h).2.symm⟩
  | cls p =>
    obtain ⟨-, x, -, rfl⟩ := mem_run_cls.mp h
    exact ⟨[x], rfl⟩
  | many p =>
    obtain ⟨-, w, -, -, rfl⟩ := mem_run_many.mp h
    exact ⟨w, rfl⟩
  | seq a b iha ihb =>
    obtain ⟨c₁, t₁, h1, h2⟩ := mem_run_seq.mp h
    obtain ⟨w, rfl⟩ := iha h1
    obtain ⟨v, rfl⟩ := ihb h2
    exact ⟨w ++ v, (append_assoc _ _ _).symm⟩
  | alt a b iha ihb => exact (mem_run_alt.mp h).elim iha ihb
  | group i a iha =>
    obtain ⟨⟨c₁, t₁⟩, h1, heq⟩ := mem_map.mp h
    cases heq
    exact iha h1
  | eos =>
    obtain ⟨-, rfl, rfl⟩ := mem_run_eos.mp h
    exact ⟨[], rfl⟩

@[simp] theorem mem_run_group {i : Nat} :
    (c', t') ∈ run (group i a) c t
      ↔ ∃ c₁ w, (c₁, t') ∈ run a c t ∧ t = w ++ t' ∧ c' = (i, w) :: c₁ := by
  have htake : ∀ w : List Char, (w ++ t').take ((w ++ t').length - t'.length) = w := by
    intro w
    rw [length_append, Nat.add_sub_cancel, take_left]
  refine mem_map.trans ?_
  simp only [Prod.mk.injEq]
  constructor
  · rintro ⟨⟨c₁, t₁⟩, h, rfl, rfl⟩
    obtain ⟨w, rfl⟩ := exists_append_of_mem_run h
    exact ⟨c₁, w, h, rfl, by rw [htake]⟩
  · rintro ⟨c₁, w, h, rfl, rfl⟩
    exact ⟨(c₁, t'), h, by rw [htake], rfl⟩

@[simp] theorem mem_run_chr {x : Char} : (c', t') ∈ run (chr x) c t ↔ c' = c ∧ t = x :: t' := by
  simp only [chr, mem_run_cls, inClass_single]
  constructor
  · rintro ⟨hc, y, rfl, ht⟩
    exact ⟨hc, ht⟩
  · rintro ⟨hc, ht⟩
    exact ⟨hc, x, rfl, ht⟩

@[simp] theorem mem_run_lit {l : List Char} :
    (c', t') ∈ run (lit l) c t ↔ c' = c ∧ t = l ++ t' := by
  induction l generalizing t with
  | nil =>
    simp only [lit, mem_run_eps]
    exact and_congr_right (fun _ => eq_comm)
  | cons x xs ih =>
    simp only [lit, mem_run_seq, mem_run_chr]
    constructor
    · rintro ⟨c₁, t₁, ⟨rfl, rfl⟩, h⟩
      obtain ⟨rfl, rfl⟩ := ih.mp h
      exact ⟨rfl, rfl⟩
    · rintro ⟨rfl, rfl⟩
      exact ⟨c', xs ++ t', ⟨rfl, rfl⟩, ih.mpr ⟨rfl, rfl⟩⟩

@[simp] theorem mem_run_opt :
    (c', t') ∈ run (opt a) c t ↔ (c', t') ∈ run a c t ∨ (c' = c ∧ t' = t) := by
  simp [opt]

/-! ### The characters of a match -/

/-- The ranges that occur in a pattern. -/
def alphabet : Regex → List (Char × Char)
  | eps | eos => []
  | cls p | many p => p
  | seq a b | alt a b => alphabet a ++ alphabet b
  | group _ a => alphabet a

/-- A match takes only characters that occur in the pattern. -/
theorem inClass_alphabet_of_mem_run {w : List Char} (h : (c', t') ∈ run a c (w ++ t')) :
    ∀ x ∈ w, inClass a.alphabet x = true := by
  induction a generalizing c c' w t' with
  | eps =>
    have := (mem_run_eps.mp h).2
    simp [self_eq_append_left.mp this]
  | cls p =>
    obtain ⟨-, y, hy, heq⟩ := mem_run_cls.mp h
    have hw : w = [y] := append_cancel_right (heq.trans rfl : w ++ t' = [y] ++ t')
    intro x hx
    rw [hw, mem_singleton] at hx
    exact hx ▸ hy
  | many p =>
    obtain ⟨-, v, -, hall, heq⟩ := mem_run_many.mp h
    rw [append_cancel_right heq]
    exact hall
  | seq a b iha ihb =>
    obtain ⟨c₁, t₁, h1, h2⟩ := mem_run_seq.mp h
    obtain ⟨u, hu⟩ := exists_append_of_mem_run h1
    obtain ⟨v, rfl⟩ := exists_append_of_mem_run h2
    have hw : w = u ++ v :=
      append_cancel_right (hu.trans (append_assoc u v t').symm)
    rw [hu] at h1
    intro x hx
    rw [alphabet, inClass_append, Bool.or_eq_true]
    rw [hw, mem_append] at hx
    exact hx.imp (iha h1 x) (ihb h2 x)
  | alt a b iha ihb =>
    intro x hx
    rw [alphabet, inClass_append, Bool.or_eq_true]
    exact (mem_run_alt.mp h).imp (fun h => iha h x hx) (fun h => ihb h x hx)
  | group i a iha =>
    obtain ⟨c₁, -, h1, -, -⟩ := mem_run_group.mp h
    exact iha h1
  | eos =>
    obtain ⟨-, rfl, heq⟩ := mem_run_eos.mp h
    simp [append_eq_nil_iff.mp heq]

/-- A match takes a word over the pattern's characters. -/
theorem exists_word_of_mem_run (h : (c', t') ∈ run a c t) :
    ∃ w, t = w ++ t' ∧ ∀ x, inClass a.alphabet x = false → x ∉ w := by
  obtain ⟨w, rfl⟩ := exists_append_of_mem_run h
  refine ⟨w, rfl, fun x hx hmem => ?_⟩
  rw [inClass_alphabet_of_mem_run h x hmem] at hx
  cases hx

/-! ### Searching -/

/-- What a search finds is a match. -/
theorem mem_run_of_search (h : search a t = some (c', t')) : (c', t') ∈ run a [] t :=
  mem_of_mem_head? h

end Regex

end CText
