import Bcc.Usdt.X64Locality
import Bcc.Usdt.X64Operand

namespace Bcc.Usdt.X64

open CText List

/-!
# USDT — the texts that are x86-64 operands

The parser takes more than a compiler writes: numbers in any base and with any sign, a constant
or a scale that is left empty, a symbol in front of any address.  The texts it takes to their end
are given as a grammar, and the parser is compared with it from both sides.

* `IsAddress`, `IsExpr`, `IsOperand` — the grammar, over registers, symbols and numbers;
* `operandAt_ends_iff` — a text without white space is read to its end exactly if it is an
  operand of the grammar.
-/

/-! ### The grammar -/

/-- A number in C notation, or nothing. -/
def Number (w : List Char) : Prop := (strtol w).1 = w.length ∧ isspace (peek w) = false

/-- `(%base)`, `(%base,%index)` or `(%base,%index,scale)`, where the scale may be empty. -/
inductive IsAddress : List Char → Prop
  | base (b : RegRef) : IsAddress ('(' :: (b.text ++ [')']))
  | index (b i : RegRef) : IsAddress ('(' :: (b.text ++ ',' :: (i.text ++ [')'])))
  | scale (b i : RegRef) {w : List Char} (hw : Number w) :
      IsAddress ('(' :: (b.text ++ ',' :: (i.text ++ ',' :: (w ++ [')']))))

/-- An operand without size. -/
inductive IsExpr : List Char → Prop
  /-- `$n`, or a lone `$` -/
  | const {w : List Char} (hw : Number w) : IsExpr ('$' :: w)
  /-- `%reg` -/
  | reg (r : RegRef) : IsExpr r.text
  /-- an address, with an optional displacement in front -/
  | mem {w a : List Char} (hw : Number w) (ha : IsAddress a) : IsExpr (w ++ a)
  /-- a symbol, with an optional displacement, which has a sign, between it and the address -/
  | symbol (i : Ident) {w a : List Char} (hw : Number w)
      (hsign : w = [] ∨ peek w = '+' ∨ peek w = '-') (ha : IsAddress a) : IsExpr (i.1 ++ (w ++ a))
  /-- a displacement, `+`, a symbol and the address -/
  | offSymbol {w a : List Char} (hw : Number w)
      (hnum : ((peek w).isDigit || peek w == '-') = true) (i : Ident) (ha : IsAddress a) :
      IsExpr (w ++ '+' :: (i.1 ++ a))

/-- An operand: an optional size, and the expression. -/
inductive IsOperand : List Char → Prop
  | plain {t : List Char} (ht : IsExpr t) : IsOperand t
  | sized {w t : List Char} (hw : Number w)
      (hnum : ((peek w).isDigit || peek w == '-') = true) (ht : IsExpr t) :
      IsOperand (w ++ '@' :: t)

/-! ### Numbers, registers and symbols at the start of a text -/

section Lexical

variable {r w e : List Char}

/-- A number is read up to where it ends. -/
theorem Number.used_append (hw : Number w) (he : NumberEnd e)
    (hnil : w = [] → (strtol e).1 = 0) : (strtol (w ++ e)).1 = w.length := by
  cases w with
  | nil => exact hnil rfl
  | cons c cs =>
    have hscan := scan_append_end (show isspace c = false from hw.2) cs he
    refine Eq.trans ?_ hw.1
    show (scan autoRadix (c :: cs ++ e)).used = (scan autoRadix (c :: cs)).used
    rw [hscan]

/-- What `strtol` reads is a number, if it stops where a number ends. -/
theorem number_take (h : NoSpace r) (he : NumberEnd (r.drop (strtol r).1)) :
    Number (r.take (strtol r).1) := by
  have hlen : (r.take (strtol r).1).length = (strtol r).1 :=
    length_take_of_le (strtol_used_le r)
  have hsplit := take_append_drop (strtol r).1 r
  cases hw : r.take (strtol r).1 with
  | nil => exact ⟨rfl, by decide⟩
  | cons c cs =>
    have hc : isspace c = false := h c (mem_of_mem_take (hw ▸ mem_cons_self))
    refine ⟨?_, hc⟩
    have hscan := scan_append_end hc cs he
    rw [← hw, hlen]
    rw [← hw, hsplit] at hscan
    show (scan autoRadix (r.take (strtol r).1)).used = _
    rw [← hscan]
    rfl

/-- A register that is read is one of the table. -/
theorem registerAt_eq_some {k : Nat} {name : String} {size : Int}
    (h : registerAt r = some (k, name, size)) :
    ∃ ref : RegRef, ∃ u, r = ref.text ++ u ∧ k = ref.text.length := by
  unfold registerAt at h
  split at h
  · next hp =>
    set l := r.tail.takeWhile Char.isAlphanum with hl
    obtain ⟨p, hp', hk⟩ := Option.map_eq_some_iff.mp h
    obtain ⟨x, hx, -⟩ := Option.map_eq_some_iff.mp hp'
    have hname : x.1 = String.ofList l := by simpa using find?_some hx
    have htext : ('%' :: l) = RegRef.text ⟨x, mem_of_find?_eq_some hx⟩ := by
      rw [RegRef.text, hname, String.toList_ofList]
    refine ⟨⟨x, mem_of_find?_eq_some hx⟩, r.tail.dropWhile Char.isAlphanum, ?_, ?_⟩
    · rw [← htext, cons_append, takeWhile_append_dropWhile]
      exact eq_cons_of_peek hp (by decide)
    · rw [← htext, length_cons, ← (Prod.mk.inj hk).1, Nat.add_comm]
  · cases h

/-- A symbol that is read is a C identifier. -/
theorem identLen_pos (h : 0 < identLen r) : ∃ i : Ident, i.1 = r.take (identLen r) := by
  unfold identLen at h ⊢
  split at h
  · next hc =>
    rw [if_pos hc]
    obtain ⟨c, cs, rfl⟩ : ∃ c cs, r = c :: cs :=
      exists_cons_of_ne_nil (by rintro rfl; cases hc)
    have htake : (c :: cs).take (1 + (cs.takeWhile isIdentChar).length)
        = c :: cs.takeWhile isIdentChar := by
      rw [Nat.add_comm, take_succ_cons, ← prefix_iff_eq_take.mp (List.takeWhile_prefix _)]
    have hhead : c.isAlpha = true ∨ c = '_' := by simpa using hc
    refine ⟨⟨c :: cs.takeWhile isIdentChar, hhead, fun d hd => ?_⟩, htake.symm⟩
    rcases mem_cons.mp hd with rfl | hd
    · rcases hhead with h | rfl
      · simp [isIdentChar, Char.isAlphanum, h]
      · rfl
    · exact mem_takeWhile_imp hd
  · omega

end Lexical

/-! ### Addresses -/

/-- The text `r` at offset `n` is read to its end. -/
def Reading.Ends (n : Nat) (r : List Char) (R : Reading) : Prop := ∃ d, R = .stop (n + r.length) d

section Address

variable {n k : Nat} {r : List Char} {dest : Argument}

theorem drop_append_cons (w : List Char) (x : Char) (v : List Char) :
    (w ++ x :: v).drop (w.length + 1) = v := by
  rw [← drop_drop, drop_left]
  rfl

/-- Reading on behind `k` characters. -/
theorem Reading.ends_drop {R : Reading} (hk : k ≤ r.length) :
    R.Ends (n + k) (r.drop k) ↔ R.Ends n r := by
  unfold Reading.Ends
  rw [List.length_drop, show n + k + (r.length - k) = n + r.length by omega]

theorem Reading.ends_append {R : Reading} (w : List Char) :
    R.Ends (n + w.length) r ↔ R.Ends n (w ++ r) := by
  unfold Reading.Ends
  rw [length_append, Nat.add_assoc]

theorem Reading.ends_append_cons {R : Reading} {w : List Char} {x : Char} :
    R.Ends (n + w.length + 1) r ↔ R.Ends n (w ++ x :: r) := by
  unfold Reading.Ends
  rw [length_append, length_cons, show n + w.length + 1 + r.length
    = n + (w.length + (r.length + 1)) by omega]

theorem closeAt_ends_iff : (closeAt n r dest).Ends n r ↔ r = [')'] := by
  unfold closeAt Reading.Ends
  split
  · next hc =>
    obtain ⟨u, rfl⟩ : ∃ u, r = ')' :: u := ⟨_, eq_cons_of_peek hc (by decide)⟩
    simp
  · next hc =>
    refine iff_of_false (by simp) ?_
    rintro rfl
    exact hc rfl

theorem scaleAt_ends_iff (h : NoSpace r) :
    (scaleAt n r dest).Ends n r ↔ ∃ w, Number w ∧ r = w ++ [')'] := by
  unfold scaleAt
  rw [← Reading.ends_drop (strtol_used_le r), closeAt_ends_iff]
  constructor
  · intro hd
    refine ⟨r.take (strtol r).1, number_take h (by rw [hd]; decide), ?_⟩
    rw [← hd, take_append_drop]
  · rintro ⟨w, hw, rfl⟩
    rw [hw.used_append (by decide) fun _ => rfl, drop_left]

theorem registerThen_ends_iff {f : String → Int → Argument}
    {R : Nat → List Char → Argument → Reading} {P : List Char → Prop}
    (hR : ∀ m v d, NoSpace v → ((R m v d).Ends m v ↔ P v)) (h : NoSpace r) :
    (registerThen f R n r dest).Ends n r
      ↔ ∃ ref : RegRef, r = ref.text ++ [')'] ∨ ∃ v, P v ∧ r = ref.text ++ ',' :: v := by
  unfold registerThen
  constructor
  · intro hend
    cases hr : registerAt r with
    | none =>
      rw [hr] at hend
      obtain ⟨d, hd⟩ := hend
      cases hd
    | some p =>
      rw [hr] at hend
      obtain ⟨k, name, size⟩ := p
      obtain ⟨ref, u, rfl, rfl⟩ := registerAt_eq_some hr
      dsimp only at hend
      refine ⟨ref, ?_⟩
      split at hend
      · next hc =>
        rw [drop_left] at hc
        obtain ⟨v, rfl⟩ : ∃ v, u = ',' :: v := ⟨_, eq_cons_of_peek hc (by decide)⟩
        rw [drop_append_cons, ← Reading.ends_append_cons] at hend
        exact .inr ⟨v, (hR _ v _ fun c hc => h c (by simp [hc])).mp hend, rfl⟩
      · rw [drop_left, ← Reading.ends_append, closeAt_ends_iff] at hend
        exact .inl (by rw [hend])
  · rintro ⟨ref, rfl | ⟨v, hv, rfl⟩⟩
    · rw [registerAt_text ref (by rfl)]
      simp only [drop_left]
      rw [if_neg (by decide), ← Reading.ends_append, closeAt_ends_iff]
    · rw [registerAt_text ref (by rfl)]
      simp only [drop_left, drop_append_cons]
      rw [← Reading.ends_append_cons]
      exact (hR _ v _ fun c hc => h c (by simp [hc])).mpr hv

theorem addressAt_ends_iff (h : NoSpace r) : (addressAt n r dest).Ends n r ↔ IsAddress r := by
  have hbase : ∀ {m v d}, NoSpace v → ((baseAt m v d).Ends m v ↔ _) := fun hv =>
    registerThen_ends_iff (fun m v d => registerThen_ends_iff fun m v d => scaleAt_ends_iff) hv
  unfold addressAt
  constructor
  · intro hend
    split at hend
    · next hc =>
      obtain ⟨u, rfl⟩ : ∃ u, r = '(' :: u := ⟨_, eq_cons_of_peek hc (by decide)⟩
      obtain ⟨b, hb⟩ := (hbase (h.drop 1)).mp ((Reading.ends_append ['(']).mpr hend)
      rcases hb with rfl | ⟨v, ⟨i, rfl | ⟨v, ⟨w, hw, rfl⟩, rfl⟩⟩, rfl⟩
      · exact .base b
      · exact .index b i
      · exact .scale b i hw
    · obtain ⟨d, hd⟩ := hend
      cases hd
  · intro ha
    obtain ⟨u, rfl⟩ : ∃ u, r = '(' :: u := by cases ha <;> exact ⟨_, rfl⟩
    refine (Reading.ends_append ['(']).mp ((hbase (h.drop 1)).mpr ?_)
    cases ha with
    | base b => exact ⟨b, .inl rfl⟩
    | index b i => exact ⟨b, .inr ⟨_, ⟨i, .inl rfl⟩, rfl⟩⟩
    | scale b i hw => exact ⟨b, .inr ⟨_, ⟨i, .inr ⟨_, ⟨_, hw, rfl⟩, rfl⟩⟩, rfl⟩⟩

/-- The address behind `k` characters. -/
theorem addressAt_drop_ends_iff (h : NoSpace r) (hk : k ≤ r.length) :
    (addressAt (n + k) (r.drop k) dest).Ends n r ↔ IsAddress (r.drop k) := by
  rw [← Reading.ends_drop hk, addressAt_ends_iff (h.drop k)]

end Address

/-! ### Operands -/

section Operand

variable {n : Nat} {r a : List Char} {d : Argument}

theorem IsAddress.eq_cons (ha : IsAddress a) : ∃ u, a = '(' :: u := by
  cases ha <;> exact ⟨_, rfl⟩

/-- The displacement in front of an address. -/
theorem IsAddress.number_take (ha : IsAddress (r.drop (strtol r).1)) (h : NoSpace r) :
    Number (r.take (strtol r).1) := by
  obtain ⟨u, hu⟩ := ha.eq_cons
  exact X64.number_take h (by rw [hu]; rfl)

/-- What is left of a text in front of an address has the first character of the text. -/
theorem take_eq_nil_or_peek (k : Nat) (r : List Char) :
    r.take k = [] ∨ peek (r.take k) = peek r := by
  cases k with
  | zero => exact .inl rfl
  | succ k => cases r with
    | nil => exact .inl rfl
    | cons c cs => exact .inr rfl

theorem isExpr_of_offsetFirst (h : NoSpace r) (hid : d.derefIdent = none)
    (hnum : ((peek r).isDigit || peek r == '-') = true)
    (hend : (offsetFirstAt n r d).Ends n r) : IsExpr r := by
  have hk := strtol_used_le r
  unfold offsetFirstAt at hend
  dsimp only at hend
  split at hend
  · next hc =>
    have hdrop : r.drop (strtol r).1 = '+' :: r.drop ((strtol r).1 + 1) := by
      rw [← tail_drop]
      exact eq_cons_of_peek hc (by decide)
    have hj := identLen_le (r.drop ((strtol r).1 + 1))
    rw [List.length_drop] at hj
    split at hend
    · obtain ⟨_, hd⟩ := hend
      cases hd
    · next hsome =>
      have hpos : 0 < identLen (r.drop ((strtol r).1 + 1)) := by
        by_contra hz
        rw [identAt, if_neg hz, hid] at hsome
        exact hsome rfl
      obtain ⟨i, hi⟩ := identLen_pos hpos
      rw [Nat.add_assoc n _ 1, Nat.add_assoc n, addressAt_drop_ends_iff h (by omega),
        ← drop_drop] at hend
      have hw := number_take h (by rw [hdrop]; rfl)
      have hne : r.take (strtol r).1 ≠ [] := by
        intro hnil
        have := (take_append_drop (strtol r).1 r).symm
        rw [hnil, hdrop] at this
        rw [this] at hnum
        cases hnum
      rw [← (take_eq_nil_or_peek _ r).resolve_left hne] at hnum
      have := IsExpr.offSymbol hw hnum i hend
      rwa [hi, take_append_drop, ← hdrop, take_append_drop] at this
  · rw [addressAt_drop_ends_iff h hk] at hend
    have := IsExpr.mem (hend.number_take h) hend
    rwa [take_append_drop] at this

theorem isExpr_of_identFirst (h : NoSpace r) (hend : (identFirstAt n r d).Ends n r) : IsExpr r := by
  have hj := identLen_le r
  set u := r.drop (identLen r) with hu
  -- the displacement and the address behind the symbol
  obtain ⟨w, a, hw, hsign, ha, hwa⟩ : ∃ w a, Number w ∧ (w = [] ∨ peek w = '+' ∨ peek w = '-')
      ∧ IsAddress a ∧ u = w ++ a := by
    unfold identFirstAt at hend
    dsimp only at hend
    split at hend
    · next hc =>
      have hk := strtol_used_le u
      rw [hu, List.length_drop] at hk
      rw [Nat.add_assoc, addressAt_drop_ends_iff h (by omega), ← drop_drop] at hend
      refine ⟨_, _, hend.number_take (h.drop _), ?_, hend, (take_append_drop _ _).symm⟩
      exact (take_eq_nil_or_peek _ _).imp_right fun hp => by rwa [hp]
    · rw [addressAt_drop_ends_iff h hj] at hend
      exact ⟨[], u, ⟨rfl, by decide⟩, .inl rfl, hend, rfl⟩
  rcases Nat.eq_zero_or_pos (identLen r) with h0 | hpos
  · rw [h0, drop_zero] at hu
    rw [← hu, hwa]
    exact .mem hw ha
  · obtain ⟨i, hi⟩ := identLen_pos hpos
    have := IsExpr.symbol i hw hsign ha
    rwa [← hwa, hi, take_append_drop] at this

/-- What is read to its end without a size is an expression of the grammar. -/
theorem isExpr_of_ends (h : NoSpace r) (hend : (exprAt n r d).Ends n r)
    (hid : d.derefIdent = none) : IsExpr r := by
  unfold exprAt at hend
  split at hend
  · next hc =>
    obtain ⟨w, rfl⟩ : ∃ w, r = '$' :: w := ⟨_, eq_cons_of_peek hc (by decide)⟩
    obtain ⟨_, hd⟩ := hend
    have hused := (Reading.stop.inj hd).1
    rw [length_cons, tail_cons] at hused
    refine .const ⟨show (strtoull w).1 = w.length by omega, ?_⟩
    cases w with
    | nil => decide
    | cons c cs => exact h c (by simp)
  split at hend
  · cases hr : registerAt r with
    | none =>
      rw [hr] at hend
      obtain ⟨_, hd⟩ := hend
      cases hd
    | some p =>
      rw [hr] at hend
      obtain ⟨k, name, size⟩ := p
      obtain ⟨ref, u, rfl, rfl⟩ := registerAt_eq_some hr
      obtain ⟨_, hd⟩ := hend
      have hused := (Reading.stop.inj hd).1
      rw [length_append] at hused
      obtain rfl : u = [] := length_eq_zero_iff.mp (by omega)
      rw [append_nil]
      exact .reg ref
  split at hend
  · next hnum => exact isExpr_of_offsetFirst h hid hnum hend
  · exact isExpr_of_identFirst h hend

/-- The symbol, the displacement and the address of an operand that starts with neither a digit
    nor a minus sign. -/
theorem identFirstAt_ends {l w : List Char} (h : NoSpace (w ++ a))
    (hl : identLen (l ++ (w ++ a)) = l.length) (hw : Number w)
    (hsign : w = [] ∨ peek w = '+' ∨ peek w = '-') (ha : IsAddress a) :
    (identFirstAt n (l ++ (w ++ a)) d).Ends n (l ++ (w ++ a)) := by
  obtain ⟨u, rfl⟩ := ha.eq_cons
  unfold identFirstAt
  simp only [hl, ← drop_drop, drop_left, ← Reading.ends_append]
  rcases hsign with rfl | hsign
  · exact (addressAt_ends_iff h).mpr ha
  · obtain ⟨c, cs, rfl⟩ : ∃ c cs, w = c :: cs := exists_cons_of_ne_nil (by
      rintro rfl
      revert hsign
      decide)
    have hused := hw.used_append (show NumberEnd ('(' :: u) from rfl) (by simp)
    rw [if_pos (by simpa using hsign), hused, drop_left,
      addressAt_ends_iff fun x hx => h x (mem_append_right _ hx)]
    exact ha

/-- Same, if it does. -/
theorem exprAt_number_ends {w : List Char} (hw : Number w)
    (hnum : ((peek w).isDigit || peek w == '-') = true) {e : List Char} (he : NumberEnd e) :
    exprAt n (w ++ e) d = offsetFirstAt n (w ++ e) d ∧ (strtol (w ++ e)).1 = w.length := by
  cases w with
  | nil => cases hnum
  | cons c cs => exact ⟨exprAt_number hnum n d, hw.used_append he (by simp)⟩

/-- Every expression of the grammar is read to its end. -/
theorem exprAt_ends (h : NoSpace r) (he : IsExpr r) : (exprAt n r d).Ends n r := by
  cases he with
  | @const w hw =>
    have hused : (strtoull w).1 = w.length := hw.1
    rw [exprAt, peek_cons, if_pos rfl, tail_cons, hused]
    exact ⟨_, by rw [length_cons, Nat.add_assoc, Nat.add_comm 1]⟩
  | reg ref =>
    have hreg := registerAt_text ref (show NumberEnd [] by decide)
    rw [append_nil] at hreg
    exact ⟨_, by rw [exprAt, hreg]; rfl⟩
  | @mem w a hw ha =>
    have haddr : NoSpace a := fun x hx => h x (mem_append_right _ hx)
    obtain ⟨u, hu⟩ := ha.eq_cons
    have hend : NumberEnd a := by rw [hu]; rfl
    by_cases hnum : ((peek w).isDigit || peek w == '-') = true
    · obtain ⟨hoff, hused⟩ := exprAt_number_ends hw hnum hend
      rw [hoff, offsetFirstAt]
      simp only [hused, drop_left]
      rw [if_neg (by rw [hu, peek_cons]; decide), ← Reading.ends_append,
        addressAt_ends_iff haddr]
      exact ha
    · -- the text starts with `(` or with the plus sign of the displacement
      have hsign : w = [] ∨ peek w = '+' ∨ peek w = '-' := by
        cases w with
        | nil => exact .inl rfl
        | cons c cs =>
          have hpos : 0 < (strtol (c :: cs)).1 := by rw [hw.1]; simp
          refine .inr ((strtol_head hw.2 hpos).elim (fun hd => ?_) Or.symm)
          have hc : (c.isDigit || c == '-') = true := by rw [show c.isDigit = true from hd]; rfl
          exact absurd hc hnum
      obtain ⟨x, v, hv, hx⟩ : ∃ x v, w ++ a = x :: v ∧ (x = '(' ∨ x = '+') := by
        rcases hsign with rfl | hsign | hsign
        · exact ⟨'(', u, hu, .inl rfl⟩
        · exact ⟨'+', _, by rw [eq_cons_of_peek hsign (by decide)]; rfl, .inr rfl⟩
        · rw [hsign] at hnum
          exact absurd rfl hnum
      have hlen : identLen (w ++ a) = 0 := by
        rw [hv]
        rcases hx with rfl | rfl <;> rfl
      have hexpr : exprAt n (x :: v) d = identFirstAt n (x :: v) d := by
        rcases hx with rfl | rfl <;> simp [exprAt]
      have hfirst := identFirstAt_ends (n := n) (d := d) (l := []) h hlen hw hsign ha
      rw [hv] at hfirst
      rw [hv, hexpr]
      exact hfirst
  | @symbol i w a hw hsign ha =>
    obtain ⟨c, cs, hc, hd⟩ := ident_cons i
    have hid : isIdentChar (peek (w ++ a)) = false := by
      obtain ⟨u, rfl⟩ := ha.eq_cons
      rcases hsign with rfl | hsign | hsign
      · rfl
      · rw [eq_cons_of_peek hsign (by decide)]
        rfl
      · rw [eq_cons_of_peek hsign (by decide)]
        rfl
    have hfirst := identFirstAt_ends (n := n) (d := d)
      (fun x hx => h x (mem_append_right _ hx)) (identAt_ident i hid none).1 hw hsign ha
    rw [hc, cons_append] at hfirst ⊢
    rwa [exprAt_symbol (by rw [hd]; rfl)]
  | @offSymbol w a hw hnum i ha =>
    -- a number ends before `+`, which the symbol follows
    obtain ⟨hoff, hused⟩ := exprAt_number_ends hw hnum
      (show NumberEnd ('+' :: (i.1 ++ a)) from rfl)
    obtain ⟨u, hu⟩ := ha.eq_cons
    obtain ⟨hlen, hident⟩ := identAt_ident i
      (show isIdentChar (peek a) = false by rw [hu]; rfl) d.derefIdent
    rw [hoff, offsetFirstAt]
    simp only [hused, drop_left, peek_cons, if_true, drop_append_cons, hlen, hident,
      Option.isNone_some, Bool.false_eq_true, if_false]
    rw [← drop_drop, drop_append_cons, drop_left, ← Reading.ends_append_cons,
      ← Reading.ends_append, addressAt_ends_iff fun x hx => h x (by simp [hx])]
    exact ha

/-- No expression starts with a size. -/
theorem not_exprAt_ends (hsz : sizeAt r ≠ 0) : ¬ (exprAt n r d).Ends n r := by
  unfold sizeAt at hsz
  split at hsz
  · next hc =>
    simp only [Bool.and_eq_true, beq_iff_eq] at hc
    obtain ⟨⟨hnum, -⟩, hat⟩ := hc
    obtain ⟨c, cs, rfl⟩ : ∃ c cs, r = c :: cs := exists_cons_of_ne_nil (by
      rintro rfl
      cases hnum)
    rw [exprAt_number (show (c.isDigit || c == '-') = true from hnum), offsetFirstAt]
    simp [hat, addressAt, Reading.Ends]
  · exact absurd rfl hsz

/-- **The texts that are operands.**  The parser reads a text without white space to its end
    exactly if the text belongs to the grammar. -/
theorem operandAt_ends_iff (h : NoSpace r) (hid : d.derefIdent = none) :
    (operandAt r d).Ends 0 r ↔ IsOperand r := by
  unfold operandAt
  constructor
  · intro hend
    split at hend
    · exact .plain (isExpr_of_ends h hend hid)
    · next hsz =>
      rw [← Reading.ends_drop (sizeAt_le r), Nat.zero_add] at hend
      have hexpr := isExpr_of_ends (h.drop _) hend hid
      unfold sizeAt at hsz hexpr
      split at hsz
      · next hc =>
        rw [if_pos hc] at hexpr
        simp only [Bool.and_eq_true, decide_eq_true_eq, beq_iff_eq] at hc
        obtain ⟨⟨hnum, hpos⟩, hat⟩ := hc
        have hdrop : r.drop (strtol r).1 = '@' :: r.drop ((strtol r).1 + 1) := by
          rw [← tail_drop]
          exact eq_cons_of_peek hat (by decide)
        have hne : r.take (strtol r).1 ≠ [] := by
          rw [Ne, take_eq_nil_iff, not_or]
          refine ⟨by omega, ?_⟩
          rintro rfl
          cases hnum
        rw [← (take_eq_nil_or_peek _ r).resolve_left hne] at hnum
        have := IsOperand.sized (number_take h (by rw [hdrop]; rfl)) hnum hexpr
        rwa [← hdrop, take_append_drop] at this
      · exact absurd rfl hsz
  · intro hop
    cases hop with
    | plain ht =>
      have hend := exprAt_ends (n := 0) (d := d) h ht
      rw [if_pos (by_contra fun hsz => not_exprAt_ends hsz hend)]
      exact hend
    | @sized w t hw hnum ht =>
      have hused := hw.used_append (show NumberEnd ('@' :: t) from rfl) (by
        rintro rfl
        cases hnum)
      obtain ⟨c, cs, hc⟩ : ∃ c cs, w = c :: cs := exists_cons_of_ne_nil (by
        rintro rfl
        cases hnum)
      have hsz : sizeAt (w ++ '@' :: t) = w.length + 1 := by
        unfold sizeAt
        rw [hused, hc]
        rw [hc, peek_cons] at hnum
        simp [hnum]
      rw [hsz, drop_append_cons, ← Reading.ends_append_cons, Nat.zero_add]
      exact exprAt_ends (fun x hx => h x (by simp [hx])) ht

end Operand

end Bcc.Usdt.X64
