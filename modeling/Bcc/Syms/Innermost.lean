import Bcc.Syms.Lookup
import Mathlib.Algebra.Order.Ring.Int

namespace Bcc.Syms

open CText Elf List

/-!
# Symbols — which of the symbols around an address is found

Symbols can be nested, so that several can cover an address.  `find_addr` goes back from the last
symbol that starts up to the address.  It stops at a symbol that ends before that one starts; but
there can be one around both.

* `findAddr_innermost` — the symbol that is reported, for any table;
* `findAddr_isSome_iff` — the tables and addresses for which one is reported.
-/

section Locate

variable {α : Type} {start size : α → UInt64} {limit offset : UInt64}

/-- The end of an element, which can be behind the last address. -/
def stop (start size : α → UInt64) (a : α) : Nat := (start a).toNat + (size a).toNat

/-- The element is around the address. -/
def Covers (start size : α → UInt64) (offset : UInt64) (a : α) : Prop :=
  start a ≤ offset ∧ offset.toNat < stop start size a

/-- The end as it is computed, for an element that starts up to an address. -/
theorem lt_add_size_iff {a : α} (h : start a ≤ offset) :
    offset < start a + size a ↔ offset.toNat < stop start size a ∧ stop start size a < 2 ^ 64 := by
  have hstart := UInt64.le_iff_toNat_le.mp h
  have hsize := (size a).toNat_lt
  rw [UInt64.lt_iff_toNat_lt, UInt64.toNat_add, stop]
  omega

theorem add_size_lt_iff {a : α} (h : start a ≤ limit) :
    start a + size a < limit ↔ stop start size a < limit.toNat ∨ 2 ^ 64 ≤ stop start size a := by
  have hstart := UInt64.le_iff_toNat_le.mp h
  have hsize := (size a).toNat_lt
  rw [UInt64.lt_iff_toNat_lt, UInt64.toNat_add, stop]
  omega

/-- An element that the loop passes over ends between the limit and the address. -/
def Passed (start size : α → UInt64) (limit offset : UInt64) (a : α) : Prop :=
  limit.toNat ≤ stop start size a ∧ stop start size a ≤ offset.toNat

/-- The loop finds an element around the address if it passes over those in front of it. -/
theorem locateBack_eq_some_iff {l : List α} (hlimit : limit ≤ offset)
    (hle : ∀ a ∈ l, start a ≤ limit) {a : α} :
    locateBack start size limit offset l = some a
      ↔ ∃ pre post, l = pre ++ a :: post ∧ offset.toNat < stop start size a
        ∧ stop start size a < 2 ^ 64 ∧ ∀ t ∈ pre, Passed start size limit offset t := by
  induction l with
  | nil => simp [locateBack]
  | cons b l ih =>
    have hb := hle b mem_cons_self
    have hbo := UInt64.le_trans hb hlimit
    have hrest := ih fun t ht => hle t (mem_cons_of_mem b ht)
    rw [locateBack, if_neg (UInt64.not_lt.mpr hbo)]
    simp only [lt_add_size_iff hbo, add_size_lt_iff hb]
    by_cases hcovers : offset.toNat < stop start size b ∧ stop start size b < 2 ^ 64
    · rw [if_pos hcovers]
      constructor
      · intro h
        cases h
        exact ⟨[], l, rfl, hcovers.1, hcovers.2, by simp⟩
      · rintro ⟨pre, post, hl, hlt, -, hpassed⟩
        cases pre with
        | nil => exact congrArg some (List.cons.inj hl).1
        | cons c pre =>
          obtain rfl := (List.cons.inj hl).1
          exact absurd (hpassed b mem_cons_self).2 (Nat.not_le.mpr hcovers.1)
    · rw [if_neg hcovers]
      constructor
      · intro h
        split at h
        · cases h
        · next hpast =>
          obtain ⟨pre, post, rfl, hlt, hstop, hpassed⟩ := hrest.mp h
          refine ⟨b :: pre, post, rfl, hlt, hstop, forall_mem_cons.mpr ⟨?_, hpassed⟩⟩
          unfold Passed
          omega
      · rintro ⟨pre, post, hl, hlt, hstop, hpassed⟩
        cases pre with
        | nil =>
          obtain rfl := (List.cons.inj hl).1
          exact absurd ⟨hlt, hstop⟩ hcovers
        | cons c pre =>
          obtain ⟨rfl, htail⟩ := List.cons.inj hl
          obtain ⟨hb', hpassed⟩ := forall_mem_cons.mp hpassed
          rw [if_neg (by unfold Passed at hb'; omega)]
          exact hrest.mpr ⟨pre, post, htail, hlt, hstop, hpassed⟩

/-- The element covers the address, its end can be computed, and each element behind it that starts
    up to the address ends up to it, and not before another one of them starts. -/
structure Innermost (start size : α → UInt64) (offset : UInt64) (a : α) (back : List α) : Prop where
  covers : Covers start size offset a
  stop_lt : stop start size a < 2 ^ 64
  passed : ∀ t ∈ back, start t ≤ offset → stop start size t ≤ offset.toNat
    ∧ ∀ u ∈ back, start u ≤ offset → (start u).toNat ≤ stop start size t

/-- The elements that start up to the address, if one of them is known. -/
theorem takeWhile_start {l front back : List α} {a : α}
    (hsort : l.Pairwise (fun a b => start a ≤ start b)) (hl : l = front ++ a :: back)
    (ha : start a ≤ offset) :
    l.takeWhile (fun a => start a ≤ offset)
      = front ++ a :: back.takeWhile (fun a => start a ≤ offset) := by
  subst hl
  have hfront : ∀ b ∈ front, decide (start b ≤ offset) = true := by
    intro b hb
    have hba := (pairwise_append.mp hsort).2.2 b hb a mem_cons_self
    exact decide_eq_true (UInt64.le_trans hba ha)
  rw [takeWhile_append_of_pos hfront, takeWhile_cons, if_pos (decide_eq_true ha)]

/-- **What is found in a sorted table.** -/
theorem locate_eq_some_iff {l : List α} (hsort : l.Pairwise (fun a b => start a ≤ start b))
    {a : α} : locate start size offset l = some a
      ↔ ∃ front back, l = front ++ a :: back ∧ Innermost start size offset a back := by
  have hsplit : l.takeWhile (fun a => start a ≤ offset) ++ l.dropWhile (fun a => start a ≤ offset)
      = l := takeWhile_append_dropWhile
  have hle : ∀ a ∈ l.takeWhile (fun a => start a ≤ offset), start a ≤ offset := by
    intro a ha
    simpa using mem_takeWhile_imp ha
  have hfront : (l.takeWhile (fun a => start a ≤ offset)).Pairwise
      (fun a b => start a ≤ start b) := hsort.sublist (takeWhile_sublist _)
  unfold locate
  cases hback : (l.takeWhile (fun a => start a ≤ offset)).reverse with
  | nil =>
    refine iff_of_false nofun ?_
    rintro ⟨front, back, hl, hinner⟩
    rw [reverse_eq_nil_iff, takeWhile_start hsort hl hinner.covers.1] at hback
    simp at hback
  | cons b rest =>
    have hmem : b ∈ l.takeWhile (fun a => start a ≤ offset) := by
      rw [← mem_reverse, hback]
      exact mem_cons_self
    have hb : start b ≤ offset := hle b hmem
    have hdesc : ∀ t ∈ b :: rest, start t ≤ start b := by
      have hpair := pairwise_reverse.mpr hfront
      rw [hback, pairwise_cons] at hpair
      exact forall_mem_cons.mpr ⟨UInt64.le_refl _, hpair.1⟩
    rw [locateBack_eq_some_iff hb hdesc]
    constructor
    · rintro ⟨pre, post, hpre, hlt, hstop, hpassed⟩
      have htake : l.takeWhile (fun a => start a ≤ offset) = post.reverse ++ a :: pre.reverse := by
        rw [← reverse_reverse (l.takeWhile _), hback, hpre]
        simp
      have ha : start a ≤ offset := hle a (by simp [htake])
      refine ⟨post.reverse, pre.reverse ++ l.dropWhile (fun a => start a ≤ offset), ?_, ⟨ha, hlt⟩,
        hstop, fun t ht hto => ?_⟩
      · conv_lhs => rw [← hsplit, htake]
        simp
      · -- what starts up to the address is in front of the element, going back
        have hmem : ∀ t ∈ pre.reverse ++ l.dropWhile (fun a => start a ≤ offset),
            start t ≤ offset → t ∈ pre := by
          intro t ht hto
          rcases mem_append.mp ht with ht | ht
          · exact mem_reverse.mp ht
          · exact absurd hto (UInt64.not_le.mpr (lt_start_of_mem_dropWhile hsort offset t ht))
        obtain ⟨hlimit, hto'⟩ := hpassed t (hmem t ht hto)
        refine ⟨hto', fun u hu huo => Nat.le_trans ?_ hlimit⟩
        apply hdesc u
        rw [hpre]
        exact mem_append_left _ (hmem u hu huo)
    · rintro ⟨front, back, hl, hinner⟩
      have htake := takeWhile_start hsort hl hinner.covers.1
      have hlist : b :: rest
          = (back.takeWhile (fun a => start a ≤ offset)).reverse ++ a :: front.reverse := by
        rw [← hback, htake]
        simp
      refine ⟨_, _, hlist, hinner.covers.2, hinner.stop_lt, fun t ht => ?_⟩
      have hmem : ∀ t ∈ (back.takeWhile (fun a => start a ≤ offset)).reverse,
          t ∈ back ∧ start t ≤ offset := by
        intro t ht
        have ht := mem_reverse.mp ht
        exact ⟨(takeWhile_sublist _).subset ht, by simpa using mem_takeWhile_imp ht⟩
      obtain ⟨htb, hto⟩ := hmem t ht
      obtain ⟨hstop, hreach⟩ := hinner.passed t htb hto
      -- the first element that the loop looks at is one of them
      have hfirst : b ∈ (back.takeWhile (fun a => start a ≤ offset)).reverse := by
        cases hpre : (back.takeWhile (fun a => start a ≤ offset)).reverse with
        | nil => simp [hpre] at ht
        | cons c pre =>
          rw [hpre] at hlist
          rw [(List.cons.inj hlist).1]
          exact mem_cons_self
      obtain ⟨hbb, hbo⟩ := hmem b hfirst
      exact ⟨hreach b hbb hbo, hstop⟩

end Locate

/-! ### Lookups -/

variable {fs : FileSystem} {path : String} {syms : List Symbol} {offset : UInt64}

/-- **Innermost symbols.**  The symbol that is reported is around the address, without wrapping
    around, with the offset in it, and no symbol that is behind it in the table is around the
    address. -/
theorem findAddr_innermost (hsort : syms.Pairwise (fun a b => a.start ≤ b.start)) {name : String}
    {off : UInt64} (h : (findAddr fs path syms offset).1 = some (name, off)) :
    ∃ front s back, syms = front ++ s :: back ∧ resolveName fs path s.name = some name
      ∧ s.start ≤ offset ∧ offset.toNat < s.start.toNat + s.size.toNat
      ∧ s.start.toNat + s.size.toNat < 2 ^ 64 ∧ off = offset - s.start
      ∧ ∀ t ∈ back, ¬ Covers Symbol.start Symbol.size offset t := by
  rw [(findAddr_spec fs path syms offset).1, answer_eq, Option.bind_eq_some_iff] at h
  obtain ⟨s, hlocate, hname⟩ := h
  obtain ⟨front, back, hsyms, hinner⟩ := (locate_eq_some_iff hsort).mp hlocate
  obtain ⟨name', hname', heq⟩ := Option.map_eq_some_iff.mp hname
  cases heq
  refine ⟨front, s, back, hsyms, hname', hinner.covers.1, hinner.covers.2, hinner.stop_lt, rfl,
    fun t ht hcovers => ?_⟩
  exact absurd (hinner.passed t ht hcovers.1).1 (Nat.not_le.mpr hcovers.2)

/-- A file system without files. -/
def noFiles : FileSystem where
  file _ := ⟨[], fun _ _ => none, none, none⟩
  openElf _ := none
  access _ := false
  checksum _ := none
  sameFile _ _ := false
  symfs := none
  debuginfoRoot := none
  miniDebugInfo _ := none
  debuginfod _ := none

/-- The symbols of the comment in `find_addr`. -/
def nestedSymbols : List Symbol :=
  [⟨.resolved "goo", 0x0, 0x6⟩, ⟨.resolved "foo", 0x6, 0x10⟩, ⟨.resolved "bar", 0x8, 0x4⟩,
    ⟨.resolved "baz", 0x16, 0x10⟩]

/-- At `0x12`, which is in `foo` behind `bar`. -/
theorem findAddr_innermost_nested :
    ∃ front s back, nestedSymbols = front ++ s :: back
      ∧ resolveName noFiles "/bin/a" s.name = some "foo"
      ∧ s.start ≤ 0x12 ∧ (0x12 : UInt64).toNat < s.start.toNat + s.size.toNat
      ∧ s.start.toNat + s.size.toNat < 2 ^ 64 ∧ 0xc = 0x12 - s.start
      ∧ ∀ t ∈ back, ¬ Covers Symbol.start Symbol.size 0x12 t :=
  findAddr_innermost (by decide) (by decide)

/-- **Lookups that report a symbol.**  If all names can be fetched, a symbol is reported exactly if
    one of the symbols is innermost. -/
theorem findAddr_isSome_iff (hsort : syms.Pairwise (fun a b => a.start ≤ b.start))
    (hnames : ∀ s ∈ syms, (resolveName fs path s.name).isSome = true) :
    (findAddr fs path syms offset).1.isSome = true
      ↔ ∃ front s back, syms = front ++ s :: back
        ∧ Innermost Symbol.start Symbol.size offset s back := by
  rw [(findAddr_spec fs path syms offset).1, answer_eq]
  constructor
  · intro h
    obtain ⟨r, hr⟩ := Option.isSome_iff_exists.mp h
    obtain ⟨s, hlocate, -⟩ := Option.bind_eq_some_iff.mp hr
    obtain ⟨front, back, hsyms, hinner⟩ := (locate_eq_some_iff hsort).mp hlocate
    exact ⟨front, s, back, hsyms, hinner⟩
  · rintro ⟨front, s, back, hsyms, hinner⟩
    have hlocate := (locate_eq_some_iff hsort).mpr ⟨front, back, hsyms, hinner⟩
    rw [hlocate, Option.bind_some, Option.isSome_map]
    exact hnames s (mem_of_locate hlocate)

theorem findAddr_isSome_nested :
    (findAddr noFiles "/bin/a" nestedSymbols 0x12).1.isSome = true := by
  refine (findAddr_isSome_iff (by decide) (by decide)).mpr ⟨[⟨.resolved "goo", 0x0, 0x6⟩],
    ⟨.resolved "foo", 0x6, 0x10⟩, _, rfl, ⟨by decide, by decide⟩, by decide, ?_⟩
  decide

/-- A function with two functions in it, one after the other. -/
def siblingSymbols : List Symbol :=
  [⟨.resolved "outer", 0x0, 0x100⟩, ⟨.resolved "first", 0x10, 0x10⟩,
    ⟨.resolved "second", 0x30, 0x10⟩]

/-- Behind the second function, nothing is found: the first one ends before the second one starts,
    so that `outer` is not looked at. -/
theorem findAddr_siblings :
    siblingSymbols.Pairwise (fun a b => a.start ≤ b.start)
      ∧ (∀ s ∈ siblingSymbols, s.start.toNat + s.size.toNat ≤ 2 ^ 64)
      ∧ (∀ s ∈ siblingSymbols, (resolveName noFiles "/bin/a" s.name).isSome = true)
      ∧ (∃ s ∈ siblingSymbols,
        s.start ≤ 0x50 ∧ (0x50 : UInt64).toNat < s.start.toNat + s.size.toNat)
      ∧ (findAddr noFiles "/bin/a" siblingSymbols 0x50).1 = none := by
  decide

end Bcc.Syms
