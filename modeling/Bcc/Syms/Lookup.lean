import Bcc.Elf.File
import Bcc.Order.KeySort

namespace Bcc.Syms

open CText Elf List Sorting

/-!
# Symbols — the table of a module and the lookup of an address

* `Symbol` — carries its name, or only where it stands in its file; such a name is fetched when the
  symbol is first found, and kept;
* `locate_lastAt` — the lookup in a table that is sorted by start address;
* `lookups_eq` — a sequence of lookups.
-/

/-! ### The table -/

/-- The name of a symbol: resolved, or the place where it stands. -/
inductive SymName where
  | resolved (name : String)
  | indexed (sectionIdx strTableIdx strLen : Nat) (debugfile : Bool)
  deriving DecidableEq, Repr

/-- `ProcSyms::Symbol`. -/
structure Symbol where
  name : SymName
  start : UInt64
  size : UInt64
  deriving DecidableEq, Repr

/-- `bcc_elf_symbol_str`, into a buffer of `len` characters and one more for the NUL.  The
    debug file is searched for anew, and without a look at its checksum. -/
def symbolStr (fs : FileSystem) (path : String) (sectionIdx strTableIdx len : Nat)
    (debugfile : Bool) : Option String := do
  let e ← fs.openElf path
  let f ← if debugfile then fs.findDebugFile e path false else some e
  let name ← (fs.file f).strptr sectionIdx strTableIdx
  return String.ofList (name.toList.take len)

/-- The name of a symbol, fetched if necessary. -/
def resolveName (fs : FileSystem) (path : String) : SymName → Option String
  | .resolved name => some name
  | .indexed sectionIdx strTableIdx strLen debugfile =>
      symbolStr fs path sectionIdx strTableIdx (strLen + 1) debugfile

/-! ### The lookup -/

/-- What a lookup reports: the name of the symbol and the offset in it. -/
abbrev Answer := Option (String × UInt64)

/-- The loop of `find_addr`, over the symbols from the last one that may be meant backwards. -/
def walk (fs : FileSystem) (path : String) (limit offset : UInt64) :
    List Symbol → Answer × List Symbol
  | [] => (none, [])
  | s :: back =>
    if offset < s.start then (none, s :: back)
    else if offset < s.start + s.size then
      match resolveName fs path s.name with
      | none => (none, s :: back)
      | some name => (some (name, offset - s.start), { s with name := .resolved name } :: back)
    -- no symbol before this one can reach the address
    else if s.start + s.size < limit then (none, s :: back)
    else
      let rest := walk fs path limit offset back
      (rest.1, s :: rest.2)

/-- `find_addr` on a loaded table: the answer, and the table with the name that was fetched.
    `std::upper_bound` finds the first symbol that starts behind the offset. -/
def findAddr (fs : FileSystem) (path : String) (syms : List Symbol) (offset : UInt64) :
    Answer × List Symbol :=
  match (syms.takeWhile (fun s => s.start ≤ offset)).reverse with
  | [] => (none, syms)
  | s :: back =>
    let rest := walk fs path s.start offset (s :: back)
    (rest.1, rest.2.reverse ++ syms.dropWhile (fun s => s.start ≤ offset))

/-- One lookup after the other. -/
def lookups (fs : FileSystem) (path : String) : List Symbol → List UInt64 → List Answer
  | _, [] => []
  | syms, offset :: offsets =>
    let r := findAddr fs path syms offset
    r.1 :: lookups fs path r.2 offsets

/-! ### Which symbol is found -/

section Locate

variable {α β : Type} (start size : α → UInt64)

/-- The loop of `find_addr`, as far as it looks at addresses. -/
def locateBack (limit offset : UInt64) : List α → Option α
  | [] => none
  | a :: back =>
    if offset < start a then none
    else if offset < start a + size a then some a
    else if start a + size a < limit then none
    else locateBack limit offset back

/-- The element that `find_addr` finds in a table. -/
def locate (offset : UInt64) (l : List α) : Option α :=
  match (l.takeWhile (fun a => start a ≤ offset)).reverse with
  | [] => none
  | a :: back => locateBack start size (start a) offset (a :: back)

variable {start size}

variable {offset : UInt64}

theorem locateBack_map {f : β → α} {limit : UInt64} {l : List β} :
    locateBack start size limit offset (l.map f)
      = (locateBack (fun b => start (f b)) (fun b => size (f b)) limit offset l).map f := by
  induction l with
  | nil => rfl
  | cons b l ih =>
    simp only [map_cons, locateBack]
    split
    · rfl
    · split
      · rfl
      · split
        · rfl
        · exact ih

/-- Only the addresses decide which element is found. -/
theorem locate_map {f : β → α} {l : List β} :
    locate start size offset (l.map f)
      = (locate (fun b => start (f b)) (fun b => size (f b)) offset l).map f := by
  unfold locate
  rw [takeWhile_map, ← map_reverse]
  show (match ((l.takeWhile (fun b => start (f b) ≤ offset)).reverse).map f with
    | [] => none
    | a :: back => locateBack start size (start a) offset (a :: back)) = _
  cases (l.takeWhile (fun b => start (f b) ≤ offset)).reverse with
  | nil => rfl
  | cons b back => exact locateBack_map (l := b :: back)

theorem mem_of_locateBack {limit : UInt64} {l : List α} {a : α}
    (h : locateBack start size limit offset l = some a) : a ∈ l := by
  induction l with
  | nil => cases h
  | cons b l ih =>
    rw [locateBack] at h
    split at h
    · cases h
    · split at h
      · cases h
        exact mem_cons_self
      · split at h
        · cases h
        · exact mem_cons_of_mem b (ih h)

/-- What is found is in the table. -/
theorem mem_of_locate {l : List α} {a : α} (h : locate start size offset l = some a) : a ∈ l := by
  unfold locate at h
  split at h
  · cases h
  · next b back hb =>
    have hmem := mem_of_locateBack h
    rw [← hb, mem_reverse] at hmem
    exact (takeWhile_sublist _).subset hmem

/-- In a sorted table, everything behind the elements that start up to an address starts after
    it. -/
theorem lt_start_of_mem_dropWhile {l : List α} (hsort : l.Pairwise (fun a b => start a ≤ start b))
    (v : UInt64) : ∀ b ∈ l.dropWhile (fun a => start a ≤ v), v < start b := by
  cases hd : l.dropWhile (fun a => start a ≤ v) with
  | nil => exact fun b hb => absurd hb not_mem_nil
  | cons d ds =>
    have hhead : v < start d := by
      have hnot := head?_dropWhile_not (fun a => decide (start a ≤ v)) l
      rw [hd] at hnot
      simpa using hnot
    have hds : (d :: ds).Pairwise (fun a b => start a ≤ start b) := by
      rw [← hd]
      exact hsort.sublist (dropWhile_sublist _)
    intro b hb
    rcases mem_cons.mp hb with rfl | hb
    · exact hhead
    · exact UInt64.lt_of_lt_of_le hhead ((pairwise_cons.mp hds).1 b hb)

end Locate

/-! ### The start of a symbol -/

section LastAt

variable {α : Type} {start size : α → UInt64} {v : UInt64}

/-- The last element of a table that starts at an address and is not empty. -/
def lastAt (start size : α → UInt64) (v : UInt64) (l : List α) : Option α :=
  l.reverse.find? (fun a => start a = v ∧ size a ≠ 0)

/-- Walking back from the elements at `v` finds the first one that is not empty, unless it
    reaches beyond the last address. -/
theorem locateBack_at {l : List α} (hle : ∀ a ∈ l, start a ≤ v)
    (hdesc : l.Pairwise (fun a b => start b ≤ start a)) (s : α) :
    locateBack start size v v l = some s ∧ start s = v
      ↔ l.find? (fun a => start a = v ∧ size a ≠ 0) = some s ∧ v < v + size s := by
  induction l with
  | nil => simp [locateBack]
  | cons a l ih =>
    have hrest := ih (fun b hb => hle b (mem_cons_of_mem a hb)) (pairwise_cons.mp hdesc).2
    have hnlt : ¬ v < start a := UInt64.not_lt.mpr (hle a mem_cons_self)
    rw [locateBack, if_neg hnlt, find?_cons]
    by_cases hv : start a = v
    · by_cases hz : size a = 0
      · -- an empty element at the address is passed over
        simpa [hv, hz] using hrest
      · have hpos : decide (start a = v ∧ size a ≠ 0) = true := by simp [hv, hz]
        rw [hpos]
        by_cases hlt : v < start a + size a
        · rw [if_pos hlt]
          constructor
          · rintro ⟨h, -⟩
            cases h
            exact ⟨rfl, hv ▸ hlt⟩
          · rintro ⟨h, -⟩
            cases h
            exact ⟨rfl, hv⟩
        · have hwrap : start a + size a < v := by
            have hne : start a + size a ≠ v := by grind
            exact UInt64.lt_of_le_of_ne (UInt64.not_lt.mp hlt) hne
          rw [if_neg hlt, if_pos hwrap]
          constructor
          · rintro ⟨h, -⟩
            cases h
          · rintro ⟨h, hs⟩
            cases h
            rw [hv] at hlt
            exact absurd hs hlt
    · -- no element behind this one starts at the address
      have hnone : l.find? (fun b => start b = v ∧ size b ≠ 0) = none := by
        rw [find?_eq_none]
        intro b hb hp
        have hba := (pairwise_cons.mp hdesc).1 b hb
        have hbv : start b = v := by simpa using (of_decide_eq_true hp).1
        exact hv (UInt64.le_antisymm (hle a mem_cons_self) (hbv ▸ hba))
      have hneg : decide (start a = v ∧ size a ≠ 0) = false := by simp [hv]
      rw [hneg]
      rw [hnone] at hrest ⊢
      split
      · constructor
        · rintro ⟨h, hs⟩
          cases h
          exact absurd hs hv
        · rintro ⟨h, -⟩
          cases h
      · split
        · simp
        · exact hrest

/-- **At the start of a symbol.**  In a sorted table a lookup at an address where an element
    starts finds the last one that is not empty, unless that reaches beyond the last address. -/
theorem locate_lastAt {l : List α} (hsort : l.Pairwise (fun a b => start a ≤ start b))
    (hmem : ∃ a ∈ l, start a = v) (s : α) :
    locate start size v l = some s ∧ start s = v
      ↔ lastAt start size v l = some s ∧ v < v + size s := by
  have hsplit : l.takeWhile (fun a => start a ≤ v) ++ l.dropWhile (fun a => start a ≤ v) = l :=
    takeWhile_append_dropWhile
  have hpair := hsort
  rw [← hsplit, pairwise_append] at hpair
  obtain ⟨hfront, -, hcross⟩ := hpair
  have hbehind := lt_start_of_mem_dropWhile hsort v
  have hle : ∀ a ∈ l.takeWhile (fun a => start a ≤ v), start a ≤ v := by
    intro a ha
    simpa using mem_takeWhile_imp ha
  have hlast : lastAt start size v l
      = (l.takeWhile (fun a => start a ≤ v)).reverse.find? (fun a => start a = v ∧ size a ≠ 0) := by
    have hnone : (l.dropWhile (fun a => start a ≤ v)).reverse.find?
        (fun a => start a = v ∧ size a ≠ 0) = none := by
      rw [find?_eq_none]
      intro b hb hp
      have hlt := hbehind b (mem_reverse.mp hb)
      rw [(of_decide_eq_true hp).1] at hlt
      exact UInt64.lt_irrefl _ hlt
    unfold lastAt
    conv_lhs => rw [← hsplit]
    rw [reverse_append, find?_append, hnone, Option.none_or]
  obtain ⟨a, ha, hav⟩ := hmem
  have hfronta : a ∈ l.takeWhile (fun a => start a ≤ v) := by
    rw [← hsplit] at ha
    rcases mem_append.mp ha with ha | ha
    · exact ha
    · exact absurd (hbehind a ha) (by rw [hav]; exact UInt64.lt_irrefl v)
  rw [hlast]
  unfold locate
  cases hback : (l.takeWhile (fun a => start a ≤ v)).reverse with
  | nil => exact absurd (reverse_eq_nil_iff.mp hback ▸ hfronta) not_mem_nil
  | cons b back =>
    have hdesc : (b :: back).Pairwise (fun a b => start b ≤ start a) := by
      rw [← hback, pairwise_reverse]
      exact hfront
    have hall : ∀ c ∈ b :: back, start c ≤ v := by
      intro c hc
      rw [← hback, mem_reverse] at hc
      exact hle c hc
    have hb : start b = v := by
      have hab : a ∈ b :: back := by
        rw [← hback, mem_reverse]
        exact hfronta
      apply UInt64.le_antisymm (hall b mem_cons_self)
      rcases mem_cons.mp hab with rfl | hab
      · exact hav ▸ UInt64.le_refl _
      · exact hav ▸ (pairwise_cons.mp hdesc).1 a hab
    dsimp only
    rw [hb]
    exact locateBack_at hall hdesc s

end LastAt

/-! ### Lookups do not depend on each other -/

/-- All that matters of a symbol: start, size, and the name it would be found with. -/
def view (fs : FileSystem) (path : String) (s : Symbol) : UInt64 × UInt64 × Option String :=
  (s.start, s.size, resolveName fs path s.name)

/-- The answer of a lookup. -/
def answer (views : List (UInt64 × UInt64 × Option String)) (offset : UInt64) : Answer :=
  (locate (fun v => v.1) (fun v => v.2.1) offset views).bind
    (fun v => v.2.2.map (fun name => (name, offset - v.1)))

variable (fs : FileSystem)

variable (path : String)

/-- The walk finds what the addresses say, and changes nothing that matters. -/
theorem walk_spec (limit offset : UInt64) (back : List Symbol) :
    (walk fs path limit offset back).1
        = (locateBack Symbol.start Symbol.size limit offset back).bind
          (fun s => (resolveName fs path s.name).map (fun name => (name, offset - s.start)))
      ∧ (walk fs path limit offset back).2.map (view fs path) = back.map (view fs path) := by
  induction back with
  | nil => exact ⟨rfl, rfl⟩
  | cons s back ih =>
    rw [walk, locateBack]
    split
    · exact ⟨rfl, rfl⟩
    split
    · cases hname : resolveName fs path s.name with
      | none => exact ⟨by simp [hname], rfl⟩
      | some name =>
        have hview : view fs path { s with name := .resolved name } = view fs path s := by
          rw [view, view, hname]
          rfl
        exact ⟨by simp [hname], congrArg (· :: back.map (view fs path)) hview⟩
    · split
      · exact ⟨rfl, rfl⟩
      · exact ⟨ih.1, congrArg (view fs path s :: ·) ih.2⟩

variable (syms : List Symbol)

theorem answer_eq (offset : UInt64) :
    answer (syms.map (view fs path)) offset
      = (locate Symbol.start Symbol.size offset syms).bind
        (fun s => (resolveName fs path s.name).map (fun name => (name, offset - s.start))) := by
  rw [answer, locate_map, Option.bind_map]
  rfl

/-- A lookup answers what the views say, and keeps the views. -/
theorem findAddr_spec (offset : UInt64) :
    (findAddr fs path syms offset).1 = answer (syms.map (view fs path)) offset
      ∧ (findAddr fs path syms offset).2.map (view fs path) = syms.map (view fs path) := by
  rw [answer_eq]
  unfold findAddr locate
  cases hback : (syms.takeWhile (fun s => s.start ≤ offset)).reverse with
  | nil => exact ⟨rfl, rfl⟩
  | cons s back =>
    obtain ⟨h1, h2⟩ := walk_spec fs path s.start offset (s :: back)
    refine ⟨h1, ?_⟩
    rw [map_append, map_reverse, h2, ← map_reverse, ← hback, reverse_reverse,
      ← map_append, takeWhile_append_dropWhile]

/-- **Runs.**  Each lookup of a run answers as if it were the first one. -/
theorem lookups_eq (offsets : List UInt64) :
    lookups fs path syms offsets = offsets.map (answer (syms.map (view fs path))) := by
  induction offsets generalizing syms with
  | nil => rfl
  | cons offset offsets ih =>
    obtain ⟨h1, h2⟩ := findAddr_spec fs path syms offset
    rw [lookups, map_cons, h1, ih, h2]

end Bcc.Syms
