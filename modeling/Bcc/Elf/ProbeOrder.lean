import Bcc.Elf.Probes

namespace Bcc.Elf.Probes

open Bytes Cursor List

/-!
# ELF — the order of the sections with probes

* `listprobes_iff` — whether `listprobes` finds all probes depends on the order of the first
  executable section, `.probes` and the notes.
-/

/-! ### Where the scans stop -/

/-- The section is the first `.probes` behind the first executable section, or the first `.probes`
    if no section is executable. -/
def FoundAt (sections pre : List Section) (s : Section) (post : List Section) : Prop :=
  sections = pre ++ s :: post ∧ s.isProbes = true
    ∧ ((∃ front x between, pre = front ++ x :: between ∧ (∀ y ∈ front, y.isExec = false)
        ∧ x.isExec = true ∧ ∀ y ∈ between, y.isProbes = false)
      ∨ (∀ y ∈ sections, y.isExec = false) ∧ ∀ y ∈ pre, y.isProbes = false)

theorem firstScan_of_exec {front rest : List Section} {x : Section}
    (hfront : ∀ y ∈ front, y.isExec = false) (hx : x.isExec = true) :
    firstScan (front ++ x :: rest) = (firstInstruction (front ++ x :: rest), rest) := by
  have hfind : (front ++ x :: rest).find? Section.isExec = some x := by
    rw [find?_append, find?_eq_none.mpr fun y hy => by simp [hfront y hy],
      Option.none_or, find?_cons_of_pos hx]
  rw [firstScan, seek_append_cons hfront hx, firstInstruction, hfind]
  rfl

variable {sections : List Section}

theorem firstScan_of_none (h : ∀ y ∈ sections, y.isExec = false) :
    firstScan sections = (firstInstruction sections, sections) := by
  have hfind : sections.find? Section.isExec = none :=
    find?_eq_none.mpr fun y hy => by simp [h y hy]
  rw [firstScan, seek_eq_none_iff.mpr h, firstInstruction, hfind]
  rfl

/-- The first scan finds the first executable section, or runs off the end. -/
theorem firstScan_cases (sections : List Section) :
    (∃ front x rest, sections = front ++ x :: rest ∧ (∀ y ∈ front, y.isExec = false)
        ∧ x.isExec = true)
      ∨ ∀ y ∈ sections, y.isExec = false := by
  cases hseek : seek Section.isExec sections with
  | none => exact Or.inr (seek_eq_none_iff.mp hseek)
  | some found =>
    obtain ⟨front, hsections, hfront, hx⟩ := exists_of_seek hseek
    exact Or.inl ⟨front, found.1, found.2, hsections, hfront, hx⟩

theorem firstScan_fst (sections : List Section) :
    (firstScan sections).1 = firstInstruction sections := by
  obtain ⟨front, x, rest, rfl, hfront, hx⟩ | hnone := firstScan_cases sections
  · rw [firstScan_of_exec hfront hx]
  · rw [firstScan_of_none hnone]

variable {pre post : List Section}

theorem secondScan_of_foundAt {s : Section} (h : FoundAt sections pre s post) :
    secondScan sections (firstScan sections).2 = (s.header, post) := by
  obtain ⟨rfl, hs, ⟨front, x, between, rfl, hfront, hx, hbetween⟩ | ⟨hexec, hpre⟩⟩ := h
  · rw [append_assoc, cons_append, firstScan_of_exec hfront hx, secondScan,
      seek_append_cons hbetween hs]
  · rw [firstScan_of_none hexec, secondScan, seek_append_cons hpre hs]

theorem FoundAt.unique {pre' post' : List Section} {s s' : Section}
    (h : FoundAt sections pre s post) (h' : FoundAt sections pre' s' post') :
    pre' = pre ∧ s' = s ∧ post' = post := by
  obtain ⟨-, rfl⟩ := Prod.mk.inj
    ((secondScan_of_foundAt h).symm.trans (secondScan_of_foundAt h'))
  have hsections : pre' ++ s' :: post = pre ++ s :: post := h'.1.symm.trans h.1
  obtain ⟨hpre, hs⟩ := append_inj' hsections rfl
  exact ⟨hpre, (List.cons.inj hs).1, rfl⟩

/-- The second scan stops at a section, or runs off the end. -/
theorem secondScan_cases (sections : List Section) :
    (∃ pre s post, FoundAt sections pre s post)
      ∨ (∀ pre s post, ¬ FoundAt sections pre s post)
        ∧ secondScan sections (firstScan sections).2 = (none, sections) := by
  cases hseek : seek Section.isProbes (firstScan sections).2 with
  | none =>
    have hscan : secondScan sections (firstScan sections).2 = (none, sections) := by
      rw [secondScan, hseek]
    refine Or.inr ⟨fun pre s post hfound => ?_, hscan⟩
    -- a section that is found has a header
    rw [secondScan_of_foundAt hfound] at hscan
    have hs := hfound.2.1
    rw [Section.isProbes, (Prod.mk.inj hscan).1] at hs
    cases hs
  | some found =>
    obtain ⟨s, post⟩ := found
    obtain ⟨between, hrest, hbetween, hs⟩ := exists_of_seek hseek
    left
    obtain ⟨front, x, rest, rfl, hfront, hx⟩ | hnone := firstScan_cases sections
    · rw [firstScan_of_exec hfront hx] at hrest
      refine ⟨front ++ x :: between, s, post, ?_, hs, Or.inl ⟨front, x, between, rfl, hfront, hx,
        hbetween⟩⟩
      rw [show rest = between ++ s :: post from hrest]
      simp
    · rw [firstScan_of_none hnone] at hrest
      exact ⟨between, s, post, hrest, hs, Or.inr ⟨hnone, hbetween⟩⟩

/-! ### The order of the sections -/

/-- The probes of sections, with the address of the first instruction of the file. -/
def Image.probes (e : Image) (sections : List Section) : List Usdt :=
  probesIn none e.elfClass (firstInstruction e.sections) sections

/-- The order of the sections is right: if there is a section `.probes` behind the first executable
    one, no probe is in front of it, and it gives the semaphores the offsets that the first
    `.probes` gives them; if there is none, the first `.probes` gives them no offsets. -/
def Ordered (e : Image) : Prop :=
  (∀ pre s post, FoundAt e.sections pre s post → e.probes pre = []
      ∧ ∀ u ∈ e.probes e.sections,
        offsetInFile s.header u.semaphore = offsetInFile (probesHeader e.sections) u.semaphore)
    ∧ ((∀ pre s post, ¬ FoundAt e.sections pre s post) → ∀ u ∈ e.probes e.sections,
      offsetInFile (probesHeader e.sections) u.semaphore = 0)

theorem isStapsdt_of_isProbes {s : Section} (h : s.isProbes = true) : s.isStapsdt = false := by
  obtain ⟨hheader, hname⟩ : s.header.isSome = true ∧ s.name = some ".probes" := by
    simpa [Section.isProbes] using h
  obtain ⟨hdr, hhdr⟩ := Option.isSome_iff_exists.mp hheader
  simp [Section.isStapsdt, hhdr, hname]

theorem ordered_iff_of_foundAt {e : Image} {s : Section} (h : FoundAt e.sections pre s post) :
    Ordered e ↔ e.probes pre = [] ∧ ∀ u ∈ e.probes e.sections,
      offsetInFile s.header u.semaphore = offsetInFile (probesHeader e.sections) u.semaphore := by
  constructor
  · intro hordered
    exact hordered.1 pre s post h
  · intro hcond
    refine ⟨fun pre' s' post' h' => ?_, fun hnot => absurd h (hnot pre s post)⟩
    obtain ⟨rfl, rfl, rfl⟩ := h.unique h'
    exact hcond

theorem ordered_iff_of_not_foundAt {e : Image}
    (h : ∀ pre s post, ¬ FoundAt e.sections pre s post) :
    Ordered e ↔ ∀ u ∈ e.probes e.sections,
      offsetInFile none u.semaphore = offsetInFile (probesHeader e.sections) u.semaphore := by
  constructor
  · intro hordered u hu
    exact (hordered.2 h u hu).symm
  · intro hcond
    exact ⟨fun pre s post hfound => absurd hfound (h pre s post),
      fun _ u hu => (hcond u hu).symm⟩

/-- **All probes of a file.**  The probes are reported as they are in the file exactly if the order
    of the sections is right. -/
theorem listprobes_iff {e : Image} (hnames : e.shstrndx = true) :
    listprobes e = (0, probesOf e) ↔ Ordered e := by
  have hrun : listprobes e = (0, probesIn (secondScan e.sections (firstScan e.sections).2).1
      e.elfClass (firstInstruction e.sections)
      (secondScan e.sections (firstScan e.sections).2).2) := by
    rw [← thirdScan_eq, ← firstScan_fst, listprobes, if_neg (by simp [hnames])]
  rw [hrun, Prod.mk.injEq, and_iff_right rfl]
  obtain ⟨pre, s, post, hfound⟩ | ⟨hnot, hscan⟩ := secondScan_cases e.sections
  · -- the section that is found has no probes itself
    have hsplit : e.sections = (pre ++ [s]) ++ post := by
      rw [hfound.1, append_assoc, singleton_append]
    have hpre : e.probes (pre ++ [s]) = e.probes pre := by
      simp [Image.probes, probesIn, isStapsdt_of_isProbes hfound.2.1]
    rw [secondScan_of_foundAt hfound, ordered_iff_of_foundAt hfound, ← hpre]
    have hiff := @probesIn_suffix_iff e.elfClass (firstInstruction e.sections) s.header
      (probesHeader e.sections) (pre ++ [s]) post
    rw [← hsplit] at hiff
    exact hiff
  · rw [hscan, ordered_iff_of_not_foundAt hnot]
    have hiff := @probesIn_suffix_iff e.elfClass (firstInstruction e.sections) none
      (probesHeader e.sections) [] e.sections
    exact hiff.trans (and_iff_right rfl)

/-- The sections of a file with one probe, whose semaphore is at address `0x2010`. -/
def textSection : Section := ⟨some ⟨1, 4, 0x1000, 0x1000⟩, some ".text", []⟩

def probesSection : Section := ⟨some ⟨1, 3, 0x2000, 0x1800⟩, some ".probes", []⟩

def noteSection : Section :=
  ⟨some ⟨7, 0, 0, 0x3000⟩, some ".note.stapsdt",
    [[⟨3, 8, 29, [0x73, 0x74, 0x61, 0x70, 0x73, 0x64, 0x74],
      le 8 0x1100 ++ le 8 0 ++ le 8 0x2010 ++ [0x70, 0, 0x71, 0]⟩]]⟩

theorem listprobes_usual_order :
    listprobes ⟨.class64, true, [textSection, probesSection, noteSection]⟩
      = (0, probesOf ⟨.class64, true, [textSection, probesSection, noteSection]⟩) := by
  have hfound : FoundAt [textSection, probesSection, noteSection] [textSection] probesSection
      [noteSection] :=
    ⟨rfl, by decide, Or.inl ⟨[], textSection, [], rfl, by simp, by decide, by simp⟩⟩
  refine (listprobes_iff rfl).mpr ((ordered_iff_of_foundAt hfound).mpr ⟨by decide, ?_⟩)
  intro u _
  rfl

/-- The probe is not found if its note is in front of `.probes`, and the offset of its semaphore
    is not if `.probes` is in front of the text. -/
theorem listprobes_other_orders :
    (listprobes ⟨.class64, true, [noteSection, textSection, probesSection]⟩).2 = []
      ∧ (listprobes ⟨.class64, true, [probesSection, textSection, noteSection]⟩).2.map
        Usdt.semaphoreOffset = [0]
      ∧ (probesOf ⟨.class64, true, [noteSection, textSection, probesSection]⟩).map
        Usdt.semaphoreOffset = [0x1810]
      ∧ (probesOf ⟨.class64, true, [probesSection, textSection, noteSection]⟩).map
        Usdt.semaphoreOffset = [0x1810] := by
  decide

end Bcc.Elf.Probes
