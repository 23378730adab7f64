import Bcc.Btf.Types
import Bcc.Btf.LineInfo
import Mathlib.Data.List.Nodup

namespace Bcc.Btf

open Bytes CText List

/-!
# BTF — adding lines of sources

`BTF::adjust` sanitizes the types of `.BTF`, puts lines of sources that only the program knows
into a table of strings, and writes the table behind the strings of the section.

* `adjust`, `Adjusted` — the function and its result;
* `record_done`, `walkBlocks_done` — what the walk does for a record, and for all.
-/

/-! ### The model -/

/-- `remapped_sources`: texts, by the names of files. -/
structure Sources where
  files : List (FileName × List UInt8)
  nodup : (files.map Prod.fst).Nodup

/-- The loop that fills `LineCaches`. -/
def lineCaches : List (FileName × List UInt8) → Res Caches
  | [] => .ok []
  | (file, src) :: files => do
    let lines ← lineCache src
    let caches ← lineCaches files
    return (file, lines) :: caches

/-- The fields of a `btf_header` that are read. -/
structure BtfHeader where
  hdrLen : Nat
  typeOff : Nat
  typeLen : Nat
  strOff : Nat
  strLen : Nat
  deriving DecidableEq, Repr

/-- Where the types start. -/
def BtfHeader.types (h : BtfHeader) : Nat := h.hdrLen + h.typeOff

/-- Where the strings start. -/
def BtfHeader.strings (h : BtfHeader) : Nat := h.hdrLen + h.strOff

def readHeader (btf : List UInt8) : Res BtfHeader := do
  let hdrLen ← readLE btf 4 4
  let typeOff ← readLE btf 8 4
  let typeLen ← readLE btf 12 4
  let strOff ← readLE btf 16 4
  let strLen ← readLE btf 20 4
  return ⟨hdrLen, typeOff, typeLen, strOff, strLen⟩

theorem readHeader_eq_ok_iff {btf : List UInt8} {h : BtfHeader} :
    readHeader btf = .ok h ↔ readLE btf 4 4 = .ok h.hdrLen ∧ readLE btf 8 4 = .ok h.typeOff
      ∧ readLE btf 12 4 = .ok h.typeLen ∧ readLE btf 16 4 = .ok h.strOff
      ∧ readLE btf 20 4 = .ok h.strLen := by
  constructor
  · intro hread
    obtain ⟨hdrLen, hhdr, hread⟩ := bind_eq_ok_iff.mp hread
    obtain ⟨typeOff, htoff, hread⟩ := bind_eq_ok_iff.mp hread
    obtain ⟨typeLen, htlen, hread⟩ := bind_eq_ok_iff.mp hread
    obtain ⟨strOff, hsoff, hread⟩ := bind_eq_ok_iff.mp hread
    obtain ⟨strLen, hslen, hread⟩ := bind_eq_ok_iff.mp hread
    cases hread
    exact ⟨hhdr, htoff, htlen, hsoff, hslen⟩
  · rintro ⟨hhdr, htoff, htlen, hsoff, hslen⟩
    unfold readHeader
    rw [hhdr, htoff, htlen, hsoff, hslen]
    rfl

/-- What there is after the walk over the line records: the sections, the header of `.BTF`,
    `new_strings` and `overflow`. -/
structure Walked where
  btf : List UInt8
  ext : List UInt8
  header : BtfHeader
  newStrings : StringTable
  overflow : Bool

/-- `adjust`, up to the end of the walk.  Both sections are changed in their place. -/
def adjustLines (btf ext : List UInt8) (sources : Sources) : Res Walked := do
  let caches ← lineCaches sources.files
  let hdr ← readHeader btf
  let types ← readBytes btf hdr.types hdr.typeLen
  let fixed ← fixupBtf types
  let btf := patch btf hdr.types fixed
  -- the header is read again after the types were changed
  let hdr ← readHeader btf
  let place ← lineInfoPlace ext
  let w ← lineWalk (fun off => cstringAt btf (hdr.strings + off)) hdr.strLen caches
    (ext.drop place.1) place.2
  return ⟨btf, ext.take place.1 ++ w.bytes, hdr, w.table, w.overflow⟩

/-- The new section of `adjust`.  Its size is `unsigned`; memory that is new has any contents. -/
def newSection (fresh : Nat → UInt8) (w : Walked) : Res (List UInt8) :=
  let tmpSecSize := (w.btf.length + w.newStrings.size) % 2 ^ 32
  if tmpSecSize < w.btf.length then .error .outOfBounds
  else
    let tmpSec := w.btf ++ (List.range (tmpSecSize - w.btf.length)).map fresh
    let tmpSec := patch tmpSec 20 (le 4 (w.header.strLen + w.newStrings.size))
    writeStrings w.newStrings.entries tmpSec (w.header.strings + w.header.strLen)

/-- The sections that are left. -/
structure Adjusted where
  btf : List UInt8
  ext : List UInt8
  deriving DecidableEq

/-- `BTF::adjust`: `.BTF` is the new section if there are new strings. -/
def adjust (fresh : Nat → UInt8) (btf ext : List UInt8) (sources : Sources) : Res Adjusted := do
  let w ← adjustLines btf ext sources
  if 0 < w.newStrings.size then
    let btf ← newSection fresh w
    return ⟨btf, w.ext⟩
  else return ⟨w.btf, w.ext⟩

/-! ### What the walk leaves of the records -/

/-- A table that stands for more strings than another, at their offsets. -/
structure Grows (orig : Nat) (t t' : StringTable) : Prop where
  valid : t'.Valid
  orig_eq : t'.origTblLen = orig
  kept : ∀ e ∈ t.entries, e ∈ t'.entries

variable {t t' : StringTable}

theorem Grows.again {orig : Nat} (h : Grows orig t t') : Grows orig t' t' :=
  ⟨h.valid, h.orig_eq, fun _ he => he⟩

theorem Grows.trans {orig : Nat} {t'' : StringTable} (h : Grows orig t t')
    (h' : Grows orig t' t'') : Grows orig t t'' :=
  ⟨h'.valid, h'.orig_eq, fun e he => h'.kept e (h.kept e he)⟩

/-- A record that asks for no line stays; for one that asks for a line, `line_off` is where the
    line is in the table. -/
structure RecordDone (orig : Nat) (t : StringTable) (lines : List (List UInt8))
    (r r' : List UInt8) : Prop where
  unasked : lines = [] → r' = r
  asked : ∀ line, lines = [line] →
    ∃ off, (off, line) ∈ t.entries ∧ r' = patch r 8 (le 4 (orig + off))

theorem RecordDone.mono {orig : Nat} {lines : List (List UInt8)} {r r' : List UInt8}
    (h : RecordDone orig t lines r r') (hg : Grows orig t t') : RecordDone orig t' lines r r' := by
  refine ⟨h.unasked, fun line hline => ?_⟩
  obtain ⟨off, hmem, hr⟩ := h.asked line hline
  exact ⟨off, hg.kept _ hmem, hr⟩

/-- The records of a block after the walk. -/
def RecordsDone (name : Nat → List UInt8) (caches : Caches) (orig : Nat) (t : StringTable) :
    List (List UInt8) → List (List UInt8) → Prop :=
  List.Forall₂ (fun r r' => RecordDone orig t (requests name caches r) r r')

section Walk

variable {name : Nat → List UInt8} {orig : Nat} {caches : Caches} (horig : orig < 2 ^ 32)
include horig

variable {t : StringTable}

theorem grows_addString {t' : StringTable} {off : Nat} {line : List UInt8} (ht : Grows orig t t)
    (h : t.addString line = some (off, t')) : Grows orig t t' ∧ (off, line) ∈ t'.entries := by
  obtain ⟨hvalid, heq, hmem, hkept⟩ := ht.valid.addString (by rw [ht.orig_eq]; exact horig) h
  exact ⟨⟨hvalid, heq.trans ht.orig_eq, hkept⟩, hmem⟩

theorem record_grows (lines : List (List UInt8)) (r : List UInt8) (ht : Grows orig t t) :
    Grows orig t (record orig lines r t).table := by
  induction lines generalizing r t with
  | nil => exact ht
  | cons line lines ih =>
    rw [record]
    cases hadd : t.addString line with
    | none => exact ht
    | some x =>
      have hg := (grows_addString horig ht hadd).1
      exact hg.trans (ih _ hg.again)

/-- **A record**, if the table does not get full. -/
theorem record_done {lines : List (List UInt8)} {r : List UInt8} (ht : Grows orig t t)
    (hover : (record orig lines r t).overflow = false) :
    RecordDone orig (record orig lines r t).table lines r (record orig lines r t).bytes := by
  refine ⟨fun hnil => ?_, fun line hline => ?_⟩
  · subst hnil
    rfl
  · subst hline
    rw [record] at hover ⊢
    cases hadd : t.addString line with
    | none =>
      rw [hadd] at hover
      cases hover
    | some x => exact ⟨x.1, (grows_addString horig ht hadd).2, rfl⟩

/-- **The records of a block.** -/
theorem walkRecs_done {rs : List (List UInt8)} (ht : Grows orig t t)
    (hover : (walkRecs name orig caches rs t).overflow = false) :
    Grows orig t (walkRecs name orig caches rs t).table
      ∧ RecordsDone name caches orig (walkRecs name orig caches rs t).table rs
          (walkRecs name orig caches rs t).recs := by
  induction rs generalizing t with
  | nil => exact ⟨ht, List.Forall₂.nil⟩
  | cons r rs ih =>
    simp only [walkRecs] at hover ⊢
    cases hrec : (record orig (requests name caches r) r t).overflow with
    | true =>
      rw [hrec] at hover
      cases hover
    | false =>
      rw [hrec] at hover
      have hg := record_grows horig (requests name caches r) r ht
      obtain ⟨hg', hrest⟩ := ih hg.again hover
      exact ⟨hg.trans hg', List.Forall₂.cons ((record_done horig ht hrec).mono hg') hrest⟩

/-- **The blocks.** -/
theorem walkBlocks_done {bs : List Block} (ht : Grows orig t t)
    (hover : (walkBlocks name orig caches bs t).overflow = false) :
    Grows orig t (walkBlocks name orig caches bs t).table
      ∧ List.Forall₂ (fun b b' => b'.nameOff = b.nameOff
          ∧ RecordsDone name caches orig (walkBlocks name orig caches bs t).table b.recs b'.recs)
        bs (walkBlocks name orig caches bs t).blocks := by
  induction bs generalizing t with
  | nil => exact ⟨ht, List.Forall₂.nil⟩
  | cons b bs ih =>
    simp only [walkBlocks] at hover ⊢
    cases hrecs : (walkRecs name orig caches b.recs t).overflow with
    | true =>
      rw [hrecs] at hover
      cases hover
    | false =>
      rw [hrecs] at hover
      obtain ⟨hg, hdone⟩ := walkRecs_done horig ht hrecs
      obtain ⟨hg', hrest⟩ := ih hg.again hover
      -- the table that the other blocks leave still has the lines of this one
      have hkept := hdone.imp (fun r r' h => h.mono hg')
      exact ⟨hg.trans hg', List.Forall₂.cons ⟨rfl, hkept⟩ hrest⟩

end Walk

/-! ### Lines that records stand for -/

/-- The caches of sources that are not too long. -/
def Sources.caches (sources : Sources) : Caches :=
  sources.files.map (fun f => (f.1, (sourceLines f.2).map SourceLine.cached))

theorem lineCaches_eq {files : List (FileName × List UInt8)}
    (h : ∀ f ∈ files, f.2.length < 2 ^ 32) :
    lineCaches files
      = .ok (files.map (fun f => (f.1, (sourceLines f.2).map SourceLine.cached))) := by
  induction files with
  | nil => rfl
  | cons f files ih =>
    obtain ⟨hf, hfiles⟩ := forall_mem_cons.mp h
    rw [lineCaches, lineCache_eq hf, ih hfiles]
    rfl

theorem length_lt_of_lineCaches {files : List (FileName × List UInt8)} {caches : Caches}
    (h : lineCaches files = .ok caches) : ∀ f ∈ files, f.2.length < 2 ^ 32 := by
  induction files generalizing caches with
  | nil => exact fun f hf => absurd hf not_mem_nil
  | cons f files ih =>
    obtain ⟨lines, hlines, h⟩ := bind_eq_ok_iff.mp h
    obtain ⟨rest, hrest, -⟩ := bind_eq_ok_iff.mp h
    refine forall_mem_cons.mpr ⟨?_, ih hrest⟩
    unfold lineCache at hlines
    split at hlines
    · cases hlines
    · next hlen => exact Nat.lt_of_not_le hlen

/-- A record without a text, of a file that is among the sources, and the line it stands for. -/
def Stands (name : Nat → List UInt8) (sources : Sources) (r : List UInt8) (l : SourceLine) : Prop :=
  lineOff r = 0 ∧ 0 < lineNum r ∧ ∃ f ∈ sources.files, name (fileNameOff r) = f.1.chars
    ∧ (sourceLines f.2)[lineNum r - 1]? = some l

theorem FileName.eq_of_chars {f g : FileName} (h : f.chars = g.chars) : f = g := by
  obtain ⟨x, hx⟩ := f
  obtain ⟨y, hy⟩ := g
  obtain rfl : x = y := h
  rfl

/-- One element of a list is mapped to something. -/
theorem filterMap_eq_singleton {α β : Type*} {f : α → Option β} {xs : List α} {a : α} {b : β}
    (hnodup : xs.Nodup) (ha : a ∈ xs) (hb : f a = some b) (hne : ∀ x ∈ xs, x ≠ a → f x = none) :
    xs.filterMap f = [b] := by
  obtain ⟨front, back, rfl⟩ := append_of_mem ha
  have hnot : a ∉ front ∧ a ∉ back := by
    have hdis := nodup_append.mp hnodup
    exact ⟨fun h => hdis.2.2 a h a mem_cons_self rfl, (nodup_cons.mp hdis.2.1).1⟩
  have hfront : front.filterMap f = [] := by
    apply filterMap_eq_nil_iff.mpr
    intro x hx
    exact hne x (mem_append_left _ hx) (fun heq => hnot.1 (heq ▸ hx))
  have hback : back.filterMap f = [] := by
    apply filterMap_eq_nil_iff.mpr
    intro x hx
    exact hne x (mem_append_right _ (mem_cons_of_mem _ hx)) (fun heq => hnot.2 (heq ▸ hx))
  rw [filterMap_append, filterMap_cons_some hb, hfront, hback, nil_append]

theorem requests_of_stands {name : Nat → List UInt8} {sources : Sources} {r : List UInt8}
    {l : SourceLine} (h : Stands name sources r l) :
    requests name sources.caches r = [l.cached] := by
  obtain ⟨hoff, hnum, f, hf, hname, hline⟩ := h
  unfold requests Sources.caches
  rw [if_pos hoff, filterMap_map]
  refine filterMap_eq_singleton (List.Nodup.of_map _ sources.nodup) hf ?_ ?_
  · show asked name r (f.1, _) = _
    unfold asked
    rw [if_pos ⟨hname, hnum⟩]
    rw [getElem?_map, hline]
    rfl
  · -- another file has another name
    intro g hg hne
    show asked name r (g.1, _) = none
    unfold asked
    rw [if_neg]
    rintro ⟨hname', -⟩
    have heq : g.1 = f.1 := FileName.eq_of_chars (hname'.symm.trans hname)
    exact hne (inj_on_of_nodup_map sources.nodup hg hf heq)

theorem requests_of_not_stands {name : Nat → List UInt8} {sources : Sources} {r : List UInt8}
    (h : ∀ l, ¬ Stands name sources r l) : requests name sources.caches r = [] := by
  unfold requests Sources.caches
  split
  · next hoff =>
    rw [filterMap_map]
    apply filterMap_eq_nil_iff.mpr
    intro f hf
    show asked name r (f.1, _) = none
    unfold asked
    split
    · next hcond =>
      rw [getElem?_map]
      cases hline : (sourceLines f.2)[lineNum r - 1]? with
      | none => rfl
      | some l => exact absurd ⟨hoff, hcond.2, f, hf, hcond.1, hline⟩ (h l)
    · rfl
  · rfl

end Bcc.Btf
