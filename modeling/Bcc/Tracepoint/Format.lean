import Bcc.Layout.Struct
import Bcc.Tracepoint.Parser

namespace Bcc.Tracepoint

open CLayout CText List

/-!
# Tracepoints — format files

* `FormatLine` — the lines of a format file as the kernel writes them;
* `getlines_fileText` — what is read.
-/

/-! ### Lines -/

/-- Blanks of a line. -/
def IsBlank (cs : List Char) : Prop := ∀ c ∈ cs, c = ' ' ∨ c = '\t'

/-- A line that declares a field: `field:TYPE NAME; offset:N; size:N;` and whatever follows. -/
structure FieldLine where
  indent : List Char
  type : List Char
  sep : Char
  name : List Char
  gap : List Char
  offset : Nat
  gap' : List Char
  size : Nat
  rest : List Char
  indent_blank : IsBlank indent
  gap_blank : IsBlank gap
  gap_blank' : IsBlank gap'
  sep_blank : sep = ' ' ∨ sep = '\t'
  field_chars : ∀ c ∈ type ++ sep :: name, c ≠ ';' ∧ c ≠ '\n'
  name_chars : ∀ c ∈ name, c ≠ ' ' ∧ c ≠ '\t'
  rest_chars : '\n' ∉ rest
  offset_lt : offset < 2 ^ 31
  size_lt : size < 2 ^ 31

namespace FieldLine

variable (l : FieldLine)

/-- The declaration of the field. -/
def field : List Char := l.type ++ l.sep :: l.name

/-- The line. -/
def text : List Char :=
  l.indent ++ ("field:".toList ++ (l.field ++ (';' :: l.gap ++ ("offset:".toList
    ++ (Nat.toDigits 10 l.offset ++ (';' :: l.gap' ++ ("size:".toList
      ++ (Nat.toDigits 10 l.size ++ (';' :: l.rest)))))))))

end FieldLine

/-- A line of a format file.  Lines that are not of a field must not look like one. -/
inductive FormatLine where
  | field (l : FieldLine)
  | other (text : List Char) (noField : scanLine text = some none) (noNewline : '\n' ∉ text)

def FormatLine.text : FormatLine → List Char
  | field l => l.text
  | other text _ _ => text

/-- The fields, in the order of their lines. -/
def fieldsOf (lines : List FormatLine) : List FieldLine :=
  lines.filterMap (fun
    | .field l => some l
    | .other _ _ _ => none)

/-- The text of a format file. -/
def fileText (lines : List FormatLine) : List Char := lines.flatMap (fun l => l.text ++ ['\n'])

/-! ### What is read of a line -/

/-- What stands behind a mark. -/
theorem take_of_drop {text mark mid b : List Char} {n k : Nat} (hk : mark.length = k)
    (h : text.drop n = mark ++ (mid ++ b)) :
    (text.drop (n + k)).take ((mark ++ mid).length + n - n - k) = mid := by
  have hlen : (mark ++ mid).length + n - n - k = mid.length := by
    rw [length_append]
    omega
  rw [hlen, ← drop_drop, h, ← hk, drop_left, take_left]

theorem not_mem_of_blank {c : Char} {cs : List Char} (h : IsBlank cs) (h1 : c ≠ ' ')
    (h2 : c ≠ '\t') : c ∉ cs := by
  intro hc
  rcases h c hc with rfl | rfl
  · exact h1 rfl
  · exact h2 rfl

/-- **Reading.**  A line of a field is read as it was written: each search starts where the last
    one ended. -/
theorem FieldLine.scanLine_text (l : FieldLine) :
    scanLine l.text = some (some ⟨l.field, l.offset, l.size⟩) := by
  have hindent : 'f' ∉ l.indent := not_mem_of_blank l.indent_blank (by decide) (by decide)
  have hfield : ';' ∉ "field:".toList ++ l.field := by
    rw [mem_append, not_or]
    exact ⟨by decide, fun hc => (l.field_chars _ hc).1 rfl⟩
  have hgap : 'o' ∉ ';' :: l.gap := by
    rw [mem_cons, not_or]
    exact ⟨by decide, not_mem_of_blank l.gap_blank (by decide) (by decide)⟩
  have hoffset : ';' ∉ "offset:".toList ++ Nat.toDigits 10 l.offset := by
    rw [mem_append, not_or]
    exact ⟨by decide, not_mem_toDigits (by decide) _⟩
  have hgap' : 's' ∉ ';' :: l.gap' := by
    rw [mem_cons, not_or]
    exact ⟨by decide, not_mem_of_blank l.gap_blank' (by decide) (by decide)⟩
  have hsize : ';' ∉ "size:".toList ++ Nat.toDigits 10 l.size := by
    rw [mem_append, not_or]
    exact ⟨by decide, not_mem_toDigits (by decide) _⟩
  have hsemi : [';'].head? = some ';' := rfl
  have hmark : "offset:".toList.head? = some 'o' := by decide
  have hmark' : "size:".toList.head? = some 's' := by decide
  have h₀ : find "field:".toList l.text = some l.indent.length :=
    find_append_self (by decide) hindent _
  have d₀ : l.text.drop l.indent.length = _ := drop_left
  obtain ⟨h₁, d₁⟩ := findFrom_of_drop hsemi (d₀.trans (append_assoc _ _ _).symm) hfield
  obtain ⟨h₂, d₂⟩ := findFrom_of_drop hmark (d₁.trans (append_assoc [';'] _ _).symm) hgap
  obtain ⟨h₃, d₃⟩ := findFrom_of_drop hsemi (d₂.trans (append_assoc _ _ _).symm) hoffset
  obtain ⟨h₄, d₄⟩ := findFrom_of_drop hmark' (d₃.trans (append_assoc [';'] _ _).symm) hgap'
  obtain ⟨h₅, -⟩ := findFrom_of_drop hsemi (d₄.trans (append_assoc _ _ _).symm) hsize
  have s₀ := take_of_drop (show "field:".toList.length = 6 by decide) d₀
  have s₂ := take_of_drop (show "offset:".toList.length = 7 by decide) d₂
  have s₄ := take_of_drop (show "size:".toList.length = 5 by decide) d₄
  unfold scanLine
  simp only [h₀, h₁, h₂, h₃, h₄, h₅]
  rw [s₀, s₂, s₄, stoi_toDigits l.offset_lt, stoi_toDigits l.size_lt]
  rfl

/-- Nothing of a line ends it. -/
theorem FieldLine.newline_not_mem_text (l : FieldLine) : '\n' ∉ l.text := by
  have hblank : ∀ {cs}, IsBlank cs → '\n' ∉ cs :=
    fun h => not_mem_of_blank h (by decide) (by decide)
  have hdigits := not_mem_toDigits (c := '\n') (by decide)
  unfold text
  simp only [mem_append, mem_cons, not_or]
  exact ⟨hblank l.indent_blank, by decide, fun h => (l.field_chars _ h).2 rfl,
    ⟨by decide, hblank l.gap_blank⟩, by decide, hdigits _, ⟨by decide, hblank l.gap_blank'⟩,
    by decide, hdigits _, by decide, l.rest_chars⟩

theorem getlines_fileText (lines : List FormatLine) :
    getlines (fileText lines) = lines.map (·.text) := by
  have hflat : fileText lines = (lines.map (·.text)).flatMap (· ++ ['\n']) := by
    rw [fileText, flatMap_map]
  rw [hflat, getlines_flatMap]
  intro t ht
  obtain ⟨l, -, rfl⟩ := mem_map.mp ht
  cases l with
  | field l => exact l.newline_not_mem_text
  | other text noField noNewline => exact noNewline

/-! ### Fields of a struct -/

/-- What the parser makes of a field. -/
def FieldLine.classified (enumVal : List Char → Option Int) (l : FieldLine) :
    FieldKind × List Char × List Char := classify enumVal l.field l.size

/-- The member that is written for a field which is not common. -/
def FieldLine.member (enumVal : List Char → Option Int) (l : FieldLine) : Option Member :=
  match l.classified enumVal with
  | (.dataLoc, _, name) => some (dataLoc name)
  | (.regular, type, name) => some ⟨type, name⟩
  | _ => none

/-- An identifier of C. -/
def IsIdent (name : List Char) : Prop :=
  name ≠ [] ∧ (peek name).isDigit = false ∧ ∀ c ∈ name, c.isAlphanum = true ∨ c = '_'

/-- Sizes and alignments of declarations in C. -/
structure CAbi extends Abi Member where
  u64_size : ∀ name, IsIdent name → size ⟨"u64".toList, name⟩ = 8
  char_size : ∀ name, IsIdent name →
    size ⟨"char".toList, name⟩ = 1 ∧ align ⟨"char".toList, name⟩ = 1

/-- The fields follow each other without a gap, from the first offset to the last. -/
def Contiguous : Nat → List FieldLine → Nat → Prop
  | first, [], last => first = last
  | first, l :: ls, last => l.offset = first ∧ Contiguous (first + l.size) ls last

/-- The fields follow each other without overlap, from an offset on. -/
def Ascending : Nat → List FieldLine → Prop
  | _, [] => True
  | first, l :: ls => first ≤ l.offset ∧ Ascending (l.offset + l.size) ls

/-- **Descriptions of structs.**  The common fields cover the first bytes, at least eight; each of
    the others has the size and the alignment of its member. -/
structure DescribesStruct (enumVal : List Char → Option Int) (abi : CAbi)
    (commons others : List FieldLine) (covered : Nat) : Prop where
  common : ∀ l ∈ commons, (l.classified enumVal).1 = .common
  contiguous : Contiguous 0 commons covered
  covered_ge : 8 ≤ covered
  ascending : Ascending covered others
  natural : ∀ l ∈ others, ∃ m, l.member enumVal = some m ∧ abi.size m = l.size
    ∧ abi.align m ∣ l.offset

end Bcc.Tracepoint
