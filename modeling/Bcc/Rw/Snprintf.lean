import Bcc.Rw.Writer
import Mathlib.Data.Nat.Log

namespace Bcc.Rw

open CText List

/-!
# Table entries as text — buffers that are too small

* `snprintf` — calls the writer of a type with the buffer of its caller and looks at the result;
* `reports_iff` — the writer returns how long the text is, also if there was no room for it.
-/

/-! ### The length of a text -/

mutual

/-- The length of the text of an object. -/
def width : Ty → Val → Nat
  | .int _, .num n => 2 + (Nat.log 16 n + 1)
  | .array _ _, .chars cs => 2 + (cs.takeWhile (· ≠ nul)).length
  | .array _ elem, .seq vs => 3 + (vs.map fun v => width elem v + 1).sum
  | .struct fields, .seq vs => 3 + widths fields vs
  | .pointer, _ => 4
  | _, _ => 0

/-- The length of the texts of the fields of a struct, each with a blank behind it. -/
def widths : List Ty → List Val → Nat
  | T :: Ts, v :: vs => width T v + 1 + widths Ts vs
  | _, _ => 0

end

theorem length_hex (n : Nat) : (hex n).length = Nat.log 16 n + 1 := by
  induction n using Nat.strong_induction_on with
  | _ n ih =>
    rw [hex_eq]
    split
    · next hn => rw [Nat.log_of_lt hn, length_singleton]
    · next hn =>
      rw [length_append, ih (n / 16) (by omega), length_singleton,
        Nat.log_of_one_lt_of_le (by decide) (by omega : 16 ≤ n)]

theorem length_texts {Ts : List Ty} (hTs : ∀ T ∈ Ts, ∀ v, (text T v).length = width T v)
    (vs : List Val) : (texts Ts vs).length = widths Ts vs := by
  induction Ts generalizing vs with
  | nil => cases vs <;> rfl
  | cons T Ts ih =>
    cases vs with
    | nil => rfl
    | cons v vs =>
      have hrest := ih (fun T' hT' => hTs T' (mem_cons_of_mem T hT')) vs
      simp [texts, widths, hTs T mem_cons_self]
      omega

theorem length_text (T : Ty) (v : Val) : (text T v).length = width T v := by
  induction T using Ty.fields_induction generalizing v with
  | int w => cases v <;> simp [text, width, length_hex]; omega
  | array size elem ih =>
    cases v with
    | num n => rfl
    | chars cs => simp [text, width]; omega
    | seq vs => simp [text, width, ih]; omega
  | struct fields ih =>
    cases v with
    | num n => rfl
    | chars cs => rfl
    | seq vs => simp [text, width, length_texts ih]; omega
  | pointer | other => cases v <;> rfl

/-! ### The code -/

structure StatusTuple where
  ret : Int
  msg : String
  deriving DecidableEq, Repr

namespace StatusTuple

/-- `StatusTuple::OK()` -/
def OK : StatusTuple := ⟨0, ""⟩

/-- `StatusTuple::ok()` -/
def ok (rc : StatusTuple) : Bool := rc.ret == 0

end StatusTuple

/-- What `BPFModule::snprintf` asks of the module, and the text of `errno` if the writer fails. -/
structure RwEngine where
  rwEngineEnabled : Bool
  available : Bool
  strerror : String

/-- The result of the writer is an `int`: `snprintf` fails if the length is not one. -/
def writerResult (n : Nat) : Int := if n < 2 ^ 31 then n else -1

variable (e : RwEngine) (T : Ty)

/-- The check of the result of the writer. -/
def checked (sz : Nat) (rc : Int) : StatusTuple :=
  if rc < 0 then ⟨rc, "error in snprintf: " ++ e.strerror⟩
  -- a text that is longer than this is cut as well
  else if rc = sz then ⟨-1, "buffer of size " ++ toString sz ++ " too small"⟩
  else .OK

/-- `BPFModule::snprintf`: the status, and the text in the buffer if the writer was called. -/
def snprintf (e : RwEngine) (T : Ty) (sz : Nat) (val : Val) :
    Res (StatusTuple × Option (List Char)) :=
  if !e.rwEngineEnabled then .ok (⟨-1, "rw_engine not enabled"⟩, none)
  else if !e.available then .ok (⟨-1, "snprintf not available"⟩, none)
  else do
    let (n, str) ← write T val sz
    return (checked e sz (writerResult n), some str)

/-- The types and sizes in a table's description. -/
structure TableDesc where
  keyType : Ty
  leafType : Ty
  keySize : Nat
  leafSize : Nat

/-- A text of an object of `size` bytes is made in a buffer of eight times as many: the status, and
    the string that is assigned. -/
def toText (size : Nat) (val : Val) : Res (StatusTuple × Option (List Char)) := do
  let (rc, buf) ← snprintf e T (8 * size) val
  return (rc, if rc.ok then buf else none)

/-- `BPFTableBase::key_to_string` -/
def keyToString (desc : TableDesc) (key : Val) : Res (StatusTuple × Option (List Char)) :=
  toText e desc.keyType desc.keySize key

/-- `BPFTableBase::leaf_to_string` -/
def leafToString (desc : TableDesc) (value : Val) : Res (StatusTuple × Option (List Char)) :=
  toText e desc.leafType desc.leafSize value

/-! ### Success and whole texts -/

/-- The text that the writer of the type makes of an object. -/
def Rendering (v : Val) (t : List Char) : Prop :=
  ∀ len, t.length < len → write T v len = .ok (t.length, t)

/-- Success is reported only if the text and a NUL fit into the buffer. -/
def Reports (v : Val) (sz : Nat) : Prop :=
  ∀ rc str, snprintf e T sz v = .ok (rc, str) → rc.ok = true →
    ∀ t, Rendering T v t → t.length + 1 ≤ sz

/-- What is assigned is the whole text. -/
def Whole (result : Res (StatusTuple × Option (List Char))) (T : Ty) (v : Val) : Prop :=
  ∀ rc str, result = .ok (rc, str) → rc.ok = true → ∀ t, Rendering T v t → str = some t

/-- The writer is not called, or its text is at most one character too long for the buffer, or is
    so long that the writer fails. -/
def Detected (v : Val) (sz : Nat) : Prop :=
  (e.rwEngineEnabled = true → e.available = true → width T v ≤ sz ∨ 2 ^ 31 ≤ width T v)

variable {e : RwEngine} {T : Ty} {v : Val}

theorem rendering_iff (hv : isObject T v = true) {t : List Char} :
    Rendering T v t ↔ t = text T v := by
  constructor
  · intro h
    have hlong := h (t.length + (text T v).length + 1) (by omega)
    rw [write_object hv, take_of_length_le (by omega)] at hlong
    exact (Prod.mk.inj (Except.ok.inj hlong)).2.symm
  · rintro rfl len hlen
    rw [write_object hv, take_of_length_le (by omega)]

theorem checked_ok_iff {sz n : Nat} :
    (checked e sz (writerResult n)).ok = true ↔ n < 2 ^ 31 ∧ n ≠ sz := by
  unfold checked writerResult
  by_cases hint : n < 2 ^ 31
  · rw [if_pos hint, if_neg (by omega)]
    by_cases hsz : n = sz
    · simp [hsz, StatusTuple.ok]
    · rw [if_neg (by omega)]
      exact ⟨fun _ => ⟨hint, hsz⟩, fun _ => rfl⟩
  · rw [if_neg hint]
    exact ⟨fun h => absurd h (by simp [StatusTuple.ok]), fun h => absurd h.1 hint⟩

section

variable (hv : isObject T v = true)
include hv

/-- Success is reported if the writer was called, did not fail, and its text is not exactly one
    character too long; the buffer then has what there is room for. -/
theorem snprintf_ok {sz : Nat} {rc : StatusTuple} {str : Option (List Char)}
    (h : snprintf e T sz v = .ok (rc, str)) (hok : rc.ok = true) :
    (e.rwEngineEnabled = true ∧ e.available = true)
      ∧ (width T v < 2 ^ 31 ∧ width T v ≠ sz) ∧ str = some ((text T v).take (sz - 1)) := by
  rw [snprintf] at h
  split_ifs at h with henabled havailable
  · cases h
    simp [StatusTuple.ok] at hok
  · cases h
    simp [StatusTuple.ok] at hok
  · rw [write_object hv, length_text] at h
    cases h
    exact ⟨by simpa using And.intro henabled havailable, checked_ok_iff.mp hok, rfl⟩

theorem snprintf_runs (henabled : e.rwEngineEnabled = true) (havailable : e.available = true)
    (sz : Nat) :
    snprintf e T sz v
      = .ok (checked e sz (writerResult (width T v)), some ((text T v).take (sz - 1))) := by
  rw [snprintf, if_neg (by simp [henabled]), if_neg (by simp [havailable]), write_object hv,
    length_text]
  rfl

theorem detected_of_reports {sz : Nat} (h : Reports e T v sz) : Detected e T v sz := by
  intro henabled havailable
  by_contra hnot
  have hok : (checked e sz (writerResult (width T v))).ok = true :=
    checked_ok_iff.mpr ⟨by omega, by omega⟩
  have hfits := h _ _ (snprintf_runs hv henabled havailable sz) hok _ ((rendering_iff hv).mpr rfl)
  rw [length_text] at hfits
  omega

theorem reports_of_detected {sz : Nat} (h : Detected e T v sz) : Reports e T v sz := by
  intro rc str hrun hok t ht
  obtain ⟨⟨henabled, havailable⟩, hne, -⟩ := snprintf_ok hv hrun hok
  have hle := h henabled havailable
  rw [(rendering_iff hv).mp ht, length_text]
  omega

theorem toText_whole_iff (size : Nat) :
    Whole (toText e T size v) T v ↔ Detected e T v (8 * size) := by
  constructor
  · intro h henabled havailable
    by_contra hnot
    have hok : (checked e (8 * size) (writerResult (width T v))).ok = true :=
      checked_ok_iff.mpr ⟨by omega, by omega⟩
    have hrun : toText e T size v = .ok (checked e (8 * size) (writerResult (width T v)),
        some ((text T v).take (8 * size - 1))) := by
      rw [toText, snprintf_runs hv henabled havailable, ok_bind]
      simp only [if_pos hok]
      rfl
    -- the text in the buffer is shorter than the whole one
    have hwhole := congrArg List.length
      (Option.some.inj (h _ _ hrun hok _ ((rendering_iff hv).mpr rfl)))
    rw [length_take, length_text] at hwhole
    omega
  · intro h rc str hrun hok t ht
    obtain ⟨⟨rc', buf⟩, hsnprintf, hret⟩ := bind_eq_ok_iff.mp hrun
    cases hret
    have hfits := reports_of_detected hv h _ _ hsnprintf hok t ht
    obtain ⟨-, -, rfl⟩ := snprintf_ok hv hsnprintf hok
    rw [if_pos hok, (rendering_iff hv).mp ht, take_of_length_le]
    rw [(rendering_iff hv).mp ht] at hfits
    omega

end

/-- **Texts that are too long.**  Success stands for a whole text, with a buffer of any size and
    with the buffers for keys and leaves, exactly if the text is at most one character too long for
    the buffer, or the writer fails or is not called. -/
theorem reports_iff {desc : TableDesc} {key leaf : Val} (hkey : isObject desc.keyType key = true)
    (hleaf : isObject desc.leafType leaf = true) :
    (∀ sz, Reports e desc.keyType key sz ↔ Detected e desc.keyType key sz)
      ∧ (∀ sz, Reports e desc.leafType leaf sz ↔ Detected e desc.leafType leaf sz)
      ∧ (Whole (keyToString e desc key) desc.keyType key
        ↔ Detected e desc.keyType key (8 * desc.keySize))
      ∧ (Whole (leafToString e desc leaf) desc.leafType leaf
        ↔ Detected e desc.leafType leaf (8 * desc.leafSize)) := by
  refine ⟨fun sz => ?_, fun sz => ?_, toText_whole_iff hkey _, toText_whole_iff hleaf _⟩
  · exact ⟨detected_of_reports hkey, reports_of_detected hkey⟩
  · exact ⟨detected_of_reports hleaf, reports_of_detected hleaf⟩

/-- A key of one byte in two structs and a leaf of eight bytes. -/
def nestedDesc : TableDesc := ⟨.struct [.struct [.int 8]], .int 64, 1, 8⟩

/-- The leaf of `nestedDesc` is always whole. -/
theorem leafToString_nestedDesc :
    Whole (leafToString ⟨true, true, ""⟩ nestedDesc (.num 0xffffffffffffffff))
      (.int 64) (.num 0xffffffffffffffff) := by
  have hiff := @reports_iff ⟨true, true, ""⟩ nestedDesc (.seq [.seq [.num 0xff]])
    (.num 0xffffffffffffffff) (by decide) (by decide)
  refine hiff.2.2.2.mpr fun _ _ => Or.inl ?_
  decide

/-- Of the twelve characters of its key there is room for seven. -/
theorem keyToString_nestedDesc :
    isObject nestedDesc.keyType (.seq [.seq [.num 0xff]]) = true
      ∧ write nestedDesc.keyType (.seq [.seq [.num 0xff]]) 13
        = .ok (12, "\x7b \x7b 0xff \x7d \x7d".toList)
      ∧ keyToString ⟨true, true, ""⟩ nestedDesc (.seq [.seq [.num 0xff]])
        = .ok (.OK, some "\x7b \x7b 0xf".toList) := by
  refine ⟨by decide, ?_, ?_⟩
  · rfl
  · rfl

end Bcc.Rw
