import Bcc.Rw.Writer

namespace Bcc.Rw

open CText List

/-!
# Table entries as text — the reader

* `reads_type` — the calls of `sscanf` take the text of a value apart again.  Everything comes back
  except integers from `2 ^ 63` on: `%li` clamps them.
-/

mutual

/-- What a reader makes of a value. -/
def clamp : Val → Val
  | .num n => .num (min n (2 ^ 63 - 1))
  | .chars cs => .chars cs
  | .seq vs => .seq (clamps vs)

/-- The parts of a value. -/
def clamps : List Val → List Val
  | [] => []
  | v :: vs => clamp v :: clamps vs

end

section Reader

variable {s₀ : List Char} {obj₀ : Val}

/-- With the calls generated so far and the conversions that are still to be put into one, the
    reader called with `s₀` and `obj₀` has `r` left of the text and `obj` for the object. -/
def Reaches (s₀ : List Char) (obj₀ : Val) (g : Gen) (r : List Char) (obj : Val) : Prop :=
  ∃ s obj' ds stores, runCalls g.calls s₀ obj₀ = .ok (some s, obj')
    ∧ directives g.fmt = some ds ∧ Consumes ds g.args s r stores
    ∧ stores.foldlM applyStore (0, obj') = .ok (0, obj)

namespace Reaches

variable {g : Gen} {r r' : List Char} {obj obj' : Val}

theorem start {calls : List Call} (h : runCalls calls s₀ obj₀ = .ok (some r, obj)) :
    Reaches s₀ obj₀ ⟨[], [], calls⟩ r obj :=
  ⟨r, obj, [], [], h, rfl, .nil r, rfl⟩

/-- More of a format, and its arguments. -/
theorem extend (h : Reaches s₀ obj₀ g r obj) {fmt : List Char} {args : List Arg}
    {ds : List Directive} {stores : List (Arg × Stored)} (hds : directives fmt = some ds)
    (hconsumes : Consumes ds args r r' stores)
    (hstores : stores.foldlM applyStore (0, obj) = .ok (0, obj')) :
    Reaches s₀ obj₀ ⟨g.args ++ args, g.fmt ++ fmt, g.calls⟩ r' obj' := by
  obtain ⟨s, obj₁, ds₁, stores₁, hcalls, hds₁, hconsumes₁, hstores₁⟩ := h
  refine ⟨s, obj₁, ds₁ ++ ds, stores₁ ++ stores, hcalls, directives_append hds₁ hds,
    hconsumes₁.append hconsumes, ?_⟩
  rw [foldlM_append, hstores₁, ok_bind, hstores]

theorem literal {c : Char} {s : String} (hs : s.toList = [c]) (hc : isspace c = false)
    (hc' : c ≠ '%') (h : Reaches s₀ obj₀ g (c :: r) obj) : Reaches s₀ obj₀ (g.text s) r obj := by
  have hds : directives s.toList = some [.literal c] := by
    rw [hs]
    exact directives_literals (by simpa using Ne.symm hc')
  have hall := h.extend hds (.literal hc r) rfl
  rw [append_nil] at hall
  exact hall

theorem space (hr : isspace (peek r) = false) (h : Reaches s₀ obj₀ g (' ' :: r) obj) :
    Reaches s₀ obj₀ (g.text " ") r obj := by
  have hds : directives " ".toList = some [.literal ' '] := rfl
  have hall := h.extend hds (.space hr) rfl
  rw [append_nil] at hall
  exact hall

/-- A bracket and the space behind it. -/
theorem bracket {c : Char} {s : String} (hs : s.toList = [c, ' ']) (hc : isspace c = false)
    (hc' : c ≠ '%') (hr : isspace (peek r) = false)
    (h : Reaches s₀ obj₀ g (s.toList ++ r) obj) : Reaches s₀ obj₀ (g.text s) r obj := by
  have hds : directives s.toList = some ([.literal c] ++ [.literal ' ']) := by
    rw [hs]
    exact directives_literals (by simpa using Ne.symm hc')
  rw [hs] at h
  have hall := h.extend hds ((Consumes.literal hc (' ' :: r)).append (.space hr)) rfl
  rw [append_nil, append_nil] at hall
  exact hall

/-- A call that has to do all conversions. -/
theorem finish (h : Reaches s₀ obj₀ g r obj) :
    runCalls (finishSscanf g true).calls s₀ obj₀ = .ok (some r, obj) := by
  obtain ⟨s, obj₁, ds, stores, hcalls, hds, hconsumes, hstores⟩ := h
  have hdrop : s.drop (s.length - r.length) = r := by
    obtain ⟨t, rfl⟩ := hconsumes.suffix
    exact drop_left' (by simp)
  have hrun : Call.run ⟨g.fmt ++ "%n".toList, g.args ++ [.nread], true⟩ s obj₁
      = .ok (some r, obj) := by
    simp only [Call.run, sscanf_count hds hconsumes, ok_bind, foldlM_append, hstores]
    simp [applyStore, Call.failed, hdrop]
  rw [finishSscanf, runCalls_append _ _ _ _ hcalls, runCalls, hrun]
  rfl

end Reaches

/-- A conversion is stored in the part of the object that its argument points to. -/
theorem applyStore_out (C : Ctx) {x : Stored} {v v' : Val} (h : store x v = .ok v') :
    [(Arg.out C.path, x)].foldlM applyStore (0, C.fill v) = .ok (0, C.fill v') := by
  simp [applyStore, modifyAt_fill, h]

theorem store_lengthOf {width n : Nat} (hw : width ≤ 64) (hn : n < 2 ^ width) :
    (lengthOf width).store n = min n (2 ^ 63 - 1) := by
  have hbits : n < 2 ^ (lengthOf width).bits :=
    lt_of_lt_of_le hn (Nat.pow_le_pow_right (by decide) (width_le_bits hw))
  unfold Length.store
  generalize hlen : lengthOf width = len at hbits ⊢
  cases len <;> simp only [Length.bits] at hbits ⊢ <;> omega

variable {r : List Char}

theorem reads_int {width n : Nat} (hw : width ≤ 64) (hn : n < 2 ^ width) (C : Ctx) {g : Gen}
    (hr : NumberEnd r) (h : Reaches s₀ obj₀ g (text (.int width) (.num n) ++ r) (C.fill (.num 0))) :
    Reaches s₀ obj₀ (parseType false (.int width) C.path g) r (C.fill (clamp (.num n))) := by
  have hstore : store (.num ((lengthOf width).store n)) (.num 0)
      = .ok (.num ((lengthOf width).store n)) := rfl
  have hall := h.extend (directives_conversion width).2 (.int (lengthOf width) (.out C.path) n hr)
    (applyStore_out C hstore)
  rw [store_lengthOf hw hn] at hall
  simpa [parseType, Gen.text, Gen.push, clamp] using hall

/-- A string and the NULs behind it. -/
theorem isCString_eq {cs : List Char} (h : isCString cs = true) :
    ∃ k, cs = cs.takeWhile (· ≠ nul) ++ List.replicate (k + 1) nul := by
  simp only [isCString, Bool.and_eq_true, decide_eq_true_eq, all_eq_true, beq_iff_eq] at h
  have hrest : cs.dropWhile (· ≠ nul) = List.replicate (cs.dropWhile (· ≠ nul)).length nul :=
    eq_replicate_iff.mpr ⟨rfl, h.2⟩
  obtain ⟨k, hk⟩ : ∃ k, (cs.dropWhile (· ≠ nul)).length = k + 1 := by
    refine Nat.exists_eq_succ_of_ne_zero (fun h0 => ?_)
    have hnil := length_eq_zero_iff.mp h0
    rw [dropWhile_eq_nil_iff] at hnil
    exact absurd (hnil nul h.1) (by simp)
  refine ⟨k, ?_⟩
  rw [← hk, ← hrest, takeWhile_append_dropWhile]

/-- The call for a string; it stores nothing if the string is empty. -/
theorem run_upTo {s : List Char} {k : Nat} (hs : '"' ∉ s) (C : Ctx) :
    Call.run ⟨"%[^\"]".toList ++ "%n".toList, [.out C.path] ++ [.nread], false⟩ (s ++ '"' :: r)
        (C.fill (.chars (List.replicate (s.length + (k + 1)) nul)))
      = .ok (some ('"' :: r), C.fill (.chars (s ++ List.replicate (k + 1) nul))) := by
  by_cases hne : s = []
  · subst hne
    have hscan : sscanf ([] ++ '"' :: r) ("%[^\"]".toList ++ "%n".toList)
        ([Arg.out C.path] ++ [Arg.nread]) = .ok (0, []) :=
      sscanf_upTo_nil '"' r (Arg.out C.path) .nread
    simp only [Call.run, hscan]
    simp [Call.failed]
  · have hds : directives "%[^\"]".toList = some [.upTo '"'] := rfl
    have hscan := sscanf_count hds (Consumes.upTo (Arg.out C.path) hne hs r) .nread
    have hstore : store (.chars s) (.chars (List.replicate (s.length + (k + 1)) nul))
        = .ok (.chars (s ++ List.replicate (k + 1) nul)) := by
      have hroom : s.length + (k + 1) - (s.length + 1) = k := by omega
      simp [store, hroom, replicate_succ]
    simp only [Call.run, hscan, ok_bind, foldlM_append, applyStore_out C hstore]
    simp only [foldlM_cons, applyStore]
    simp [Call.failed]

theorem reads_string {size : Nat} {elem : Ty} (helem : elem.isInt8 = true) {cs : List Char}
    (hsize : cs.length = size) (hcs : isCString cs = true) (hquote : '"' ∉ cs) (C : Ctx) {g : Gen}
    (h : Reaches s₀ obj₀ g (text (.array size elem) (.chars cs) ++ r)
      (C.fill (.chars (List.replicate size nul)))) :
    Reaches s₀ obj₀ (parseType false (.array size elem) C.path g) r (C.fill (.chars cs)) := by
  obtain ⟨k, hk⟩ := isCString_eq hcs
  generalize htake : cs.takeWhile (· ≠ nul) = s at hk
  subst hk hsize
  have hs : '"' ∉ s := fun hmem => hquote (mem_append_left _ hmem)
  have htext : text (.array (s ++ List.replicate (k + 1) nul).length elem)
      (.chars (s ++ List.replicate (k + 1) nul)) ++ r = '"' :: (s ++ '"' :: r) := by
    rw [text, htake]
    simp
  rw [htext, length_append, length_replicate] at h
  have hopen : Reaches s₀ obj₀ (g.text "\"") (s ++ '"' :: r)
      (C.fill (.chars (List.replicate (s.length + (k + 1)) nul))) :=
    h.literal rfl rfl (by decide)
  -- What the first call leaves is where the call for the string starts.
  have hcalls := runCalls_append _
    [⟨"%[^\"]".toList ++ "%n".toList, [.out C.path] ++ [.nread], false⟩] _ _ hopen.finish
  rw [runCalls, run_upTo hs] at hcalls
  rw [parseType, if_pos helem]
  exact (Reaches.start hcalls).literal (s := "\"") rfl rfl (by decide)

/-- The text of a value does not start with white space. -/
theorem isspace_peek_text {T : Ty} {v : Val} (hv : isValue T v = true) (r : List Char) :
    isspace (peek (text T v ++ r)) = false := by
  cases T <;> cases v <;> first
    | rfl
    | exact absurd hv (by simp [isValue])

theorem isspace_peek_texts {Ts : List Ty} {vs : List Val} (hvs : areValues Ts vs = true)
    (hr : isspace (peek r) = false) : isspace (peek (texts Ts vs ++ r)) = false := by
  cases Ts with
  | nil => exact hr
  | cons T Ts =>
    cases vs with
    | nil => exact hr
    | cons v vs =>
      simp only [areValues, Bool.and_eq_true] at hvs
      rw [texts, append_assoc, append_assoc]
      exact isspace_peek_text hvs.1 _

/-- The reader takes the text of any value of a type. -/
def Reads (s₀ : List Char) (obj₀ : Val) (T : Ty) : Prop :=
  ∀ (v : Val) (C : Ctx) (g : Gen) (r : List Char), isValue T v = true → NumberEnd r →
    Reaches s₀ obj₀ g (text T v ++ r) (C.fill (zero T)) →
      Reaches s₀ obj₀ (parseType false T C.path g) r (C.fill (clamp v))

/-- The fields of a struct, if the reader is right for each of their types. -/
theorem reads_fields {Ts : List Ty} (hTs : ∀ T ∈ Ts, Reads s₀ obj₀ T) (C : Ctx)
    (before : List Val) {vs : List Val} (hvs : areValues Ts vs = true) {g : Gen}
    (hr : isspace (peek r) = false)
    (h : Reaches s₀ obj₀ g (texts Ts vs ++ r) (C.fill (.seq (before ++ zeros Ts)))) :
    Reaches s₀ obj₀ (parseFields false Ts C.path before.length g) r
      (C.fill (.seq (before ++ clamps vs))) := by
  induction Ts generalizing before vs g with
  | nil =>
    cases vs with
    | nil => exact h
    | cons v vs => simp [areValues] at hvs
  | cons T Ts ih =>
    cases vs with
    | nil => simp [areValues] at hvs
    | cons v vs =>
      simp only [areValues, Bool.and_eq_true] at hvs
      rw [texts, append_assoc, append_assoc, zeros, ← Ctx.fill_append] at h
      have hend : NumberEnd (" ".toList ++ (texts Ts vs ++ r)) := rfl
      have hfirst := hTs T mem_cons_self v _ g _ hvs.1 hend h
      rw [Ctx.path_append, Ctx.fill_append] at hfirst
      have hspace : Reaches s₀ obj₀ ((parseType false T (C.path ++ [before.length]) g).text " ")
          (texts Ts vs ++ r) (C.fill (.seq (before ++ [clamp v] ++ zeros Ts))) := by
        rw [append_assoc]
        exact hfirst.space (isspace_peek_texts hvs.2 hr)
      have hrest := ih (fun T' hT' => hTs T' (mem_cons_of_mem T hT')) (before ++ [clamp v])
        hvs.2 hspace
      rw [append_assoc, length_append] at hrest
      exact hrest

/-- **The reader takes the text of a value.** -/
theorem reads_type (T : Ty) : Reads s₀ obj₀ T := by
  induction T using Ty.fields_induction with
  | int width =>
    intro v C g r hv hr h
    cases v with
    | num n =>
      simp only [isValue, Bool.and_eq_true, decide_eq_true_eq] at hv
      exact reads_int hv.1.2 hv.2 C hr h
    | chars cs | seq vs => simp [isValue] at hv
  | array size elem ih =>
    intro v C g r hv hr h
    cases v with
    | num n => simp [isValue] at hv
    | chars cs =>
      simp only [isValue, Bool.and_eq_true, beq_iff_eq, decide_eq_true_eq] at hv
      rw [zero, if_pos hv.1.1.1] at h
      exact reads_string hv.1.1.1 hv.1.1.2 hv.1.2 hv.2 C h
    | seq vs =>
      simp only [isValue, Bool.and_eq_true, Bool.not_eq_true', beq_iff_eq, all_eq_true] at hv
      obtain ⟨⟨helem, rfl⟩, hvs⟩ := hv
      have helems : ∀ T ∈ List.replicate vs.length elem, Reads s₀ obj₀ T := by
        intro T hT
        rw [eq_of_mem_replicate hT]
        exact ih
      have hvs' := areValues_replicate hvs
      rw [zero, if_neg (by simp [helem]), ← zeros_replicate, text, ← texts_replicate,
        append_assoc, append_assoc] at h
      have hclose : isspace (peek ("]".toList ++ r)) = false := rfl
      have hopen := h.bracket rfl rfl (by decide) (isspace_peek_texts hvs' hclose)
      rw [parseType_array false helem]
      exact (reads_fields helems C [] hvs' hclose hopen).literal rfl rfl (by decide)
  | struct fields ih =>
    intro v C g r hv hr h
    cases v with
    | num n | chars cs => simp [isValue] at hv
    | seq vs =>
      rw [text, append_assoc, append_assoc] at h
      have hclose : isspace (peek ("\x7d".toList ++ r)) = false := rfl
      have hopen := h.bracket rfl rfl (by decide) (isspace_peek_texts hv hclose)
      exact (reads_fields ih C [] hv hclose hopen).literal rfl rfl (by decide)
  | pointer | other =>
    intro v C g r hv hr h
    cases v <;> simp [isValue] at hv

end Reader

/-- The reader returns zero, and the object is what it makes of the value. -/
theorem read_eq {T : Ty} {v : Val} (hv : isValue T v = true) :
    read T (text T v) (zero T) = .ok (0, clamp v) := by
  have hstart :
      Reaches (text T v) (zero T) ⟨[], [], []⟩ (text T v ++ []) (Ctx.fill [] (zero T)) := by
    rw [append_nil]
    exact .start rfl
  have hcalls : runCalls (makeReader T) (text T v) (zero T) = .ok (some [], clamp v) :=
    (reads_type T v [] _ [] hv rfl hstart).finish
  simp only [read, hcalls]
  rfl

end Bcc.Rw
