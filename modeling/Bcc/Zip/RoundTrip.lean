import Bcc.Zip.Format
import Mathlib.Data.List.Nodup
import Mathlib.Data.List.Pairwise

namespace Bcc.Zip

open Bytes CText List

/-!
# ZIP — what was written is found

* `findCentralDirectory_archive` — the search stops at the end record that was written, unless bytes
  behind its start look like another;
* `archive_decodes` — then every entry is found, by its name and by every offset of its data.
-/

variable {data : List UInt8}

/-! ### The end record -/

/-- The search stops at the last offset that is not invalid. -/
theorem scanBack_eq {p n top : Nat} {r : EndRecord}
    (hinv : ∀ o, p < o → o ≤ top → tryParseEndOfCentralDirectory data o = .ok .invalid)
    (hr : tryParseEndOfCentralDirectory data p = .ok r) (hne : r ≠ .invalid) (hp : p ≤ top)
    (hn : top - p < n) : scanBack data n top = .ok r := by
  induction n generalizing top with
  | zero => exact absurd hn (Nat.not_lt_zero _)
  | succ n ih =>
    rw [scanBack]
    rcases Nat.eq_or_lt_of_le hp with rfl | hlt
    · rw [hr, ok_bind, if_pos hne]
      rfl
    · rw [hinv top hlt (Nat.le_refl _), ok_bind, if_neg (not_not.mpr rfl), if_neg (by omega)]
      exact ih (fun o ho hle => hinv o ho (by omega)) (by omega) (by omega)

variable {offset : Nat}

/-- An offset at which another byte than the first of the magic number stands. -/
theorem tryParse_of_byte (h : data[offset]? ≠ some 0x50) :
    tryParseEndOfCentralDirectory data offset = .ok .invalid := by
  unfold tryParseEndOfCentralDirectory
  by_cases hcheck : checkAccess data offset 22 = false
  · rw [if_pos hcheck]
  have hle : offset + 22 ≤ data.length := by
    by_contra hgt
    refine hcheck ?_
    unfold checkAccess add32
    simp only [Bool.not_eq_false', Bool.or_eq_true, decide_eq_true_eq]
    omega
  have hmagic : leNat (slice data offset 4) ≠ 0x06054b50 := by
    have hcons : slice data offset 4 = data[offset] :: slice data (offset + 1) 3 := by
      rw [slice, slice, drop_eq_getElem_cons (by omega), take_succ_cons]
    rw [hcons, leNat]
    intro heq
    have hlt := (data[offset]).toNat_lt
    have hbyte : (data[offset]).toNat = 0x50 := by omega
    refine h ?_
    rw [getElem?_eq_getElem (by omega)]
    exact congrArg some (UInt8.toNat_inj.mp hbyte)
  rw [if_neg hcheck, readLE_eq (by omega), ok_bind, if_pos hmagic]
  rfl

/-- No end record starts behind an offset, if the first byte of the magic number does not. -/
theorem tryParse_of_drop {p : Nat} (h : ∀ x ∈ data.drop (p + 1), x ≠ 0x50) (ho : p < offset) :
    tryParseEndOfCentralDirectory data offset = .ok .invalid := by
  apply tryParse_of_byte
  intro hbyte
  refine h 0x50 ?_ rfl
  rw [mem_iff_getElem?]
  refine ⟨offset - (p + 1), ?_⟩
  rw [getElem?_drop, ← hbyte]
  congr 1
  omega

/-- The end record is read as it was written. -/
theorem tryParse_endRecord (hd : data.length < 2 ^ 32)
    {records cdSize cdOffset commentLength : Nat}
    (h : At data offset (endRecord records cdSize cdOffset commentLength))
    (hlen : offset + 22 + commentLength = data.length) (hrecords : records < 2 ^ 16)
    (hcomment : commentLength < 2 ^ 16) (hcd : cdOffset + cdSize ≤ data.length) :
    tryParseEndOfCentralDirectory data offset = .ok (.found cdOffset records) := by
  simp only [endRecord, at_append, length_le] at h
  obtain ⟨h0, h4, h6, h8, h10, h12, h16, h20⟩ := h
  unfold tryParseEndOfCentralDirectory
  rw [if_neg (by rw [checkAccess_of_le hd (by omega)]; decide), h0.readLE (by decide) (by decide),
    ok_bind, if_neg (by decide), h20.readLE (by decide) hcomment, ok_bind,
    if_neg (not_not.mpr hlen), h8.readLE (by decide) hrecords, ok_bind,
    h4.readLE (by decide) (by decide), ok_bind, h6.readLE (by decide) (by decide), ok_bind,
    h10.readLE (by decide) hrecords, ok_bind, if_neg (by simp), h16.readLE (by decide) (by omega),
    ok_bind, h12.readLE (by decide) (by omega), ok_bind,
    if_neg (by rw [checkAccess_of_le hd hcd]; decide)]
  rfl

/-- The parts of an archive, each at its offset. -/
theorem at_archive (es : List FileEntry) (comment : List UInt8) :
    At (archive es comment) 0 (locals es)
      ∧ At (archive es comment) (locals es).length (directory 0 es)
      ∧ At (archive es comment) (endOffset es)
        (endRecord es.length (directory 0 es).length (locals es).length comment.length) := by
  have hall : At (archive es comment) 0 (archive es comment) := prefix_refl _
  rw [archive, at_append, at_append, at_append, Nat.zero_add] at hall
  exact ⟨hall.1, hall.2.1, hall.2.2.1⟩

theorem length_locals_le (es : List FileEntry) (comment : List UInt8) :
    (locals es).length + (directory 0 es).length ≤ (archive es comment).length := by
  rw [length_archive, endOffset]
  omega

variable {es : List FileEntry}

/-- **The directory** is found, unless bytes behind the start of the end record look like
    another one. -/
theorem findCentralDirectory_archive {comment : List UInt8} (hne : es ≠ [])
    (hcount : es.length ≤ 65535) (hcomment : comment.length ≤ 65535)
    (hsize : (archive es comment).length ≤ 2 ^ 32 - 1)
    (hlast : ∀ offset, endOffset es < offset →
      tryParseEndOfCentralDirectory (archive es comment) offset = .ok .invalid) :
    findCentralDirectory (archive es comment) = .ok (.found (locals es).length es.length) := by
  have hlen := length_archive es comment
  have hpos : 0 < endOffset es := by
    cases es with
    | nil => exact absurd rfl hne
    | cons e es =>
      have := length_localRecord e
      show 0 < (localRecord e ++ locals es).length + _
      rw [length_append]
      omega
  have hparse := tryParse_endRecord (by omega) (at_archive es comment).2.2 hlen.symm (by omega)
    (by omega) (length_locals_le es comment)
  unfold findCentralDirectory
  rw [if_neg (by omega)]
  exact scanBack_eq (fun o ho _ => hlast o ho) hparse (fun h => by cases h) (by omega) (by omega)

/-! ### The entries -/

/-- The local records follow each other. -/
theorem placed_pairwise (offset : Nat) (es : List FileEntry) :
    (∀ x ∈ placed offset es, offset ≤ x.1)
      ∧ (placed offset es).Pairwise (fun x y => x.1 + (localRecord x.2).length ≤ y.1) := by
  induction es generalizing offset with
  | nil => exact ⟨fun x hx => absurd hx not_mem_nil, List.Pairwise.nil⟩
  | cons e es ih =>
    obtain ⟨hle, hpair⟩ := ih (offset + (localRecord e).length)
    refine ⟨?_, pairwise_cons.mpr ⟨hle, hpair⟩⟩
    intro x hx
    rcases mem_cons.mp hx with rfl | hx
    · exact Nat.le_refl _
    · exact Nat.le_trans (Nat.le_add_right _ _) (hle x hx)

theorem map_snd_placed (offset : Nat) (es : List FileEntry) :
    (placed offset es).map (·.2) = es := by
  induction es generalizing offset with
  | nil => rfl
  | cons e es ih => exact congrArg (e :: ·) (ih _)

/-- Each local record stands where it is placed. -/
theorem at_placed (h : At data offset (locals es)) :
    ∀ x ∈ placed offset es, At data x.1 (localRecord x.2) := by
  induction es generalizing offset with
  | nil => exact fun x hx => absurd hx not_mem_nil
  | cons e es ih =>
    obtain ⟨hloc, hrest⟩ := at_append.mp h
    intro x hx
    rcases mem_cons.mp hx with rfl | hx
    · exact hloc
    · exact ih hrest x hx

/-- The data of two entries have no byte in common. -/
theorem placed_eq_of_data {x y : Nat × FileEntry} (hx : x ∈ placed offset es)
    (hy : y ∈ placed offset es) {t : Nat}
    (htx : dataOffset x ≤ t ∧ t < dataOffset x + x.2.data.length)
    (hty : dataOffset y ≤ t ∧ t < dataOffset y + y.2.data.length) : x = y := by
  have hdisj : (placed offset es).Pairwise (fun x y =>
      ¬ ((dataOffset x ≤ t ∧ t < dataOffset x + x.2.data.length)
        ∧ (dataOffset y ≤ t ∧ t < dataOffset y + y.2.data.length))) := by
    refine (placed_pairwise offset es).2.imp ?_
    intro x y hxy
    rw [length_localRecord] at hxy
    unfold dataOffset
    omega
  by_contra hne
  have hsymm : Std.Symm (fun x y : Nat × FileEntry =>
      ¬ ((dataOffset x ≤ t ∧ t < dataOffset x + x.2.data.length)
        ∧ (dataOffset y ≤ t ∧ t < dataOffset y + y.2.data.length))) :=
    ⟨fun _ _ h hc => h ⟨hc.2, hc.1⟩⟩
  exact hdisj.forall hx hy hne ⟨htx, hty⟩

/-- The only element with a property is the one that is found. -/
theorem find?_eq_of_unique {α : Type} {p : α → Bool} {l : List α} {x : α} (hx : x ∈ l)
    (hp : p x = true) (huniq : ∀ y ∈ l, p y = true → y = x) : l.find? p = some x := by
  cases hfind : l.find? p with
  | none => exact absurd hp (find?_eq_none.mp hfind x hx)
  | some y => rw [huniq y (mem_of_find?_eq_some hfind) (find?_some hfind)]

/-- The archive has the entries, and no others: each is found by its name, with its name,
    compression, data and the offset of its data, and by every offset of its data. -/
structure Decodes (es : List FileEntry) (a : Archive) : Prop where
  byName : ∀ x ∈ placed 0 es, ∃ e, findEntry a x.2.name = .ok (some e) ∧ e.name a.data = x.2.name
    ∧ e.compression = x.2.compression.toNat ∧ e.content a.data = x.2.data
    ∧ e.dataOffset = dataOffset x
  noName : ∀ fileName, (∀ e ∈ es, e.name ≠ fileName) → findEntry a fileName = .ok none
  byOffset : ∀ x ∈ placed 0 es, ∀ t, dataOffset x ≤ t → t < dataOffset x + x.2.data.length →
    ∃ e, findEntryAtOffset a t = .ok (some e) ∧ e.name a.data = x.2.name
      ∧ e.compression = x.2.compression.toNat ∧ e.content a.data = x.2.data
      ∧ e.dataOffset = dataOffset x
  noOffset : ∀ t, (∀ x ∈ placed 0 es, ¬ (dataOffset x ≤ t ∧ t < dataOffset x + x.2.data.length)) →
    findEntryAtOffset a t = .ok none

/-- The entries are found in an archive whose directory was found. -/
theorem decodes_archive {comment : List UInt8} (hnames : (es.map (·.name)).Nodup)
    (hsize : (archive es comment).length ≤ 2 ^ 32 - 1) :
    Decodes es ⟨archive es comment, (locals es).length, es.length⟩ := by
  have hd : (archive es comment).length < 2 ^ 32 := by omega
  obtain ⟨hlocals, hcd, -⟩ := at_archive es comment
  have hentry : ∀ x ∈ placed 0 es, (entryOf x).name (archive es comment) = x.2.name
      ∧ (entryOf x).content (archive es comment) = x.2.data := by
    intro x hx
    exact (getEntryAtOffset_local hd (at_placed hlocals x hx)).2
  have hname : ∀ fileName, findEntry ⟨archive es comment, (locals es).length, es.length⟩ fileName
      = .ok (((placed 0 es).find? (fun x => x.2.name = fileName)).map entryOf) :=
    fun fileName => findEntryLoop_directory hd fileName hcd hlocals
  have hoff : ∀ t, findEntryAtOffset ⟨archive es comment, (locals es).length, es.length⟩ t
      = .ok (((placed 0 es).find? (fun x =>
        dataOffset x ≤ t ∧ t < dataOffset x + x.2.data.length)).map entryOf) :=
    fun t => findAtOffsetLoop_directory hd t hcd hlocals
  constructor
  · intro x hx
    have hnodup : ((placed 0 es).map (fun x => x.2.name)).Nodup := by
      rw [← map_snd_placed 0 es, map_map] at hnames
      exact hnames
    have hfind : (placed 0 es).find? (fun y => y.2.name = x.2.name) = some x := by
      apply find?_eq_of_unique hx (decide_eq_true rfl)
      intro y hy heq
      exact inj_on_of_nodup_map hnodup hy hx (of_decide_eq_true heq)
    refine ⟨entryOf x, ?_, (hentry x hx).1, rfl, (hentry x hx).2, rfl⟩
    rw [hname, hfind, Option.map_some]
  · intro fileName hno
    have hfind : (placed 0 es).find? (fun x => x.2.name = fileName) = none := by
      rw [find?_eq_none]
      intro x hx
      have hmem : x.2 ∈ es := by
        rw [← map_snd_placed 0 es]
        exact mem_map_of_mem hx
      simpa using hno x.2 hmem
    rw [hname, hfind, Option.map_none]
  · intro x hx t hlo hhi
    have hfind : (placed 0 es).find? (fun y =>
        dataOffset y ≤ t ∧ t < dataOffset y + y.2.data.length) = some x := by
      apply find?_eq_of_unique hx (decide_eq_true ⟨hlo, hhi⟩)
      intro y hy hty
      exact placed_eq_of_data hy hx (of_decide_eq_true hty) ⟨hlo, hhi⟩
    refine ⟨entryOf x, ?_, (hentry x hx).1, rfl, (hentry x hx).2, rfl⟩
    rw [hoff, hfind, Option.map_some]
  · intro t hno
    have hfind : (placed 0 es).find? (fun x =>
        dataOffset x ≤ t ∧ t < dataOffset x + x.2.data.length) = none := by
      rw [find?_eq_none]
      intro x hx
      simpa using hno x hx
    rw [hoff, hfind, Option.map_none]

/-- **Round trip.**  An archive that was written is opened, and has exactly its entries, unless
    bytes behind the start of its end record look like an end record. -/
theorem archive_decodes (es : List FileEntry) (comment : List UInt8) (hne : es ≠ [])
    (hcount : es.length ≤ 65535) (hnames : (es.map (·.name)).Nodup)
    (hcomment : comment.length ≤ 65535) (hsize : (archive es comment).length ≤ 2 ^ 32 - 1)
    (hlast : ∀ offset, endOffset es < offset →
      tryParseEndOfCentralDirectory (archive es comment) offset = .ok .invalid) :
    ∃ a, openArchive (archive es comment) = .ok (some a) ∧ a.data = archive es comment
      ∧ Decodes es a := by
  refine ⟨_, ?_, rfl, decodes_archive hnames hsize⟩
  have hlen := length_archive es comment
  unfold openArchive
  rw [if_neg (by omega), findCentralDirectory_archive hne hcount hcomment hsize hlast]
  rfl

/-- The entry `a`, stored, with three bytes. -/
def smallEntry : FileEntry where
  name := [0x61]
  data := [1, 2, 3]
  extra := []
  cdExtra := []
  cdComment := []
  version := 20
  minVersion := 20
  flags := 0
  compression := 0
  lastModifiedTime := 0
  lastModifiedDate := 0
  crc := 0
  uncompressedSize := 3
  internalAttributes := 0
  externalAttributes := 0
  name_lt := by decide
  extra_lt := by decide
  cdExtra_lt := by decide
  cdComment_lt := by decide
  noNul := by decide
  supported := by decide

/-- An archive of one entry, without a comment. -/
theorem archive_decodes_small :
    ∃ a, openArchive (archive [smallEntry] []) = .ok (some a)
      ∧ a.data = archive [smallEntry] [] ∧ Decodes [smallEntry] a := by
  apply archive_decodes [smallEntry] [] (by decide) (by decide) (nodup_singleton _) (by decide)
    (by decide)
  intro offset ho
  have hall : ((archive [smallEntry] []).drop (endOffset [smallEntry] + 1)).all (· != 0x50)
      = true := by decide
  exact tryParse_of_drop (fun x hx => by simpa using all_eq_true.mp hall x hx) ho

/-- A comment that makes an end record together with the last two bytes of the end record before
    it, which are its own length. -/
def strayComment : List UInt8 :=
  [5, 6] ++ (List.replicate 16 0 ++ ([0x3c, 0x4b] ++ List.replicate 19260 0))

/-- No suffix of the comment is an end record; but one that starts two bytes before it is, and
    the archive is taken for one without entries. -/
theorem straddling_record_hides_entry :
    strayComment.length ≤ 65535
      ∧ (∀ offset, endOffset [smallEntry] + 22 ≤ offset → tryParseEndOfCentralDirectory
        (archive [smallEntry] strayComment) offset = .ok .invalid)
      ∧ openArchive (archive [smallEntry] strayComment)
        = .ok (some ⟨archive [smallEntry] strayComment, 0, 0⟩)
      ∧ findEntry ⟨archive [smallEntry] strayComment, 0, 0⟩ smallEntry.name = .ok none := by
  have hcomment : strayComment.length = 19280 := by
    simp only [strayComment, length_append, length_replicate, length_cons, length_nil]
  have hoff : endOffset [smallEntry] = 81 := by decide
  have hlen := length_archive [smallEntry] strayComment
  -- the end record, less its last two bytes, and then the other one
  have hsplit : ∀ z : List UInt8,
      endRecord 1 47 34 19280 ++ ([5, 6] ++ (List.replicate 16 0 ++ ([0x3c, 0x4b] ++ z)))
        = (endRecord 1 47 34 19280).take 20 ++ (endRecord 0 0 0 19260 ++ z) := fun _ => rfl
  have hbytes : archive [smallEntry] strayComment
      = (locals [smallEntry] ++ (directory 0 [smallEntry] ++ (endRecord 1 47 34 19280).take 20))
        ++ (endRecord 0 0 0 19260 ++ List.replicate 19260 0) := by
    rw [archive, hcomment]
    show locals [smallEntry] ++ (directory 0 [smallEntry]
      ++ (endRecord 1 47 34 19280 ++ strayComment)) = _
    rw [strayComment, hsplit]
    simp only [append_assoc]
  have hat : At (archive [smallEntry] strayComment) 101 (endRecord 0 0 0 19260) := by
    rw [hbytes]
    exact at_append_length _ _ _
  have hafter : ∀ x ∈ (archive [smallEntry] strayComment).drop (101 + 1), x ≠ 0x50 := by
    rw [hbytes]
    show ∀ x ∈ ([0x4b, 5, 6] ++ List.replicate 16 0 ++ [0x3c, 0x4b] : List UInt8)
      ++ List.replicate 19260 0, x ≠ 0x50
    intro x hx
    rcases mem_append.mp hx with hx | hx
    · have hall : ([0x4b, 5, 6] ++ List.replicate 16 0 ++ [0x3c, 0x4b] : List UInt8).all (· != 0x50)
          = true := by decide
      simpa using all_eq_true.mp hall x hx
    · rw [eq_of_mem_replicate hx]
      decide
  have hparse := tryParse_endRecord (by omega) hat (by omega) (by decide) (by decide)
    (Nat.zero_le _)
  refine ⟨by omega, fun offset ho => tryParse_of_drop hafter (by omega), ?_, rfl⟩
  unfold openArchive findCentralDirectory
  rw [if_neg (by omega), scanBack_eq (fun o ho _ => tryParse_of_drop hafter ho) hparse
    (fun h => by cases h) (by omega) (by omega)]
  rfl

end Bcc.Zip
