import Bcc.Text.Search
import Mathlib.Data.Bool.AllAny

namespace Bcc.Tracefs

open CText List

/-!
# Tracefs — removing a probe event

The files `kprobe_events` and `uprobe_events` list one probe event in a line.

* `bpfDetachProbe` — removes an event by writing its name behind `-:`, if it is listed;
* `bpfDetachProbe_exact_iff` — the name is looked for anywhere in a line.
-/

/-- An event of the list.  The parts of its line can be told apart. -/
structure ProbeEvent where
  kind : List Char
  group : List Char
  name : List Char
  definition : List Char
  plain : ∀ c ∈ kind ++ group ++ name ++ definition, c ≠ '\n' ∧ c ≠ nul
  kindEnds : ':' ∉ kind
  groupEnds : '/' ∉ group
  nameEnds : ' ' ∉ name

/-- The line of an event: `p:kprobes/name definition`. -/
def ProbeEvent.line (e : ProbeEvent) : List Char :=
  e.kind ++ ':' :: (e.group ++ '/' :: e.name) ++ ' ' :: e.definition

/-- The file with the events, and what the system answers to a process that uses it. -/
structure ProbeEvents where
  events : List ProbeEvent
  opensForRead : Bool
  opensForWrite : Bool
  writes : Bool

/-- The text of the file. -/
def ProbeEvents.content (f : ProbeEvents) : List Char :=
  (f.events.map ProbeEvent.line).flatMap (· ++ ['\n'])

/-- `event_type` -/
inductive EventType where
  | kprobe
  | uprobe
  deriving DecidableEq, Repr

def EventType.text : EventType → List Char
  | .kprobe => "kprobe".toList
  | .uprobe => "uprobe".toList

/-! ### The code -/

def pathMax : Nat := 4096

/-- `"%s_bcc_%d"` -/
def eventAlias (evName : List Char) (pid : Int) : List Char :=
  evName ++ ("_bcc_".toList ++ decimal pid)

/-- `"%ss/%s_bcc_%d"` -/
def eventText (eventType : EventType) (evName : List Char) (pid : Int) : List Char :=
  (eventType.text ++ ['s']) ++ '/' :: eventAlias evName pid

/-- The loop over the lines: `getline` leaves the newline at the end of a line. -/
def findEvent (buf : List Char) : List (List Char) → Bool
  | [] => false
  | line :: lines => if (find buf (line ++ ['\n'])).isSome then true else findEvent buf lines

/-- `bpf_detach_probe`: the result, and the texts written to the file. -/
def bpfDetachProbe (f : ProbeEvents) (pid : Int) (evName : List Char) (eventType : EventType) :
    Int × List (List Char) :=
  let buf := eventText eventType evName pid
  if !f.opensForRead then (-1, [])
  else if pathMax ≤ buf.length then (-1, [])
  else if !findEvent buf (getlines f.content) then (0, [])
  else if !f.opensForWrite then (-1, [])
  else if pathMax ≤ ("-:".toList ++ buf).length then (-1, [])
  else if !f.writes then (-1, ["-:".toList ++ buf])
  else (0, ["-:".toList ++ buf])

/-! ### Finding the event -/

section Find

variable {f : ProbeEvents} {pid : Int} {evName : List Char} {eventType : EventType}

/-- An event of exactly this name is listed. -/
def Listed (f : ProbeEvents) (pid : Int) (evName : List Char) (eventType : EventType) : Prop :=
  ∃ e ∈ f.events, e.group = eventType.text ++ ['s'] ∧ e.name = eventAlias evName pid

/-- The name of the event is somewhere in a line. -/
def Mentioned (f : ProbeEvents) (pid : Int) (evName : List Char) (eventType : EventType) : Prop :=
  ∃ e ∈ f.events, eventText eventType evName pid <:+: e.line

theorem Listed.mentioned (h : Listed f pid evName eventType) :
    Mentioned f pid evName eventType := by
  obtain ⟨e, he, hgroup, hname⟩ := h
  refine ⟨e, he, e.kind ++ [':'], ' ' :: e.definition, ?_⟩
  simp [ProbeEvent.line, eventText, hgroup, hname]

theorem line_plain (e : ProbeEvent) : '\n' ∉ e.line := by
  have hplain : '\n' ∉ e.kind ++ e.group ++ e.name ++ e.definition :=
    fun h => (e.plain _ h).1 rfl
  simpa [ProbeEvent.line] using hplain

theorem getlines_content : getlines f.content = f.events.map ProbeEvent.line := by
  apply getlines_flatMap
  intro l hl
  obtain ⟨e, -, rfl⟩ := mem_map.mp hl
  exact line_plain e

theorem decimal_ne_nil (n : Int) : decimal n ≠ [] := by
  unfold decimal
  split_ifs
  · exact cons_ne_nil _ _
  · exact Nat.toDigits_ne_nil

theorem eventText_eq : eventText eventType evName pid
    = (eventType.text ++ ['s'] ++ '/' :: evName ++ "_bcc_".toList) ++ decimal pid := by
  simp [eventText, eventAlias]

/-- A text that ends with a number is not found across the end of a line. -/
theorem infix_newline_iff {l : List Char} :
    eventText eventType evName pid <:+: l ++ ['\n'] ↔ eventText eventType evName pid <:+: l := by
  rw [infix_concat_iff]
  refine or_iff_right ?_
  rintro ⟨front, hfront⟩
  obtain hnil | ⟨digits, c, hdigits⟩ := eq_nil_or_concat (decimal pid)
  · exact decimal_ne_nil pid hnil
  have hc : c ∈ decimal pid := by simp [hdigits]
  obtain rfl : c = '\n' := by
    rw [eventText_eq, hdigits, concat_eq_append, ← append_assoc, ← append_assoc] at hfront
    exact singleton_inj.mp (append_inj' hfront rfl).2
  rcases mem_decimal hc with h | h
  · cases h
  · cases h

theorem findEvent_iff (ls : List (List Char)) :
    findEvent (eventText eventType evName pid) ls = true
      ↔ ∃ l ∈ ls, eventText eventType evName pid <:+: l := by
  induction ls with
  | nil => simp [findEvent]
  | cons l ls ih =>
    rw [findEvent, exists_mem_cons_iff, ← ih, ← infix_newline_iff, ← find_isSome_iff]
    by_cases hfind : (find (eventText eventType evName pid) (l ++ ['\n'])).isSome = true
    · simp
    · simp

theorem findEvent_content_iff :
    findEvent (eventText eventType evName pid) (getlines f.content) = true
      ↔ Mentioned f pid evName eventType := by
  rw [findEvent_iff, getlines_content]
  simp [exists_exists_and_eq_and, Mentioned]

/-! ### Removing exactly the listed event -/

/-- The event is removed exactly if it is listed; if it is not, the call succeeds and writes
    nothing. -/
def Exact (f : ProbeEvents) (pid : Int) (evName : List Char) (eventType : EventType) : Prop :=
  ((bpfDetachProbe f pid evName eventType).2 = ["-:".toList ++ eventText eventType evName pid]
      ↔ Listed f pid evName eventType)
    ∧ (¬ Listed f pid evName eventType → bpfDetachProbe f pid evName eventType = (0, []))

/-- The file can be used and the texts fit into their buffer. -/
structure Usable (f : ProbeEvents) (buf : List Char) : Prop where
  opens : f.opensForWrite = true
  fits : ("-:".toList ++ buf).length < pathMax

theorem bpfDetachProbe_of_not_mentioned (hread : f.opensForRead = true)
    (hfits : (eventText eventType evName pid).length < pathMax)
    (hnot : ¬ Mentioned f pid evName eventType) :
    bpfDetachProbe f pid evName eventType = (0, []) := by
  have hfind := mt findEvent_content_iff.mp hnot
  simp [bpfDetachProbe, hread, Nat.not_le.mpr hfits, hfind]

/-- Whatever line mentions the event, the text that removes it is written, or the call fails. -/
theorem bpfDetachProbe_of_mentioned (hread : f.opensForRead = true)
    (hfits : (eventText eventType evName pid).length < pathMax)
    (hmentioned : Mentioned f pid evName eventType) :
    Usable f (eventText eventType evName pid)
        ∧ (bpfDetachProbe f pid evName eventType).2
          = ["-:".toList ++ eventText eventType evName pid]
      ∨ ¬ Usable f (eventText eventType evName pid)
        ∧ bpfDetachProbe f pid evName eventType = (-1, []) := by
  have hfind := findEvent_content_iff.mpr hmentioned
  rw [bpfDetachProbe, if_neg (by simp [hread]), if_neg (Nat.not_le.mpr hfits),
    if_neg (by simp [hfind])]
  by_cases hopens : f.opensForWrite = true
  · rw [if_neg (by simp [hopens])]
    by_cases hlong : pathMax ≤ ("-:".toList ++ eventText eventType evName pid).length
    · rw [if_pos hlong]
      exact Or.inr ⟨fun h => absurd hlong (Nat.not_le.mpr h.fits), rfl⟩
    · refine Or.inl ⟨⟨hopens, Nat.not_le.mp hlong⟩, ?_⟩
      split_ifs <;> rfl
  · rw [if_pos (by simp [hopens])]
    exact Or.inr ⟨fun h => absurd h.opens hopens, rfl⟩

/-- Nothing is written and the call fails if the file or the text is of no use. -/
theorem bpfDetachProbe_fails
    (h : ¬ (f.opensForRead = true ∧ (eventText eventType evName pid).length < pathMax)) :
    bpfDetachProbe f pid evName eventType = (-1, []) := by
  rw [bpfDetachProbe]
  by_cases hread : f.opensForRead = true
  · rw [if_neg (by simp [hread]), if_pos (Nat.not_lt.mp fun hfits => h ⟨hread, hfits⟩)]
  · rw [if_pos (by simp [hread])]

/-- **Exactly the listed event.**  The call does what it is for exactly if the file can be read,
    the name fits into its buffer, and either the event is listed and can be removed, or its name
    is in no line at all, not even as the beginning of another name or in a definition. -/
theorem bpfDetachProbe_exact_iff : Exact f pid evName eventType
    ↔ f.opensForRead = true ∧ (eventText eventType evName pid).length < pathMax
      ∧ (Listed f pid evName eventType ∧ Usable f (eventText eventType evName pid)
        ∨ ¬ Mentioned f pid evName eventType) := by
  by_cases hstart : f.opensForRead = true ∧ (eventText eventType evName pid).length < pathMax
  · obtain ⟨hread, hfits⟩ := hstart
    rw [and_iff_right hread, and_iff_right hfits]
    by_cases hmentioned : Mentioned f pid evName eventType
    · rw [or_iff_left (not_not.mpr hmentioned), Exact]
      obtain ⟨husable, hrun⟩ | ⟨husable, hrun⟩ :=
        bpfDetachProbe_of_mentioned hread hfits hmentioned
      · rw [and_iff_left husable]
        refine ⟨fun h => h.1.mp hrun, fun h => ⟨iff_of_true hrun h, fun hnot => absurd h hnot⟩⟩
      · rw [hrun]
        refine iff_of_false ?_ fun h => husable h.2
        rintro ⟨hiff, hnone⟩
        by_cases hlisted : Listed f pid evName eventType
        · exact absurd (hiff.mpr hlisted) (cons_ne_nil _ _).symm
        · exact absurd (hnone hlisted) (by decide)
    · have hnot := mt Listed.mentioned hmentioned
      have hrun := bpfDetachProbe_of_not_mentioned hread hfits hmentioned
      refine iff_of_true ⟨iff_of_false ?_ hnot, fun _ => hrun⟩ (Or.inr hmentioned)
      rw [hrun]
      exact (cons_ne_nil _ _).symm
  · refine iff_of_false ?_ (fun h => hstart ⟨h.1, h.2.1⟩)
    rintro ⟨hiff, hnone⟩
    rw [bpfDetachProbe_fails hstart] at hiff hnone
    by_cases hlisted : Listed f pid evName eventType
    · exact absurd (hiff.mpr hlisted) (cons_ne_nil _ _).symm
    · exact absurd (hnone hlisted) (by decide)

end Find

/-- The event of process 1234 for a function. -/
def otherProcess : ProbeEvent where
  kind := ['p']
  group := "kprobes".toList
  name := "p_do_sys_open_bcc_1234".toList
  definition := "do_sys_open".toList
  plain := all_iff_forall_prop.mp (by decide)
  kindEnds := by decide
  groupEnds := by decide
  nameEnds := by decide

/-- Process 123 has no event in the list and removes one all the same. -/
theorem bpfDetachProbe_other_process :
    (∀ e ∈ [otherProcess], e.name ≠ eventAlias "p_do_sys_open".toList 123)
      ∧ bpfDetachProbe ⟨[otherProcess], true, true, true⟩ 123 "p_do_sys_open".toList .kprobe
        = (0, ["-:kprobes/p_do_sys_open_bcc_123".toList]) := by
  decide

end Bcc.Tracefs
