import Vexcoder.Lib.Timeline
import Vexcoder.Ui.Editor
import Vexcoder.Ui.VisualRows

/-!
# What the editor keeps

Every position that the editor holds is a character boundary of the text it belongs to (`Sound`), also
those that wait in the stacks and in the history.  An operation does nothing to the text, or is one of
the edits that put the text before it on the stack (`Edits`), or shows a text that was put aside.

The length of the text is kept within `maxInputBytes` by every operation but `replaceRange`, which does
not look at it.
-/

namespace Vexcoder.Ui

open Base Lib.Offsets

/-! ### Text at an offset -/

theorem replaceRangeIn_append (t m u value : List Char) :
    replaceRangeIn (byteLen t) (byteLen t + byteLen m) value (t ++ (m ++ u)) = some (t ++ (value ++ u)) := by
  have hto : sliceTo (byteLen t) (t ++ (m ++ u)) = some t := sliceTo_append t (m ++ u)
  have hfrom : sliceFrom (byteLen t + byteLen m) (t ++ (m ++ u)) = some u := by
    rw [← byteLen_append, ← List.append_assoc]
    exact sliceFrom_append (t ++ m) u
  rw [replaceRangeIn, if_pos (Nat.le_add_right _ _), hto, hfrom]
  rfl

theorem insertStrAt_append (t u value : List Char) :
    insertStrAt (byteLen t) value (t ++ u) = some (t ++ (value ++ u)) :=
  replaceRangeIn_append t [] u value

theorem three_parts {a b : ℕ} {s : List Char} (ha : isCharBoundary a s = true)
    (hb : isCharBoundary b s = true) (hab : a ≤ b) :
    ∃ t m u, s = t ++ (m ++ u) ∧ byteLen t = a ∧ byteLen t + byteLen m = b := by
  obtain ⟨t, v, rfl, rfl⟩ := (isCharBoundary_iff _ _).mp ha
  obtain ⟨t', u, heq, rfl⟩ := (isCharBoundary_iff _ _).mp hb
  obtain ⟨m, rfl⟩ := prefix_of_le utf8Size_pos heq hab
  rw [List.append_assoc] at heq
  exact ⟨t, m, u, heq, rfl, (byteLen_append _ _).symm⟩

theorem trimEndMatches_start (c : Char) (s : List Char) : trimEndMatches c s <+: s := by
  have h := List.dropWhile_suffix (l := s.reverse) (· == c)
  rw [← List.reverse_prefix, List.reverse_reverse] at h
  exact h

theorem byteLen_submitted (s : InputState) : byteLen s.submitted ≤ byteLen s.buffer :=
  extent_le_prefixed _ ((trimEndMatches_start _ _).trans (trimEndMatches_start _ _))

theorem prevCharBoundaryIn_boundary (s : List Char) (idx : ℕ) :
    isCharBoundary (prevCharBoundaryIn s idx) s = true ∧ prevCharBoundaryIn s idx ≤ idx := by
  unfold prevCharBoundaryIn
  have hle : floorCharBoundary idx s ≤ idx := floor_le s idx
  dsimp only
  split
  · exact ⟨(isCharBoundary_iff _ _).mpr ⟨[], s, rfl, rfl⟩, Nat.zero_le _⟩
  · have hle' : floorCharBoundary (floorCharBoundary idx s - 1) s ≤ floorCharBoundary idx s - 1 :=
      floor_le s _
    exact ⟨floorCharBoundary_isCharBoundary _ s, by omega⟩

namespace InputState

theorem nextCharBoundary_boundary (s : InputState) (idx : ℕ) :
    ∃ b, s.nextCharBoundary idx = some b ∧ isCharBoundary b s.buffer = true ∧
      floorCharBoundary idx s.buffer ≤ b := by
  have hend : isCharBoundary (byteLen s.buffer) s.buffer = true := by
    have := isCharBoundary_append s.buffer []
    rwa [List.append_nil] at this
  have hboundary := floorCharBoundary_isCharBoundary idx s.buffer
  obtain ⟨t, u, hbuffer, hlen⟩ := (isCharBoundary_iff _ _).mp hboundary
  unfold nextCharBoundary clampCursorToBoundaryLeft
  dsimp only
  split
  · exact ⟨_, rfl, hend, isCharBoundary_le hboundary⟩
  have hfrom : sliceFrom (floorCharBoundary idx s.buffer) s.buffer = some u := by
    rw [← hlen, hbuffer]
    exact sliceFrom_append t u
  rw [hfrom]
  cases u with
  | nil => exact ⟨_, rfl, hend, isCharBoundary_le hboundary⟩
  | cons ch u =>
    refine ⟨_, rfl, ?_, Nat.le_add_right _ _⟩
    rw [← hlen, hbuffer]
    have := isCharBoundary_append (t ++ [ch]) u
    rwa [List.append_assoc, byteLen_append] at this

end InputState

def EditorRollup.Valid (r : EditorRollup) : Prop := isCharBoundary r.cursor r.buffer = true

/-- What holds of every text that the editor holds, with the position that belongs to it. -/
structure Sound (s : InputState) : Prop where
  cursor : s.rollup.Valid
  stash : ∀ r, s.historyStash = some r → r.Valid
  undoStack : ∀ r ∈ s.undoStack, r.Valid
  redoStack : ∀ r ∈ s.redoStack, r.Valid
  index : ∀ idx, s.historyIndex = some idx → idx < s.history.length ∧ s.historyStash.isSome

structure Fits (s : InputState) : Prop where
  buffer : byteLen s.buffer ≤ maxInputBytes
  history : ∀ entry ∈ s.history, byteLen entry ≤ maxInputBytes
  stash : ∀ r, s.historyStash = some r → byteLen r.buffer ≤ maxInputBytes
  undoStack : ∀ r ∈ s.undoStack, byteLen r.buffer ≤ maxInputBytes
  redoStack : ∀ r ∈ s.redoStack, byteLen r.buffer ≤ maxInputBytes

theorem sound_start : Sound {} :=
  ⟨rfl, (fun _ h => by cases h), (fun _ h => by cases h), (fun _ h => by cases h), (fun _ h => by cases h)⟩

theorem fits_start : Fits {} :=
  ⟨Nat.zero_le _, (fun _ h => by cases h), (fun _ h => by cases h), (fun _ h => by cases h),
    (fun _ h => by cases h)⟩

/-- An edit: the text before it goes on the stack, and the history is left. -/
structure Edits (s s' : InputState) : Prop where
  undoStack : s'.undoStack = s.rollup :: s.undoStack
  redoStack : s'.redoStack = []
  historyIndex : s'.historyIndex = none
  historyStash : s'.historyStash = none
  history : ∀ entry ∈ s'.history, entry ∈ s.history ∨ byteLen entry ≤ byteLen s.buffer
  cursor : s'.rollup.Valid

/-- What an operation that edits comes to: an edit, or nothing, but that the history may be left. -/
inductive EditOutcome (s : InputState) : InputState → Prop where
  | same : EditOutcome s s
  | left : EditOutcome s s.leaveHistory
  | edited {s' : InputState} (h : Edits s s') : EditOutcome s s'

variable {s : InputState}

theorem EditOutcome.sound {s' : InputState} (h : EditOutcome s s') (hs : Sound s) : Sound s' := by
  cases h with
  | same => exact hs
  | left => exact ⟨hs.cursor, (fun _ h => by cases h), hs.undoStack, hs.redoStack, (fun _ h => by cases h)⟩
  | edited h =>
    refine ⟨h.cursor, fun r hr => ?_, fun r hr => ?_, fun r hr => ?_, fun idx hidx => ?_⟩
    · rw [h.historyStash] at hr
      cases hr
    · rw [h.undoStack] at hr
      rcases List.mem_cons.mp hr with rfl | hr
      · exact hs.cursor
      · exact hs.undoStack r hr
    · rw [h.redoStack] at hr
      cases hr
    · rw [h.historyIndex] at hidx
      cases hidx

theorem EditOutcome.fits {s' : InputState} (h : EditOutcome s s') (hs : Fits s)
    (hbuffer : byteLen s'.buffer ≤ maxInputBytes) : Fits s' := by
  cases h with
  | same => exact hs
  | left => exact ⟨hs.buffer, hs.history, (fun _ h => by cases h), hs.undoStack, hs.redoStack⟩
  | edited h =>
    refine ⟨hbuffer, fun entry hentry => ?_, fun r hr => ?_, fun r hr => ?_, fun r hr => ?_⟩
    · rcases h.history entry hentry with hold | hle
      · exact hs.history entry hold
      · exact Nat.le_trans hle hs.buffer
    · rw [h.historyStash] at hr
      cases hr
    · rw [h.undoStack] at hr
      rcases List.mem_cons.mp hr with rfl | hr
      · exact hs.buffer
      · exact hs.undoStack r hr
    · rw [h.redoStack] at hr
      cases hr

/-! ### Edits -/

namespace InputState

variable {s : InputState}

theorem restore_rollup {r : EditorRollup} (h : r.Valid) (s : InputState) : (s.restore r).rollup = r := by
  show EditorRollup.mk r.buffer (floorCharBoundary r.cursor r.buffer) = r
  rw [floorCharBoundary_of_boundary h]

theorem cursor_boundary (hs : Sound s) : isCharBoundary s.cursor s.buffer = true := hs.cursor

theorem clamp_cursor (hs : Sound s) : s.clampCursorToBoundaryLeft s.cursor = s.cursor :=
  floorCharBoundary_of_boundary (cursor_boundary hs)

theorem cursor_parts (hs : Sound s) : ∃ t u, s.buffer = t ++ u ∧ byteLen t = s.cursor :=
  (isCharBoundary_iff _ _).mp hs.cursor

theorem insertStr_spec (hs : Sound s) (value : List Char) :
    ∃ s', s.insertStr value = some s' ∧ EditOutcome s s' ∧
      (byteLen s.buffer ≤ maxInputBytes → byteLen s'.buffer ≤ maxInputBytes) := by
  obtain ⟨t, u, hbuffer, hlen⟩ := cursor_parts hs
  have hclamp : s.leaveHistory.clampCursorToBoundaryLeft s.leaveHistory.cursor = s.cursor :=
    floorCharBoundary_of_boundary hs.cursor
  unfold insertStr
  dsimp only
  rw [hclamp]
  split
  · exact ⟨_, rfl, .left, id⟩
  rename_i hfit
  have hinsert : insertStrAt s.cursor value s.leaveHistory.buffer = some (t ++ (value ++ u)) := by
    show insertStrAt s.cursor value s.buffer = _
    rw [hbuffer, ← hlen]
    exact insertStrAt_append t u value
  rw [hinsert]
  refine ⟨_, rfl, .edited ⟨rfl, rfl, rfl, rfl, fun entry h => .inl h, ?_⟩, fun _ => ?_⟩
  · show isCharBoundary (s.cursor + byteLen value) (t ++ (value ++ u)) = true
    rw [← hlen, ← byteLen_append, ← List.append_assoc]
    exact isCharBoundary_append _ u
  · have hsize : byteLen s.buffer + byteLen value ≤ maxInputBytes := Nat.not_lt.mp hfit
    rw [hbuffer, byteLen_append] at hsize
    show byteLen (t ++ (value ++ u)) ≤ _
    rw [byteLen_append, byteLen_append]
    omega

/-- The bytes of the text behind `replaceRange`. -/
def replacedLen (s : InputState) (start rangeEnd : ℕ) (value : List Char) : ℕ :=
  let first := floorCharBoundary (min start rangeEnd) s.buffer
  let last := floorCharBoundary (max rangeEnd first) s.buffer
  byteLen s.buffer - (last - first) + byteLen value

theorem floor_mono {a b : ℕ} {s : List Char} (ha : isCharBoundary a s = true) (h : a ≤ b) :
    a ≤ floorCharBoundary b s := by
  obtain ⟨t, u, rfl, rfl⟩ := (isCharBoundary_iff _ _).mp ha
  exact le_floor utf8Size_pos t u h

theorem replaceRange_spec (s : InputState) (start rangeEnd : ℕ) (value : List Char) :
    ∃ s', s.replaceRange start rangeEnd value = some s' ∧ EditOutcome s s' ∧
      byteLen s'.buffer = s.replacedLen start rangeEnd value := by
  have hfirst := floorCharBoundary_isCharBoundary (min start rangeEnd) s.buffer
  have hlast := floorCharBoundary_isCharBoundary
    (max rangeEnd (floorCharBoundary (min start rangeEnd) s.buffer)) s.buffer
  obtain ⟨t, m, u, hbuffer, ht, hm⟩ :=
    three_parts hfirst hlast (floor_mono hfirst (Nat.le_max_right _ _))
  have hreplace := replaceRangeIn_append t m u value
  rw [ht, ← ht, hm, ht, ← hbuffer] at hreplace
  refine ⟨{ s.leaveHistory.pushUndo with
      buffer := t ++ (value ++ u), cursor := byteLen t + byteLen value }, ?_,
    .edited ⟨rfl, rfl, rfl, rfl, fun entry h => .inl h, ?_⟩, ?_⟩
  · unfold replaceRange clampCursorToBoundaryLeft
    dsimp only
    rw [hreplace, ht]
    rfl
  · show isCharBoundary (byteLen t + byteLen value) (t ++ (value ++ u)) = true
    rw [← byteLen_append, ← List.append_assoc]
    exact isCharBoundary_append _ u
  · unfold replacedLen
    dsimp only
    have := congrArg byteLen hbuffer
    rw [byteLen_append, byteLen_append] at this
    rw [byteLen_append, byteLen_append]
    omega

theorem removed_spec {start rangeEnd : ℕ} (hstart : isCharBoundary start s.buffer = true)
    (hend : isCharBoundary rangeEnd s.buffer = true) (hle : start ≤ rangeEnd) :
    ∃ buffer, replaceRangeIn start rangeEnd [] s.buffer = some buffer ∧
      isCharBoundary start buffer = true ∧ byteLen buffer ≤ byteLen s.buffer := by
  obtain ⟨t, m, u, hbuffer, rfl, rfl⟩ := three_parts hstart hend hle
  refine ⟨t ++ ([] ++ u), ?_, isCharBoundary_append t _, ?_⟩
  · rw [hbuffer]
    exact replaceRangeIn_append t m u []
  · rw [hbuffer, byteLen_append, byteLen_append, byteLen_append, byteLen_append, byteLen_nil]
    omega

theorem backspace_spec (hs : Sound s) :
    ∃ s', s.backspace = some s' ∧ EditOutcome s s' ∧ byteLen s'.buffer ≤ byteLen s.buffer := by
  unfold backspace
  dsimp only
  rw [clamp_cursor hs]
  split
  · exact ⟨s, rfl, .same, Nat.le_refl _⟩
  · obtain ⟨hprev, hle⟩ := prevCharBoundaryIn_boundary s.buffer s.cursor
    obtain ⟨buffer, hremoved, hcursor, hlen⟩ := removed_spec hprev (cursor_boundary hs) hle
    rw [show s.prevCharBoundary s.cursor = prevCharBoundaryIn s.buffer s.cursor from rfl, hremoved]
    exact ⟨_, rfl, .edited ⟨rfl, rfl, rfl, rfl, fun entry h => .inl h, hcursor⟩, hlen⟩

theorem delete_spec (hs : Sound s) :
    ∃ s', s.delete = some s' ∧ EditOutcome s s' ∧ byteLen s'.buffer ≤ byteLen s.buffer := by
  unfold delete
  dsimp only
  rw [clamp_cursor hs]
  split
  · exact ⟨s, rfl, .same, Nat.le_refl _⟩
  obtain ⟨next, hnext, hboundary, hle⟩ := nextCharBoundary_boundary s s.cursor
  rw [floorCharBoundary_of_boundary (cursor_boundary hs)] at hle
  obtain ⟨buffer, hremoved, hcursor, hlen⟩ := removed_spec (cursor_boundary hs) hboundary hle
  rw [hnext]
  show ∃ s', (replaceRangeIn s.cursor next [] s.buffer).bind _ = some s' ∧ _
  rw [hremoved]
  exact ⟨_, rfl, .edited ⟨rfl, rfl, rfl, rfl, fun entry h => .inl h, hcursor⟩, hlen⟩

theorem submit_spec (s : InputState) :
    EditOutcome s s.submit.1 ∧ byteLen s.submit.1.buffer ≤ byteLen s.buffer := by
  unfold submit
  split
  · exact ⟨.same, Nat.le_refl _⟩
  refine ⟨.edited ⟨rfl, rfl, rfl, rfl, fun entry hentry => ?_, rfl⟩, Nat.zero_le _⟩
  rcases List.mem_append.mp hentry with hold | hnew
  · exact .inl hold
  · rw [List.mem_singleton.mp hnew]
    exact .inr (byteLen_submitted s)

variable {s' : InputState} {idx : ℕ} {stash : EditorRollup}

/-- **Undo takes an edit back, and redo takes the undo back.** -/
theorem undo_edit (h : Edits s s') (hs : Sound s) :
    s'.undo.rollup = s.rollup ∧ s'.undo.redo.rollup = s'.rollup := by
  have hundo : s'.undo =
      InputState.restore { s' with undoStack := s.undoStack, redoStack := s'.rollup :: s'.redoStack }
        s.rollup := by
    rw [InputState.undo, h.undoStack]
  constructor
  · rw [hundo, restore_rollup hs.cursor]
  · rw [hundo]
    exact restore_rollup h.cursor _

/-- The text and the two stacks, as they lie in time. -/
def timeline (s : InputState) : Lib.Timeline EditorRollup := ⟨s.undoStack, s.rollup, s.redoStack⟩

/-- What undo and redo leave alone. -/
def SameHistory (s s' : InputState) : Prop :=
  s'.history = s.history ∧ s'.historyIndex = s.historyIndex ∧ s'.historyStash = s.historyStash

theorem undo_timeline (hs : Sound s) : s.undo.timeline = s.timeline.back ∧ SameHistory s s.undo := by
  cases hstack : s.undoStack with
  | nil => simp [undo, Lib.Timeline.back, timeline, hstack, SameHistory]
  | cons previous rest =>
    have hvalid := hs.undoStack previous (hstack ▸ List.mem_cons_self)
    simp only [undo, Lib.Timeline.back, timeline, hstack, restore_rollup hvalid, SameHistory]
    exact ⟨rfl, rfl, rfl, rfl⟩

theorem redo_timeline (hs : Sound s) : s.redo.timeline = s.timeline.forth ∧ SameHistory s s.redo := by
  cases hstack : s.redoStack with
  | nil => simp [redo, Lib.Timeline.forth, timeline, hstack, SameHistory]
  | cons next rest =>
    have hvalid := hs.redoStack next (hstack ▸ List.mem_cons_self)
    simp only [redo, Lib.Timeline.forth, timeline, hstack, restore_rollup hvalid, SameHistory]
    exact ⟨rfl, rfl, rfl, rfl⟩

theorem forall_timeline {P : EditorRollup → Prop} : (∀ r ∈ s.timeline.all, P r) ↔
    P s.rollup ∧ (∀ r ∈ s.undoStack, P r) ∧ ∀ r ∈ s.redoStack, P r := by
  simp only [Lib.Timeline.all, Lib.Timeline.upTo, timeline, List.mem_append, List.mem_reverse,
    List.mem_singleton, or_imp, forall_and, forall_eq]
  rw [and_assoc, and_left_comm]

theorem sound_of_timeline (hs : Sound s) (hall : s'.timeline.all = s.timeline.all)
    (hsame : SameHistory s s') : Sound s' := by
  obtain ⟨hhistory, hindex, hstash⟩ := hsame
  obtain ⟨hcursor, hundo, hredo⟩ :=
    forall_timeline.mp (hall ▸ forall_timeline.mpr ⟨hs.cursor, hs.undoStack, hs.redoStack⟩)
  exact ⟨hcursor, hstash ▸ hs.stash, hundo, hredo, hhistory ▸ hindex ▸ hstash ▸ hs.index⟩

theorem fits_of_timeline (hf : Fits s) (hall : s'.timeline.all = s.timeline.all)
    (hsame : SameHistory s s') : Fits s' := by
  have hfits : ∀ r ∈ s.timeline.all, byteLen r.buffer ≤ maxInputBytes :=
    forall_timeline.mpr ⟨hf.buffer, hf.undoStack, hf.redoStack⟩
  obtain ⟨hbuffer, hundo, hredo⟩ := forall_timeline.mp (hall ▸ hfits)
  exact ⟨hbuffer, hsame.1 ▸ hf.history, hsame.2.2 ▸ hf.stash, hundo, hredo⟩

/-! ### The history -/

/-- The text and cursor to which leaving the history returns. -/
def draft (s : InputState) : EditorRollup :=
  match s.historyIndex, s.historyStash with
  | some _, some stash => stash
  | _, _ => s.rollup

theorem draft_of_none (h : s.historyIndex = none) : s.draft = s.rollup := by
  rw [draft, h]

/-- An entry of the history is shown, and `stash` is the draft. -/
structure Browses (s : InputState) (idx : ℕ) (stash : EditorRollup) (s' : InputState) : Prop where
  index : s'.historyIndex = some idx
  stash : s'.historyStash = some stash
  history : s'.history = s.history
  entry : s.history[idx]? = some s'.buffer
  cursor : s'.cursor = byteLen s'.buffer
  undoStack : s'.undoStack = s.undoStack
  redoStack : s'.redoStack = s.redoStack

theorem Browses.sound (h : Browses s idx stash s') (hs : Sound s) (hstash : stash.Valid) :
    Sound s' := by
  refine ⟨?_, fun r hr => ?_, fun r hr => ?_, fun r hr => ?_, fun i hi => ?_⟩
  · show isCharBoundary s'.cursor s'.buffer = true
    have := isCharBoundary_append s'.buffer []
    rwa [List.append_nil, ← h.cursor] at this
  · rw [h.stash] at hr
    cases hr
    exact hstash
  · exact hs.undoStack r (h.undoStack ▸ hr)
  · exact hs.redoStack r (h.redoStack ▸ hr)
  · rw [h.index] at hi
    cases hi
    rw [h.history, h.stash]
    exact ⟨(List.getElem?_eq_some_iff.mp h.entry).1, rfl⟩

theorem Browses.fits (h : Browses s idx stash s') (hs : Fits s)
    (hstash : byteLen stash.buffer ≤ maxInputBytes) : Fits s' := by
  refine ⟨hs.history _ (List.mem_of_getElem? h.entry), fun entry he => ?_, fun r hr => ?_,
    fun r hr => ?_, fun r hr => ?_⟩
  · exact hs.history entry (h.history ▸ he)
  · rw [h.stash] at hr
    cases hr
    exact hstash
  · exact hs.undoStack r (h.undoStack ▸ hr)
  · exact hs.redoStack r (h.redoStack ▸ hr)

theorem Browses.draft (h : Browses s idx stash s') : s'.draft = stash := by
  rw [InputState.draft, h.index, h.stash]

theorem showHistory_spec (hidx : idx < s.history.length) (hstash : s.historyStash = some stash) :
    ∃ s', s.showHistory idx = some s' ∧ Browses s idx stash s' := by
  have hget : s.history[idx]? = some s.history[idx] := List.getElem?_eq_getElem hidx
  refine ⟨{ s with
    historyIndex := some idx, buffer := s.history[idx], cursor := byteLen s.history[idx] }, ?_,
    ⟨rfl, hstash, rfl, hget, rfl, rfl, rfl⟩⟩
  rw [showHistory, hget]
  rfl

theorem historyUp_spec (hs : Sound s) :
    ∃ s', s.historyUp = some s' ∧ (s.history = [] ∧ s' = s ∨ ∃ idx, Browses s idx s.draft s') := by
  unfold historyUp
  by_cases hempty : s.history = []
  · rw [hempty]
    exact ⟨s, rfl, .inl ⟨rfl, rfl⟩⟩
  have hne : s.history.isEmpty = false := by simpa using hempty
  have hpos := List.length_pos_of_ne_nil hempty
  rw [hne]
  cases hidx : s.historyIndex with
  | none =>
    have hlast : s.history.length - 1 < s.history.length := by omega
    obtain ⟨s', hshow, hb⟩ := showHistory_spec (s := { s with historyStash := some s.rollup }) hlast rfl
    refine ⟨s', hshow, .inr ⟨s.history.length - 1, ?_⟩⟩
    rw [draft_of_none hidx]
    exact ⟨hb.index, hb.stash, hb.history, hb.entry, hb.cursor, hb.undoStack, hb.redoStack⟩
  | some idx =>
    obtain ⟨hlt, hsome⟩ := hs.index idx hidx
    obtain ⟨stash, hstash⟩ := Option.isSome_iff_exists.mp hsome
    have hbefore : idx - 1 < s.history.length := by omega
    obtain ⟨s', hshow, hb⟩ := showHistory_spec hbefore hstash
    refine ⟨s', hshow, .inr ⟨idx - 1, ?_⟩⟩
    rw [draft, hidx, hstash]
    exact hb

theorem historyDown_spec (hs : Sound s) :
    ∃ s', s.historyDown = some s' ∧
      (s.historyIndex = none ∧ s' = s ∨
        ∃ idx, s.historyIndex = some idx ∧
          (idx + 1 < s.history.length ∧ Browses s (idx + 1) s.draft s' ∨
            s' = s.leaveHistory.restore s.draft)) := by
  unfold historyDown
  cases hidx : s.historyIndex with
  | none => exact ⟨s, rfl, .inl ⟨rfl, rfl⟩⟩
  | some idx =>
    obtain ⟨hlt, hsome⟩ := hs.index idx hidx
    obtain ⟨stash, hstash⟩ := Option.isSome_iff_exists.mp hsome
    have hdraft : s.draft = stash := by
      rw [draft, hidx, hstash]
    dsimp only
    rw [hdraft]
    split
    · rw [hstash]
      exact ⟨_, rfl, .inr ⟨idx, rfl, .inr rfl⟩⟩
    · have hbehind : idx + 1 < s.history.length := by omega
      obtain ⟨s', hshow, hb⟩ := showHistory_spec hbehind hstash
      exact ⟨s', hshow, .inr ⟨idx, rfl, .inl ⟨by omega, hb⟩⟩⟩

theorem draft_valid (hs : Sound s) : s.draft.Valid := by
  unfold draft
  split
  · rename_i hstash
    exact hs.stash _ hstash
  · exact hs.cursor

theorem draft_fits (hs : Fits s) : byteLen s.draft.buffer ≤ maxInputBytes := by
  unfold draft
  split
  · rename_i hstash
    exact hs.stash _ hstash
  · exact hs.buffer

theorem historyUp_keeps (hs : Sound s) :
    ∃ s', s.historyUp = some s' ∧ Sound s' ∧ (Fits s → Fits s') ∧ s'.draft = s.draft := by
  obtain ⟨s', hup, ⟨-, rfl⟩ | ⟨idx, hb⟩⟩ := historyUp_spec hs
  · exact ⟨s', hup, hs, id, rfl⟩
  · exact ⟨s', hup, hb.sound hs (draft_valid hs), fun hf => hb.fits hf (draft_fits hf), hb.draft⟩

theorem historyDown_keeps (hs : Sound s) :
    ∃ s', s.historyDown = some s' ∧ Sound s' ∧ (Fits s → Fits s') ∧ s'.draft = s.draft := by
  obtain ⟨s', hdown, ⟨-, rfl⟩ | ⟨idx, -, ⟨-, hb⟩ | rfl⟩⟩ := historyDown_spec hs
  · exact ⟨s', hdown, hs, id, rfl⟩
  · exact ⟨s', hdown, hb.sound hs (draft_valid hs), fun hf => hb.fits hf (draft_fits hf), hb.draft⟩
  · have hvalid := draft_valid hs
    have hrollup := restore_rollup hvalid s.leaveHistory
    refine ⟨_, hdown, ?_, fun hf => ?_, ?_⟩
    · refine ⟨?_, (fun _ h => by cases h), hs.undoStack, hs.redoStack, (fun _ h => by cases h)⟩
      rw [hrollup]
      exact hvalid
    · exact ⟨draft_fits hf, hf.history, (fun _ h => by cases h), hf.undoStack, hf.redoStack⟩
    · rw [draft_of_none (by rfl), hrollup]

/-! ### Moves of the cursor -/

def Moves (s s' : InputState) : Prop :=
  ∃ cursor, isCharBoundary cursor s.buffer = true ∧ s' = { s with cursor }

theorem Moves.sound (h : Moves s s') (hs : Sound s) : Sound s' := by
  obtain ⟨cursor, hcursor, rfl⟩ := h
  exact ⟨hcursor, hs.stash, hs.undoStack, hs.redoStack, hs.index⟩

theorem Moves.fits (h : Moves s s') (hs : Fits s) : Fits s' := by
  obtain ⟨cursor, -, rfl⟩ := h
  exact ⟨hs.buffer, hs.history, hs.stash, hs.undoStack, hs.redoStack⟩

theorem Moves.self (hs : Sound s) : Moves s s := ⟨s.cursor, cursor_boundary hs, rfl⟩

variable (w : CharWidths)

theorem moveToRow_spec (hs : Sound s) (width : ℕ) (target : VisualLayout → Option ℕ) :
    ∃ s', s.moveToRow w width target = some s' ∧ Moves s s' := by
  obtain ⟨hspans, -⟩ := layout_refines w s.buffer width (cursor_boundary hs)
  unfold moveToRow
  dsimp only
  cases target (visualLayout w s.buffer s.cursor width) with
  | none => exact ⟨s, rfl, Moves.self hs⟩
  | some row =>
    obtain ⟨b, hb, hboundary⟩ := byteForRowCol_boundary w hspans (laidOut_ne_nil w _ _) row
      (visualLayout w s.buffer s.cursor width).cursorCol
    rw [laidOut_chars] at hb hboundary
    dsimp only
    rw [hb]
    exact ⟨_, rfl, b, hboundary, rfl⟩

theorem moveCursorVisualUp_spec (hs : Sound s) (width : ℕ) :
    ∃ s', s.moveCursorVisualUp w width = some s' ∧ Moves s s' := moveToRow_spec w hs _ _

theorem moveCursorVisualDown_spec (hs : Sound s) (width : ℕ) :
    ∃ s', s.moveCursorVisualDown w width = some s' ∧ Moves s s' := moveToRow_spec w hs _ _

theorem visualRowBounds_boundary (buffer : List Char) (row width : ℕ) :
    isCharBoundary (visualRowBounds w buffer row width).1 buffer = true ∧
      isCharBoundary (visualRowBounds w buffer row width).2 buffer = true := by
  have hend : isCharBoundary (byteLen buffer) buffer = true := by
    have := isCharBoundary_append buffer []
    rwa [List.append_nil] at this
  obtain ⟨hspans, -⟩ := layout_refines w buffer width hend
  obtain ⟨before, r, after, hrows, hbounds⟩ := rowBounds_row hspans (laidOut_ne_nil w _ _) row
  have hchars := laidOut_chars w (max width 1) buffer
  rw [hrows, rowChars_append, rowChars_cons] at hchars
  have hfirst := isCharBoundary_append (rowChars before)
    (r.text ++ ((if r.newline then ['\n'] else []) ++ rowChars after))
  have hlast := isCharBoundary_append (rowChars before ++ r.text)
    ((if r.newline then ['\n'] else []) ++ rowChars after)
  rw [List.append_assoc, byteLen_append] at hlast
  rw [hchars] at hfirst hlast
  rw [visualRowBounds, hbounds]
  exact ⟨hfirst, hlast⟩

end InputState

/-! ### One operation -/

def KeyStroke.isEdit (key : KeyStroke) : Bool :=
  match key.code with
  | .char ch => !(key.control && (ch == 'c' || ch == 'z' || ch == 'y'))
  | .enter | .backspace | .delete => true
  | _ => false

def Event.isEdit : Event → Bool
  | .paste _ => true
  | .key stroke => stroke.isEdit
  | .other => false

def EditorOp.isEdit : EditorOp → Bool
  | .insertStr _ | .replaceRange .. | .backspace | .delete | .submit => true
  | .applyInput occurrence => occurrence.isEdit
  | _ => false

def EditorOp.FitsIn (s : InputState) : EditorOp → Prop
  | .replaceRange start rangeEnd value => s.replacedLen start rangeEnd value ≤ maxInputBytes
  | _ => True

instance (s : InputState) (op : EditorOp) : Decidable (op.FitsIn s) := by
  unfold EditorOp.FitsIn
  split <;> infer_instance

/-- What every operation does: it does not panic, and keeps the invariants. -/
def StepsTo (s : InputState) (edit : Bool) (fit : Prop) (r : Option InputState) : Prop :=
  ∃ s', r = some s' ∧ Sound s' ∧ (Fits s → fit → Fits s') ∧ (edit = true → EditOutcome s s')

section

variable {s : InputState} {fit : Prop} (hs : Sound s) (edit : Bool)

include hs

theorem stepsTo_insertStr (value : List Char) : StepsTo s edit fit (s.insertStr value) := by
  obtain ⟨s', hrun, hout, hlen⟩ := InputState.insertStr_spec hs value
  exact ⟨s', hrun, hout.sound hs, fun hf _ => hout.fits hf (hlen hf.buffer), fun _ => hout⟩

theorem stepsTo_backspace : StepsTo s edit fit s.backspace := by
  obtain ⟨s', hrun, hout, hlen⟩ := InputState.backspace_spec hs
  exact ⟨s', hrun, hout.sound hs, fun hf _ => hout.fits hf (Nat.le_trans hlen hf.buffer),
    fun _ => hout⟩

theorem stepsTo_delete : StepsTo s edit fit s.delete := by
  obtain ⟨s', hrun, hout, hlen⟩ := InputState.delete_spec hs
  exact ⟨s', hrun, hout.sound hs, fun hf _ => hout.fits hf (Nat.le_trans hlen hf.buffer),
    fun _ => hout⟩

theorem stepsTo_submit : StepsTo s edit fit (some s.submit.1) := by
  obtain ⟨hout, hlen⟩ := InputState.submit_spec s
  exact ⟨_, rfl, hout.sound hs, fun hf _ => hout.fits hf (Nat.le_trans hlen hf.buffer), fun _ => hout⟩

theorem stepsTo_historyUp : StepsTo s false fit s.historyUp := by
  obtain ⟨s', hrun, hsound, hfits, -⟩ := InputState.historyUp_keeps hs
  exact ⟨s', hrun, hsound, fun hf _ => hfits hf, fun h => Bool.noConfusion h⟩

theorem stepsTo_historyDown : StepsTo s false fit s.historyDown := by
  obtain ⟨s', hrun, hsound, hfits, -⟩ := InputState.historyDown_keeps hs
  exact ⟨s', hrun, hsound, fun hf _ => hfits hf, fun h => Bool.noConfusion h⟩

theorem stepsTo_timeline (hall : s'.timeline.all = s.timeline.all) (hsame : InputState.SameHistory s s') :
    StepsTo s false fit (some s') :=
  ⟨_, rfl, InputState.sound_of_timeline hs hall hsame,
    fun hf _ => InputState.fits_of_timeline hf hall hsame, fun h => Bool.noConfusion h⟩

theorem stepsTo_undo : StepsTo s false fit (some s.undo) := by
  obtain ⟨htimeline, hsame⟩ := InputState.undo_timeline hs
  exact stepsTo_timeline hs (htimeline ▸ (Lib.Timeline.back_spec s.timeline).1) hsame

theorem stepsTo_redo : StepsTo s false fit (some s.redo) := by
  obtain ⟨htimeline, hsame⟩ := InputState.redo_timeline hs
  exact stepsTo_timeline hs (htimeline ▸ (Lib.Timeline.forth_spec s.timeline).1) hsame

theorem stepsTo_moves {r : Option InputState} (h : ∃ s', r = some s' ∧ InputState.Moves s s') :
    StepsTo s false fit r := by
  obtain ⟨s', hrun, hmoves⟩ := h
  exact ⟨s', hrun, hmoves.sound hs, fun hf _ => hmoves.fits hf, fun h => Bool.noConfusion h⟩

theorem stepsTo_same : StepsTo s edit fit (some s) :=
  ⟨s, rfl, hs, fun hf _ => hf, fun _ => .same⟩

theorem applyKey_stepsTo (key : KeyStroke) : StepsTo s key.isEdit True ((s.applyKey key).map Prod.fst) := by
  have hquiet : ∀ r : Option InputState, (InputState.quietly r).map Prod.fst = r := by
    intro r
    cases r <;> rfl
  unfold InputState.applyKey
  split
  · split
    · exact stepsTo_same hs _
    · rw [hquiet]
      exact stepsTo_delete hs _
  · exact stepsTo_same hs _
  · rw [hquiet]
    exact stepsTo_insertStr hs _ _
  · rename_i hcode hcontrol
    rw [show key.isEdit = false by rw [KeyStroke.isEdit, hcode, hcontrol]; rfl]
    exact stepsTo_undo hs
  · rename_i hcode hcontrol
    rw [show key.isEdit = false by rw [KeyStroke.isEdit, hcode, hcontrol]; rfl]
    exact stepsTo_redo hs
  · rw [hquiet]
    exact stepsTo_insertStr hs _ _
  · have hsubmit : StepsTo s key.isEdit True (some s.submit.1) := stepsTo_submit hs key.isEdit
    revert hsubmit
    cases s.submit with
    | mk s' value => cases value <;> exact id
  · rw [hquiet]
    exact stepsTo_backspace hs _
  · rw [hquiet]
    exact stepsTo_delete hs _
  · rename_i hcode
    rw [show key.isEdit = false by rw [KeyStroke.isEdit, hcode]]
    exact stepsTo_moves hs ⟨_, rfl, _, (prevCharBoundaryIn_boundary _ _).1, rfl⟩
  · rename_i hcode
    rw [show key.isEdit = false by rw [KeyStroke.isEdit, hcode]]
    obtain ⟨b, hb, hboundary, -⟩ := InputState.nextCharBoundary_boundary s s.cursor
    rw [hb]
    exact stepsTo_moves hs ⟨_, rfl, b, hboundary, rfl⟩
  · rename_i hcode
    rw [show key.isEdit = false by rw [KeyStroke.isEdit, hcode]]
    exact stepsTo_moves hs ⟨_, rfl, 0, isCharBoundary_append [] _, rfl⟩
  · rename_i hcode
    rw [show key.isEdit = false by rw [KeyStroke.isEdit, hcode]]
    refine stepsTo_moves hs ⟨_, rfl, byteLen s.buffer, ?_, rfl⟩
    have := isCharBoundary_append s.buffer []
    rwa [List.append_nil] at this
  · rename_i hcode
    rw [hquiet, show key.isEdit = false by rw [KeyStroke.isEdit, hcode]]
    exact stepsTo_historyUp hs
  · rename_i hcode
    rw [hquiet, show key.isEdit = false by rw [KeyStroke.isEdit, hcode]]
    exact stepsTo_historyDown hs
  · rw [hquiet]
    exact stepsTo_insertStr hs _ _
  · split <;> exact stepsTo_same hs _
  · exact stepsTo_same hs _

variable (w : CharWidths)

/-- **One operation.** -/
theorem editorStep_stepsTo (op : EditorOp) : StepsTo s op.isEdit (op.FitsIn s) (editorStep w s op) := by
  cases op with
  | insertStr value => exact stepsTo_insertStr hs _ value
  | replaceRange start rangeEnd value =>
    obtain ⟨s', hrun, hout, hlen⟩ := InputState.replaceRange_spec s start rangeEnd value
    refine ⟨s', hrun, hout.sound hs, fun hf hfit => hout.fits hf ?_, fun _ => hout⟩
    rw [hlen]
    exact hfit
  | backspace => exact stepsTo_backspace hs _
  | delete => exact stepsTo_delete hs _
  | submit => exact stepsTo_submit hs _
  | historyUp => exact stepsTo_historyUp hs
  | historyDown => exact stepsTo_historyDown hs
  | undo => exact stepsTo_undo hs
  | redo => exact stepsTo_redo hs
  | visualUp width => exact stepsTo_moves hs (InputState.moveCursorVisualUp_spec w hs width)
  | visualDown width => exact stepsTo_moves hs (InputState.moveCursorVisualDown_spec w hs width)
  | visualHome width =>
    exact stepsTo_moves hs ⟨_, rfl, _, (InputState.visualRowBounds_boundary w _ _ _).1, rfl⟩
  | visualEnd width =>
    exact stepsTo_moves hs ⟨_, rfl, _, (InputState.visualRowBounds_boundary w _ _ _).2, rfl⟩
  | applyInput occurrence =>
    cases occurrence with
    | paste text =>
      have hquiet : (InputState.quietly (s.insertStr text)).map Prod.fst = s.insertStr text := by
        cases s.insertStr text <;> rfl
      show StepsTo s _ _ ((InputState.quietly (s.insertStr text)).map Prod.fst)
      rw [hquiet]
      exact stepsTo_insertStr hs _ text
    | key key => exact applyKey_stepsTo hs key
    | other => exact stepsTo_same hs _

end

/-! ### Runs -/

variable (w : CharWidths)

def HistorySteps (ops : List EditorOp) : Prop := ∀ op ∈ ops, op = .historyUp ∨ op = .historyDown

structure EditorInvariant (s : InputState) : Prop where
  cursor : s.cursor ≤ byteLen s.buffer ∧ isCharBoundary s.cursor s.buffer = true
  size : byteLen s.buffer ≤ maxInputBytes
  /-- No operation panics, and undo takes an edit back: one that changed nothing left the stack alone. -/
  edit : ∀ op, ∃ s', editorStep w s op = some s' ∧ (op.isEdit = true →
    s'.rollup = s.rollup ∧ s'.undoStack = s.undoStack ∨
      s'.undo.rollup = s.rollup ∧ s'.undo.redo.rollup = s'.rollup)
  /-- When steps through the history have left it, the draft is there again; and some number of steps
  down leaves it. -/
  history : ∀ ops, HistorySteps ops → ∃ t, editorRun w s ops = some t ∧
    (t.historyIndex = none → t.rollup = s.draft) ∧
    ∃ k t', editorRun w t (List.replicate k .historyDown) = some t' ∧ t'.historyIndex = none

theorem historySteps_keep (hs : Sound s) {ops : List EditorOp} (hops : HistorySteps ops) :
    ∃ t, editorRun w s ops = some t ∧ Sound t ∧ t.draft = s.draft := by
  induction ops generalizing s with
  | nil => exact ⟨s, rfl, hs, rfl⟩
  | cons op ops ih =>
    have hstep : ∃ s', editorStep w s op = some s' ∧ Sound s' ∧ s'.draft = s.draft := by
      rcases hops op List.mem_cons_self with rfl | rfl
      · obtain ⟨s', hrun, hsound, -, hdraft⟩ := InputState.historyUp_keeps hs
        exact ⟨s', hrun, hsound, hdraft⟩
      · obtain ⟨s', hrun, hsound, -, hdraft⟩ := InputState.historyDown_keeps hs
        exact ⟨s', hrun, hsound, hdraft⟩
    obtain ⟨s', hrun, hsound, hdraft⟩ := hstep
    obtain ⟨t, hrest, ht, htdraft⟩ := ih hsound fun op' h => hops op' (List.mem_cons_of_mem _ h)
    refine ⟨t, ?_, ht, htdraft.trans hdraft⟩
    rw [editorRun, hrun]
    exact hrest

/-- Enough steps down leave the history. -/
theorem historyDown_leaves (hs : Sound s) :
    ∃ k t, editorRun w s (List.replicate k .historyDown) = some t ∧ t.historyIndex = none := by
  cases hidx : s.historyIndex with
  | none => exact ⟨0, s, rfl, hidx⟩
  | some idx =>
    -- each step down leaves the history or comes closer to its end
    induction hleft : s.history.length - idx using Nat.strong_induction_on generalizing s idx with
    | _ left ih =>
      obtain ⟨s', hdown, hcases⟩ := InputState.historyDown_spec hs
      have hdown' : editorStep w s .historyDown = some s' := hdown
      rcases hcases with ⟨hnone, -⟩ | ⟨i, hi, ⟨hlt, hb⟩ | rfl⟩
      · rw [hidx] at hnone
        cases hnone
      · obtain rfl : idx = i := Option.some.inj (hidx.symm.trans hi)
        obtain ⟨k, t, hrun, ht⟩ := ih (s.history.length - (idx + 1)) (by omega)
          (hb.sound hs (InputState.draft_valid hs)) (idx + 1) hb.index (by rw [hb.history])
        refine ⟨k + 1, t, ?_, ht⟩
        rw [List.replicate_succ, editorRun, hdown']
        exact hrun
      · refine ⟨1, s.leaveHistory.restore s.draft, ?_, rfl⟩
        rw [List.replicate_one, editorRun, hdown']
        rfl

theorem editorInvariant_of_sound (hs : Sound s) (hf : Fits s) : EditorInvariant w s := by
  refine ⟨⟨isCharBoundary_le (InputState.cursor_boundary hs), InputState.cursor_boundary hs⟩,
    hf.buffer, fun op => ?_, fun ops hops => ?_⟩
  · obtain ⟨s', hrun, -, -, hout⟩ := editorStep_stepsTo hs w op
    refine ⟨s', hrun, fun hedit => ?_⟩
    cases hout hedit with
    | same | left => exact .inl ⟨rfl, rfl⟩
    | edited h => exact .inr (InputState.undo_edit h hs)
  · obtain ⟨t, hrun, ht, hdraft⟩ := historySteps_keep w hs hops
    refine ⟨t, hrun, fun hnone => ?_, historyDown_leaves w ht⟩
    rw [← hdraft, InputState.draft_of_none hnone]

/-- Each `replaceRange` of the run leaves a text within the limit. -/
def RangesFit (s : InputState) : List EditorOp → Prop
  | [] => True
  | op :: ops => op.FitsIn s ∧ ∀ s', editorStep w s op = some s' → RangesFit s' ops

theorem rangesFit_run (hs : Sound s) (hf : Fits s) (ops : List EditorOp) :
    (∀ taken, taken <+: ops → ∃ t, editorRun w s taken = some t ∧ EditorInvariant w t) ↔
      RangesFit w s ops := by
  induction ops generalizing s with
  | nil =>
    refine ⟨fun _ => trivial, fun _ taken htaken => ?_⟩
    rw [List.prefix_nil.mp htaken]
    exact ⟨s, rfl, editorInvariant_of_sound w hs hf⟩
  | cons op ops ih =>
    obtain ⟨s', hrun, hsound, hfits, -⟩ := editorStep_stepsTo hs w op
    have hnext : ∀ taken, editorRun w s (op :: taken) = editorRun w s' taken := by
      intro taken
      rw [editorRun, hrun]
      rfl
    constructor
    · intro h
      have hfit : op.FitsIn s := by
        obtain ⟨t, ht, hinv⟩ := h [op] ⟨ops, rfl⟩
        rw [hnext] at ht
        cases ht
        cases op with
        | replaceRange start rangeEnd value =>
          obtain ⟨s'', hreplace, -, hlen⟩ := InputState.replaceRange_spec s start rangeEnd value
          obtain rfl : s'' = s' := Option.some.inj (hreplace.symm.trans hrun)
          have hsize := hinv.size
          rw [hlen] at hsize
          exact hsize
        | _ => trivial
      refine ⟨hfit, fun s'' hs'' => ?_⟩
      obtain rfl : s' = s'' := Option.some.inj (hrun.symm.trans hs'')
      refine (ih hsound (hfits hf hfit)).mp fun taken htaken => ?_
      rw [← hnext]
      exact h (op :: taken) (List.cons_prefix_cons.mpr ⟨rfl, htaken⟩)
    · rintro ⟨hfit, hrest⟩ taken htaken
      cases taken with
      | nil => exact ⟨s, rfl, editorInvariant_of_sound w hs hf⟩
      | cons op' taken =>
        obtain ⟨rfl, hprefix⟩ := List.cons_prefix_cons.mp htaken
        rw [hnext]
        exact (ih hsound (hfits hf hfit)).mpr (hrest s' hrun) taken hprefix

/-- **The invariants of the editor** hold in every state of a run if and only if each `replaceRange` of
the run leaves a text within the limit. -/
theorem editor_invariants_iff (ops : List EditorOp) :
    (∀ taken, taken <+: ops → ∃ t, editorRun w {} taken = some t ∧ EditorInvariant w t) ↔
      RangesFit w {} ops :=
  rangesFit_run w sound_start fits_start ops

/-- Text that fits, typed into an empty editor. -/
theorem insertStr_empty {value : List Char} (h : byteLen value ≤ maxInputBytes) :
    ∃ s, editorStep w {} (.insertStr value) = some s ∧ s.buffer = value := by
  have hinsert : insertStrAt 0 value [] = some ([] ++ (value ++ [])) :=
    insertStrAt_append [] [] value
  have hfit : ¬ byteLen [] + byteLen value > maxInputBytes := by
    rw [byteLen_nil]
    omega
  refine ⟨{
    buffer := [] ++ (value ++ []), cursor := 0 + byteLen value
    undoStack := [{ buffer := [], cursor := 0 }] }, ?_, ?_⟩
  · show InputState.insertStr {} value = _
    refine (if_neg hfit).trans ?_
    show (insertStrAt 0 value []).bind _ = _
    rw [hinsert]
    rfl
  · rw [List.nil_append, List.append_nil]

/-- **The completion that exceeds the limit**: one character put in front of a full text. -/
theorem replaceRange_exceeds :
    ∃ s s', editorRun sampleWidths {} [.insertStr (List.replicate maxInputBytes 'x')] = some s ∧
      editorStep sampleWidths s (.replaceRange 0 0 ['@']) = some s' ∧
      byteLen s.buffer = maxInputBytes ∧ byteLen s'.buffer = maxInputBytes + 1 ∧
      ¬ EditorInvariant sampleWidths s' := by
  have hlen : byteLen (List.replicate maxInputBytes 'x') = maxInputBytes := by
    rw [byteLen_replicate]
    rfl
  obtain ⟨s, hinsert, hbuffer⟩ := insertStr_empty sampleWidths (Nat.le_of_eq hlen)
  obtain ⟨s', hreplace, -, hreplaced⟩ := InputState.replaceRange_spec s 0 0 ['@']
  have hsize : byteLen s'.buffer = maxInputBytes + 1 := by
    have hzero : floorCharBoundary 0 s.buffer = 0 := Nat.le_zero.mp (floor_le s.buffer 0)
    rw [hreplaced, InputState.replacedLen, Nat.min_self, hzero, Nat.max_self, hzero, hbuffer, hlen]
    rfl
  refine ⟨s, s', ?_, hreplace, ?_, hsize, fun hinv => ?_⟩
  · rw [editorRun, hinsert]
    rfl
  · rw [hbuffer, hlen]
  · have := hinv.size
    omega

end Vexcoder.Ui
