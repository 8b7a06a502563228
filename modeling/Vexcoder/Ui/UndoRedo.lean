import Vexcoder.Ui.EditorInvariants

/-!
# Undo and redo in the editor

The two stacks with the text between them are a timeline, on which undo goes back and redo goes forth.
So undo and redo, in any order, never lose a text, and a run of edits is undone and redone as a whole.
-/

namespace Vexcoder.Ui

open Lib InputState

variable {s s' : InputState}

variable (w : CharWidths)

theorem InputState.SameHistory.trans {s'' : InputState} (h : SameHistory s s') (h' : SameHistory s' s'') :
    SameHistory s s'' :=
  ⟨h'.1.trans h.1, h'.2.1.trans h.2.1, h'.2.2.trans h.2.2⟩

/-- The text with its two stacks and the history are all that an editor has. -/
theorem eq_of_timeline (htimeline : s'.timeline = s.timeline) (hsame : SameHistory s s') : s' = s := by
  obtain ⟨buffer, cursor, history, historyIndex, historyStash, undoStack, redoStack⟩ := s
  obtain ⟨buffer', cursor', history', historyIndex', historyStash', undoStack', redoStack'⟩ := s'
  obtain ⟨hhistory, hindex, hstash⟩ := hsame
  cases htimeline
  cases hhistory
  cases hindex
  cases hstash
  rfl

/-! ### Any order of undo and redo -/

def undoOrRedo (back : Bool) : EditorOp := if back then .undo else .redo

/-- The place on a timeline of `size` texts to which a move goes. -/
def moveTo (size place : ℕ) (back : Bool) : ℕ := if back then place - 1 else min (place + 1) (size - 1)

theorem undoOrRedo_run (hs : Sound s) (moves : List Bool) :
    ∃ s', editorRun w s (moves.map undoOrRedo) = some s' ∧ Sound s' ∧ SameHistory s s' ∧
      s'.timeline.all = s.timeline.all ∧
        s'.undoStack.length = moves.foldl (moveTo s.timeline.all.length) s.undoStack.length := by
  induction moves generalizing s with
  | nil => exact ⟨s, rfl, hs, ⟨rfl, rfl, rfl⟩, rfl, rfl⟩
  | cons back moves ih =>
    have hstep : ∃ s₁, editorStep w s (undoOrRedo back) = some s₁ ∧ Sound s₁ ∧ SameHistory s s₁ ∧
        s₁.timeline.all = s.timeline.all ∧
          s₁.undoStack.length = moveTo s.timeline.all.length s.undoStack.length back := by
      cases back with
      | true =>
        obtain ⟨htimeline, hsame⟩ := undo_timeline hs
        have hspec := Timeline.back_spec s.timeline
        rw [← htimeline] at hspec
        exact ⟨s.undo, rfl, sound_of_timeline hs hspec.1 hsame, hsame, hspec⟩
      | false =>
        obtain ⟨htimeline, hsame⟩ := redo_timeline hs
        have hspec := Timeline.forth_spec s.timeline
        rw [← htimeline] at hspec
        exact ⟨s.redo, rfl, sound_of_timeline hs hspec.1 hsame, hsame, hspec⟩
    obtain ⟨s₁, hrun, hs₁, hsame₁, hall₁, hplace₁⟩ := hstep
    obtain ⟨s', hrest, hs', hsame, hall, hplace⟩ := ih hs₁
    refine ⟨s', ?_, hs', ?_, hall.trans hall₁, ?_⟩
    · rw [List.map_cons, editorRun, hrun]
      exact hrest
    · exact hsame₁.trans hsame
    · rw [hplace, hall₁, hplace₁, List.foldl_cons]

theorem sound_run (hs : Sound s) (ops : List EditorOp) : ∃ s', editorRun w s ops = some s' ∧ Sound s' := by
  induction ops generalizing s with
  | nil => exact ⟨s, rfl, hs⟩
  | cons op ops ih =>
    obtain ⟨s₁, hrun, hs₁, -⟩ := editorStep_stepsTo hs w op
    obtain ⟨s', hrest, hs'⟩ := ih hs₁
    refine ⟨s', ?_, hs'⟩
    rw [editorRun, hrun]
    exact hrest

/-- **Undo and redo lose nothing.** -/
theorem undoOrRedo_keeps (ops : List EditorOp) :
    ∃ s, editorRun w {} ops = some s ∧ ∀ moves : List Bool, ∃ s', editorRun w s (moves.map undoOrRedo) = some s' ∧
      s'.timeline.all = s.timeline.all ∧ SameHistory s s' ∧
        s'.undoStack.length = moves.foldl (moveTo s.timeline.all.length) s.undoStack.length := by
  obtain ⟨s, hrun, hs⟩ := sound_run w sound_start ops
  refine ⟨s, hrun, fun moves => ?_⟩
  obtain ⟨s', hmoves, -, hsame, hall, hplace⟩ := undoOrRedo_run w hs moves
  exact ⟨s', hmoves, hall, hsame, hplace⟩

/-! ### Undoing a run of edits -/

theorem EditOutcome.upTo (h : EditOutcome s s') :
    s.timeline.upTo <+: s'.timeline.upTo ∧ s.undoStack.length ≤ s'.undoStack.length ∧
      s'.undoStack.length ≤ s.undoStack.length + 1 := by
  cases h with
  | same | left => exact ⟨List.prefix_rfl, Nat.le_refl _, Nat.le_succ _⟩
  | edited h =>
    have hrecord : s'.timeline = s.timeline.record s'.rollup := by
      rw [InputState.timeline, h.undoStack, h.redoStack]
      rfl
    rw [hrecord, Timeline.upTo_record, h.undoStack]
    exact ⟨List.prefix_append _ _, Nat.le_succ _, Nat.le_refl _⟩

theorem edits_run (hs : Sound s) (edits : List EditorOp) (hedits : ∀ op ∈ edits, op.isEdit = true) :
    ∃ s', editorRun w s edits = some s' ∧ Sound s' ∧ s.timeline.upTo <+: s'.timeline.upTo ∧
      ∃ n ≤ edits.length, s'.undoStack.length = s.undoStack.length + n := by
  induction edits generalizing s with
  | nil => exact ⟨s, rfl, hs, List.prefix_rfl, 0, Nat.le_refl _, rfl⟩
  | cons op edits ih =>
    obtain ⟨s₁, hrun, hs₁, -, hout⟩ := editorStep_stepsTo hs w op
    obtain ⟨hupTo₁, hle, hle'⟩ := (hout (hedits op List.mem_cons_self)).upTo
    obtain ⟨s', hrest, hs', hupTo, n, hn, hlength⟩ :=
      ih hs₁ fun op h => hedits op (List.mem_cons_of_mem _ h)
    refine ⟨s', ?_, hs', hupTo₁.trans hupTo, n + (s₁.undoStack.length - s.undoStack.length), ?_, ?_⟩
    · rw [editorRun, hrun]
      exact hrest
    · rw [List.length_cons]
      omega
    · omega

theorem undo_times (hs : Sound s) (n : ℕ) :
    ∃ s', editorRun w s (List.replicate n .undo) = some s' ∧ Sound s' ∧ SameHistory s s' ∧
      s'.timeline = Timeline.back^[n] s.timeline := by
  induction n generalizing s with
  | zero => exact ⟨s, rfl, hs, ⟨rfl, rfl, rfl⟩, rfl⟩
  | succ n ih =>
    obtain ⟨hback, hsame⟩ := undo_timeline hs
    obtain ⟨s', hrun, hs', hsame', htimeline⟩ :=
      ih (sound_of_timeline hs (hback ▸ (Timeline.back_spec s.timeline).1) hsame)
    rw [hback] at htimeline
    exact ⟨s', hrun, hs', hsame.trans hsame', htimeline⟩

theorem redo_times (hs : Sound s) (n : ℕ) :
    ∃ s', editorRun w s (List.replicate n .redo) = some s' ∧ SameHistory s s' ∧
      s'.timeline = Timeline.forth^[n] s.timeline := by
  induction n generalizing s with
  | zero => exact ⟨s, rfl, ⟨rfl, rfl, rfl⟩, rfl⟩
  | succ n ih =>
    obtain ⟨hforth, hsame⟩ := redo_timeline hs
    obtain ⟨s', hrun, hsame', htimeline⟩ :=
      ih (sound_of_timeline hs (hforth ▸ (Timeline.forth_spec s.timeline).1) hsame)
    rw [hforth] at htimeline
    exact ⟨s', hrun, hsame.trans hsame', htimeline⟩

/-- **A run of edits is undone and redone as a whole**: undo once for each edit that changed something,
and the text, the cursor and what can be undone are those in front of it; redo as often, and the editor is
the one behind it. -/
theorem edits_undone (ops edits : List EditorOp) (hedits : ∀ op ∈ edits, op.isEdit = true) :
    ∃ s t n t', editorRun w {} ops = some s ∧ editorRun w s edits = some t ∧ n ≤ edits.length ∧
      editorRun w t (List.replicate n .undo) = some t' ∧ t'.rollup = s.rollup ∧
        t'.undoStack = s.undoStack ∧ editorRun w t' (List.replicate n .redo) = some t := by
  obtain ⟨s, hs, hsound⟩ := sound_run w sound_start ops
  obtain ⟨t, ht, htsound, hupTo, n, hn, hlength⟩ := edits_run w hsound edits hedits
  obtain ⟨t', ht', htsound', hsame, hback⟩ := undo_times w htsound n
  obtain ⟨u, hu, hsame', hforth⟩ := redo_times w htsound' n
  obtain ⟨hpast, hhere, hagain⟩ := Timeline.back_forth hupTo n hlength
  rw [← hback] at hpast hhere hagain
  have hredone : u = t := eq_of_timeline (hforth.trans hagain) (hsame.trans hsame')
  rw [hredone] at hu
  exact ⟨s, t, n, t', hs, ht, hn, ht', hhere, hpast, hu⟩

theorem edits_undone_sample :
    (∀ op ∈ [EditorOp.insertStr ['a'], .backspace, .delete], op.isEdit = true) ∧
      ∃ s t n t', editorRun sampleWidths {} [.insertStr ['b']] = some s ∧
        editorRun sampleWidths s [.insertStr ['a'], .backspace, .delete] = some t ∧ n ≤ 3 ∧
          editorRun sampleWidths t (List.replicate n .undo) = some t' ∧ t'.rollup = s.rollup ∧
            t'.undoStack = s.undoStack ∧ editorRun sampleWidths t' (List.replicate n .redo) = some t :=
  ⟨by decide, edits_undone sampleWidths [.insertStr ['b']] [.insertStr ['a'], .backspace, .delete] (by decide)⟩

end Vexcoder.Ui
