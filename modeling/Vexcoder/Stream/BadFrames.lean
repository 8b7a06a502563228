import Vexcoder.Stream.SignalStream

/-!
# Frames that are not UTF-8

`process` returns an error at the first such frame of a chunk: the envelopes of the frames in front of
it are lost, and the stream ends, so that those behind it are lost as well.
-/

namespace Vexcoder.Stream

open Base Lib Lib.Emitter Vexcoder.Runtime Handoff
open Vexcoder.Stream.FrameSplit

namespace StreamParser

variable (decoder : SseDecoder)

instance (frame : List UInt8) : Decidable (ValidFrame frame) :=
  inferInstanceAs (Decidable ((fromUtf8 frame).isSome = true))

/-- `process` turns the chunk down: the buffer has overflowed, or does so now. -/
def Overflows (chunk : List UInt8) (s : StreamParser) : Prop :=
  s.overflowed = true ∨ maxSseBufferBytes < s.buffer.length + chunk.length
  deriving Decidable

def receive (chunk : List UInt8) (s : StreamParser) : StreamParser :=
  stripUtf8BomOnce { s with buffer := s.buffer ++ chunk }

def cutChunk (chunk : List UInt8) (s : StreamParser) : List (List UInt8) × List UInt8 :=
  cutFrames (receive chunk s).buffer.length (receive chunk s).buffer

/-- A frame that the chunk completes is not UTF-8. -/
def HasBadFrame (chunk : List UInt8) (s : StreamParser) : Prop :=
  ¬ Overflows chunk s ∧ ∃ frame ∈ (cutChunk chunk s).1, ¬ ValidFrame frame
  deriving Decidable

/-- `process` as it is to be: the well-formed frames of the chunk are handled in order, and the others
passed over. -/
def processWellFormed (chunk : List UInt8) (s : StreamParser) : Processed :=
  if Overflows chunk s then process decoder chunk s
  else
    (forEach ((cutChunk chunk s).1.filter ValidFrame) (parseFrame decoder) (receive chunk s).core).map
      fun (_, out, c) => (.ok out, c.withFraming { receive chunk s with buffer := (cutChunk chunk s).2 })

theorem process_of_fits {chunk : List UInt8} {s : StreamParser} (h : ¬ Overflows chunk s) :
    process decoder chunk s = processFrames decoder (receive chunk s).buffer.length [] (receive chunk s) := by
  obtain ⟨hopen, hfits⟩ := not_or.mp h
  rw [process, if_neg hopen, if_neg hfits]
  rfl

/-- Without bad frames both are the same. -/
theorem process_eq_wellFormed {chunk : List UInt8} {s : StreamParser} (h : ¬ HasBadFrame chunk s) :
    process decoder chunk s = processWellFormed decoder chunk s := by
  unfold processWellFormed
  split
  · rfl
  rename_i hfits
  have hvalid : ∀ frame ∈ (cutChunk chunk s).1, ValidFrame frame := by
    intro frame hframe
    by_contra hbad
    exact h ⟨hfits, frame, hframe, hbad⟩
  have hall : (cutChunk chunk s).1.filter ValidFrame = (cutChunk chunk s).1 :=
    List.filter_eq_self.mpr fun frame hframe => decide_eq_true (hvalid frame hframe)
  rw [process_of_fits decoder hfits, processFrames_eq decoder hvalid, hall]
  rfl

/-- The loop stops at a bad frame, unless a frame in front of it panics. -/
theorem processFrames_bad {fuel : ℕ} {frames : List RuntimeEnvelope} {s : StreamParser}
    (h : ∃ frame ∈ (cutFrames fuel s.buffer).1, ¬ ValidFrame frame) :
    (∃ s', processFrames decoder fuel frames s = some (.error .notUtf8, s')) ∨
      processFrames decoder fuel frames s = none ∧
        forEach ((cutFrames fuel s.buffer).1.filter ValidFrame) (parseFrame decoder) s.core = none := by
  induction fuel generalizing frames s with
  | zero =>
    obtain ⟨frame, hframe, -⟩ := h
    cases hframe
  | succ fuel ih =>
    rw [cutFrames] at h ⊢
    rw [processFrames]
    cases hfind : findSseFrameDelimiter s.buffer with
    | none =>
      rw [hfind] at h
      obtain ⟨frame, hframe, -⟩ := h
      cases hframe
    | some delimiter =>
      obtain ⟨pos, delimLen⟩ := delimiter
      simp only [hfind] at h ⊢
      cases htext : fromUtf8 (s.buffer.take pos) with
      | none => exact Or.inl ⟨_, rfl⟩
      | some frameText =>
        have hvalid : ValidFrame (s.buffer.take pos) := by rw [ValidFrame, htext]; rfl
        have hparse := indifferent_parseSseFrameText decoder frameText
        have hfilter : ∀ frames : List (List UInt8),
            (s.buffer.take pos :: frames).filter (fun frame => decide (ValidFrame frame)) =
              s.buffer.take pos :: frames.filter fun frame => decide (ValidFrame frame) :=
          fun frames => List.filter_cons_of_pos (decide_eq_true hvalid)
        rw [hfilter, forEach, bind_run, parseFrame_of_valid decoder htext]
        dsimp only
        rw [hparse]
        rw [show ({ s with buffer := s.buffer.drop (pos + delimLen) } : StreamParser).core = s.core from rfl]
        cases hrun : parseSseFrameText decoder frameText s.core with
        | none => exact Or.inr ⟨rfl, rfl⟩
        | some r =>
          obtain ⟨⟨⟩, out, c⟩ := r
          have hlater : ∃ frame ∈ (cutFrames fuel (s.buffer.drop (pos + delimLen))).1,
              ¬ ValidFrame frame := by
            obtain ⟨frame, hframe, hbad⟩ := h
            rcases List.mem_cons.mp hframe with rfl | hframe
            · exact absurd hvalid hbad
            · exact ⟨frame, hframe, hbad⟩
          have hrest : (∃ s', processFrames decoder fuel (frames ++ out)
                (c.withFraming { s with buffer := s.buffer.drop (pos + delimLen) }) =
                  some (.error .notUtf8, s')) ∨ _ := ih hlater
          rw [core_withFraming, hparse.core_eq hrun] at hrest
          rcases hrest with herror | ⟨hnone, hforEach⟩
          · exact Or.inl herror
          refine Or.inr ⟨hnone, ?_⟩
          dsimp only
          rw [show forEach ((cutFrames fuel (s.buffer.drop (pos + delimLen))).1.filter fun frame =>
            decide (ValidFrame frame)) (parseFrame decoder) c = none from hforEach]
          rfl

/-- A chunk with a bad frame fails, or both panic. -/
theorem process_bad {chunk : List UInt8} {s : StreamParser} (h : HasBadFrame chunk s) :
    (∃ s', process decoder chunk s = some (.error .notUtf8, s')) ∨
      process decoder chunk s = none ∧ processWellFormed decoder chunk s = none := by
  obtain ⟨hfits, hbad⟩ := h
  rw [process_of_fits decoder hfits, processWellFormed, if_neg hfits]
  rcases processFrames_bad decoder hbad with herror | ⟨hnone, hforEach⟩
  · exact Or.inl herror
  · refine Or.inr ⟨hnone, ?_⟩
    rw [show forEach ((cutChunk chunk s).1.filter ValidFrame) (parseFrame decoder)
      (receive chunk s).core = none from hforEach]
    rfl

end StreamParser

/-! ### The streams -/

open StreamParser

variable (decoder : SseDecoder)

/-- The stream from the chunk of the first bad frame on, with the parser there.  Nothing is read behind
the end of the stream. -/
def fromBadFrame : Upstream → StreamParser → Option (Upstream × StreamParser)
  | [], _ => none
  | .error _ :: _, _ => none
  | .ok chunk :: upstream, parser =>
    if chunk.isEmpty then fromBadFrame upstream parser
    else if HasBadFrame chunk parser then some (.ok chunk :: upstream, parser)
    else
      match processWellFormed decoder chunk parser with
      | some (.ok _, parser) =>
        if parser.protocolStreamTerminated then none else fromBadFrame upstream parser
      | _ => none

/-- The consumer sees the envelopes of the well-formed frames that are read, each once and in order, and
behind them what `finish` adds. -/
def NeighboursKept (upstream : Upstream) (parser : StreamParser) : Prop :=
  ∃ stop, Unfolds (SignalStreamState.nextStreamItem decoder) { upstream, parser }
    ((delivered decoder (processWellFormed decoder) upstream parser).frames ++
      (delivered decoder (process decoder) upstream parser).last) stop

theorem neighboursKept_iff_delivered (upstream : Upstream) (parser : StreamParser) :
    NeighboursKept decoder upstream parser ↔
      (delivered decoder (process decoder) upstream parser).frames =
        (delivered decoder (processWellFormed decoder) upstream parser).frames := by
  constructor
  · intro h
    obtain ⟨stop, hseen⟩ := h
    exact (List.append_cancel_right (unfolds_iff.mp hseen).1).symm
  · intro h
    refine ⟨(delivered decoder (process decoder) upstream parser).stop, unfolds_iff.mpr ⟨?_, rfl⟩⟩
    rw [h]

/-- From the chunk of a bad frame on the consumer sees nothing. -/
theorem deliverChunk_bad {chunk : List UInt8} {parser : StreamParser} (h : HasBadFrame chunk parser)
    (rest : StreamParser → Delivery) : (deliverChunk decoder rest (process decoder chunk parser)).frames = [] := by
  rcases process_bad decoder h with ⟨parser', herror⟩ | ⟨hpanic, -⟩
  · rw [herror]
    rfl
  · rw [hpanic]
    rfl

theorem delivered_eq_iff (upstream : Upstream) (parser : StreamParser) :
    (delivered decoder (process decoder) upstream parser).frames =
        (delivered decoder (processWellFormed decoder) upstream parser).frames ↔
      ∀ rest parser', fromBadFrame decoder upstream parser = some (rest, parser') →
        (delivered decoder (processWellFormed decoder) rest parser').frames = [] := by
  have hnothing : ∀ φ : Upstream → StreamParser → Prop,
      ∀ rest parser', (none : Option (Upstream × StreamParser)) = some (rest, parser') →
        φ rest parser' := by
    intro φ rest parser' hnone
    cases hnone
  induction upstream generalizing parser with
  | nil => exact iff_of_true rfl (hnothing _)
  | cons item upstream ih =>
    cases item with
    | error message => exact iff_of_true rfl (hnothing _)
    | ok chunk =>
      rw [fromBadFrame]
      by_cases hempty : chunk.isEmpty = true
      · simp only [delivered, if_pos hempty]
        exact ih parser
      rw [if_neg hempty]
      by_cases hbad : HasBadFrame chunk parser
      · have hnone : (delivered decoder (process decoder) (.ok chunk :: upstream) parser).frames = [] := by
          rw [delivered, if_neg hempty]
          exact deliverChunk_bad decoder hbad _
        rw [if_pos hbad, hnone]
        constructor
        · intro h rest parser' hfrom
          obtain ⟨rfl, rfl⟩ := by simpa using hfrom
          exact h.symm
        · intro h
          exact (h _ _ rfl).symm
      · rw [if_neg hbad]
        simp only [delivered, if_neg hempty]
        rw [process_eq_wellFormed decoder hbad]
        cases hprocess : processWellFormed decoder chunk parser with
        | none =>
          exact iff_of_true rfl (hnothing _)
        | some r =>
          obtain ⟨result, parser'⟩ := r
          cases result with
          | error error =>
            exact iff_of_true rfl (hnothing _)
          | ok out =>
            dsimp only [deliverChunk]
            split
            · exact iff_of_true rfl (hnothing _)
            · rw [List.append_cancel_left_eq]
              exact ih parser'

/-- **Neighbours of a bad frame** are kept exactly if there are none that make envelopes: from the chunk
of the first bad frame on. -/
theorem neighbours_kept_iff (upstream : Upstream) (taskCounter : ℕ) :
    NeighboursKept decoder upstream { nextStreamTaskId := taskCounter } ↔
      ∀ rest parser, fromBadFrame decoder upstream { nextStreamTaskId := taskCounter } =
          some (rest, parser) →
        (delivered decoder (processWellFormed decoder) rest parser).frames = [] := by
  rw [neighboursKept_iff_delivered]
  exact delivered_eq_iff decoder upstream { nextStreamTaskId := taskCounter }

/-- Three frames in one chunk, of which the one in the middle is not UTF-8. -/
def badChunk : List UInt8 :=
  [100, 97, 116, 97, 58, 120, 10, 10, 0xFF, 10, 10, 100, 97, 116, 97, 58, 120, 10, 10]

/-- **What a bad frame takes with it**: the well-formed frames on both sides of it make envelopes, and the
consumer sees none of them. -/
theorem bad_frame_loses_neighbours :
    ¬ NeighboursKept sampleDecoder [.ok badChunk] { nextStreamTaskId := 1 } := by
  rw [neighboursKept_iff_delivered]
  decide +kernel

end Vexcoder.Stream
