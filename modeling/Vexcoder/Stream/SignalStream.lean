import Vexcoder.Lib.TryUnfold
import Vexcoder.Stream.SseChunks

/-!
# The stream of envelopes that the consumer reads

`next_stream_item` takes envelopes from a queue and reads the next chunk when that is empty; the stream
is made of it by `try_unfold`, so that it ends at the first error.  A frame that is not UTF-8 is such an
error.  To compare, the stream in which the well-formed frames of each chunk are handled and the others
passed over.
-/

namespace Vexcoder.Stream

open Base Lib Lib.Emitter Vexcoder.Runtime Handoff
open Vexcoder.Stream.FrameSplit

inductive SignalStreamError where
  | transport (message : String)
  | frame (error : StreamParser.FrameError)

abbrev Upstream := List (Except String (List UInt8))

structure SignalStreamState where
  upstream : Upstream
  parser : StreamParser
  pending : List RuntimeEnvelope := []
  terminalOutcome : Option String := none

namespace SignalStreamState

/-- What `next_stream_item` returns, and the state behind it. -/
abbrev Next := Option (Except SignalStreamError (Option RuntimeEnvelope) × SignalStreamState)

variable (decoder : SseDecoder)

/-- `finish_stream`, with what `finish` adds to the queue. -/
def finishStream (s : SignalStreamState) (outcome : String) : Next :=
  match StreamParser.finish decoder.toIngress s.parser with
  | none => none
  | some (_, out, parser) =>
    let s := { s with parser, terminalOutcome := some outcome }
    match s.pending ++ out with
    | envelope :: pending => some (.ok (some envelope), { s with pending })
    | [] => some (.ok none, { s with pending := [] })

/-- The head of the loop: an envelope that is waiting, or the end that is known, or `rest`. -/
def pendingOr (s : SignalStreamState) (rest : Next) : Next :=
  match s.pending with
  | envelope :: pending => some (.ok (some envelope), { s with pending })
  | [] => if s.terminalOutcome.isSome then some (.ok none, s) else rest

variable (process : List UInt8 → StreamParser → StreamParser.Processed)

/-- The loop of `next_stream_item`, along the upstream. -/
def nextItemFrom : Upstream → SignalStreamState → Next
  | [], s => s.pendingOr (s.finishStream decoder "stream_closed")
  | .error message :: upstream, s =>
    s.pendingOr (some (.error (.transport message), { s with upstream }))
  | .ok chunk :: upstream, s => s.pendingOr <|
    if chunk.isEmpty then nextItemFrom upstream { s with upstream }
    else
      match process chunk s.parser with
      | none => none
      | some (.error error, parser) => some (.error (.frame error), { s with upstream, parser })
      | some (.ok parsed, parser) =>
        let s := { s with upstream, parser, pending := s.pending ++ parsed }
        if parser.protocolStreamTerminated then
          match StreamParser.finish decoder.toIngress parser with
          | none => none
          | some (_, out, parser) => nextItemFrom upstream
            { s with parser, pending := s.pending ++ out, terminalOutcome := some "protocol_done" }
        else nextItemFrom upstream s

def nextItem (s : SignalStreamState) : Next := nextItemFrom decoder process s.upstream s

def nextStreamItem : SignalStreamState → Next := nextItem decoder (StreamParser.process decoder)

end SignalStreamState

/-! ### What the stream delivers -/

section Delivered

open SignalStreamState

variable (decoder : SseDecoder) (process : List UInt8 → StreamParser → StreamParser.Processed)

structure Delivery where
  /-- The envelopes of the frames. -/
  frames : List RuntimeEnvelope := []
  /-- What `finish` adds behind them. -/
  last : List RuntimeEnvelope := []
  stop : StreamEnd SignalStreamError

def deliverEnd (out : List RuntimeEnvelope) (parser : StreamParser) : Delivery :=
  match StreamParser.finish decoder.toIngress parser with
  | none => { stop := .panicked }
  | some (_, last, _) => { frames := out, last, stop := .done }

def deliverChunk (rest : StreamParser → Delivery) : StreamParser.Processed → Delivery
  | none => { stop := .panicked }
  | some (.error error, _) => { stop := .failed (.frame error) }
  | some (.ok out, parser) =>
    if parser.protocolStreamTerminated then deliverEnd decoder out parser
    else { rest parser with frames := out ++ (rest parser).frames }

def delivered : Upstream → StreamParser → Delivery
  | [], parser => deliverEnd decoder [] parser
  | .error message :: _, _ => { stop := .failed (.transport message) }
  | .ok chunk :: upstream, parser =>
    if chunk.isEmpty then delivered upstream parser
    else deliverChunk decoder (delivered upstream) (process chunk parser)

variable {decoder process}

theorem pendingOr_nil {s : SignalStreamState} (hpending : s.pending = [])
    (hopen : s.terminalOutcome = none) (rest : Next) : s.pendingOr rest = rest := by
  rw [pendingOr, hpending, hopen]
  rfl

theorem nextItem_cons {s : SignalStreamState} {envelope : RuntimeEnvelope}
    {pending : List RuntimeEnvelope} (h : s.pending = envelope :: pending) :
    nextItem decoder process s = some (.ok (some envelope), { s with pending }) := by
  unfold nextItem nextItemFrom
  split <;> rw [pendingOr, h]

theorem unfolds_closed {s : SignalStreamState} (hclosed : s.terminalOutcome.isSome = true) :
    Unfolds (nextItem decoder process) s s.pending .done := by
  have hend : nextItem decoder process { s with pending := [] } =
      some (.ok none, { s with pending := [] }) := by
    unfold nextItem nextItemFrom
    split <;> rw [pendingOr, if_pos hclosed]
  have hpop := Unfolds.append (fun pending => { s with pending }) (fun _ _ => nextItem_cons rfl)
    s.pending (Unfolds.done hend)
  rw [List.append_nil] at hpop
  exact hpop

theorem unfolds_pending {s : SignalStreamState} {out : List RuntimeEnvelope}
    {stop : StreamEnd SignalStreamError}
    (h : Unfolds (nextItem decoder process) { s with pending := [] } out stop) :
    Unfolds (nextItem decoder process) s (s.pending ++ out) stop :=
  Unfolds.append (fun pending => { s with pending }) (fun _ _ => nextItem_cons rfl) s.pending h

/-- **The stream**: what `next_stream_item` gives one by one is what the chunks deliver. -/
theorem unfolds_delivered (upstream : Upstream) (parser : StreamParser) :
    Unfolds (nextItem decoder process) { upstream, parser }
      ((delivered decoder process upstream parser).frames ++ (delivered decoder process upstream parser).last)
      (delivered decoder process upstream parser).stop := by
  induction upstream generalizing parser with
  | nil =>
    unfold delivered deliverEnd
    cases hfinish : StreamParser.finish decoder.toIngress parser with
    | none => exact .panicked (by simp [nextItem, nextItemFrom, pendingOr, finishStream, hfinish])
    | some r =>
      obtain ⟨⟨⟩, out, parser'⟩ := r
      cases out with
      | nil =>
        have hnext : nextItem decoder process { upstream := [], parser } = some (.ok none, {
            upstream := [], parser := parser', terminalOutcome := some "stream_closed" }) := by
          simp [nextItem, nextItemFrom, pendingOr, finishStream, hfinish]
        exact .done hnext
      | cons envelope out =>
        have hnext : nextItem decoder process { upstream := [], parser } = some (.ok (some envelope), {
            upstream := [], parser := parser', pending := out
            terminalOutcome := some "stream_closed" }) := by
          simp [nextItem, nextItemFrom, pendingOr, finishStream, hfinish]
        exact .item hnext (unfolds_closed rfl)
  | cons item upstream ih =>
    cases item with
    | error message =>
      have hnext : nextItem decoder process { upstream := .error message :: upstream, parser } =
          some (.error (.transport message), { upstream, parser }) := by
        simp [nextItem, nextItemFrom, pendingOr]
      exact .failed hnext
    | ok chunk =>
      have hhead : nextItem decoder process { upstream := .ok chunk :: upstream, parser } =
          if chunk.isEmpty then nextItemFrom decoder process upstream { upstream, parser }
          else
            match process chunk parser with
            | none => none
            | some (.error error, parser) => some (.error (.frame error), { upstream, parser })
            | some (.ok parsed, parser) =>
              if parser.protocolStreamTerminated then
                match StreamParser.finish decoder.toIngress parser with
                | none => none
                | some (_, out, parser) => nextItemFrom decoder process upstream
                  { upstream, parser, pending := parsed ++ out, terminalOutcome := some "protocol_done" }
              else nextItemFrom decoder process upstream { upstream, parser, pending := parsed } := by
        rfl
      unfold delivered
      by_cases hempty : chunk.isEmpty = true
      · rw [if_pos hempty] at hhead
        rw [if_pos hempty]
        have hnext : nextItem decoder process { upstream := .ok chunk :: upstream, parser } =
            nextItem decoder process { upstream, parser } := hhead
        exact (ih parser).of_next_eq hnext
      rw [if_neg hempty] at hhead
      rw [if_neg hempty, deliverChunk.eq_def]
      cases hprocess : process chunk parser with
      | none =>
        rw [hprocess] at hhead
        exact .panicked hhead
      | some r =>
        obtain ⟨result, parser'⟩ := r
        rw [hprocess] at hhead
        cases result with
        | error error => exact .failed hhead
        | ok out =>
          dsimp only at hhead ⊢
          split
          · rename_i hterminated
            rw [if_pos hterminated] at hhead
            unfold deliverEnd
            cases hfinish : StreamParser.finish decoder.toIngress parser' with
            | none =>
              rw [hfinish] at hhead
              exact .panicked hhead
            | some r =>
              obtain ⟨⟨⟩, rest, parser''⟩ := r
              rw [hfinish] at hhead
              have hnext : nextItem decoder process { upstream := .ok chunk :: upstream, parser } =
                  nextItem decoder process {
                    upstream, parser := parser'', pending := out ++ rest
                    terminalOutcome := some "protocol_done" } := hhead
              exact (unfolds_closed rfl).of_next_eq hnext
          · rename_i hopen
            rw [if_neg hopen] at hhead
            have hnext : nextItem decoder process { upstream := .ok chunk :: upstream, parser } =
                nextItem decoder process { upstream, parser := parser', pending := out } := hhead
            have hrest := unfolds_pending (s := { upstream, parser := parser', pending := out }) (ih parser')
            rw [← List.append_assoc] at hrest
            exact hrest.of_next_eq hnext

theorem unfolds_iff {upstream : Upstream} {parser : StreamParser} {out : List RuntimeEnvelope}
    {stop : StreamEnd SignalStreamError} :
    Unfolds (nextItem decoder process) { upstream, parser } out stop ↔
      out = (delivered decoder process upstream parser).frames ++
        (delivered decoder process upstream parser).last ∧
      stop = (delivered decoder process upstream parser).stop := by
  have hdelivered : Unfolds (nextItem decoder process) { upstream, parser } _ _ :=
    unfolds_delivered upstream parser
  constructor
  · exact hdelivered.unique
  · intro h
    rw [h.1, h.2]
    exact hdelivered

end Delivered

end Vexcoder.Stream
