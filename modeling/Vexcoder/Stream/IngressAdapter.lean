import Vexcoder.Handoff.ProtocolIngress

/-!
# The stream parser and its adapter

`StreamParser` sends what it decodes through one envelope normaliser, which it makes at the first
payload or error (`withAdapter`).  Runtime envelopes that arrive ready-made are passed through; the
two modes exclude each other.  The counter of stream tasks, a static of the program, is a field.
-/

namespace Vexcoder.Stream

open Base Lib Lib.Emitter Vexcoder.Runtime Handoff

inductive StreamOutputMode where
  | undecided
  | runtimeEnvelope
  | protocolAdapter
  deriving DecidableEq

structure StreamParser where
  buffer : List UInt8 := []
  bomChecked : Bool := false
  overflowed : Bool := false
  lastFrameId : Option String := none
  reconnectDelayMs : Option ℕ := none
  outputMode : StreamOutputMode := .undecided
  protocolAdapter : Option RuntimeEnvelopeNormalizer := none
  nextStreamTaskId : ℕ := 1

inductive IngressPayload where
  | provider (item : ProviderStreamItem)
  | chatCompat (payload : ChatCompatPayload)

abbrev Parse := Emitter StreamParser RuntimeEnvelope

namespace StreamParser

variable (ingress : Ingress)

def nextTaskId (s : StreamParser) : String := "api_stream_" ++ toString s.nextStreamTaskId

def countTask (s : StreamParser) : StreamParser :=
  { s with nextStreamTaskId := (s.nextStreamTaskId + 1) % 2 ^ 64 }

/-- Run `x` on a normaliser that is thrown away afterwards. -/
def withFreshNormalizer {α : Type} (x : Emit α) : Parse α := fun s =>
  match x { taskId := s.nextTaskId } with
  | none => none
  | some (a, out, _) => some (a, out, s.countTask)

/-- `protocol_adapter_mut`: run `x` on the parser's normaliser, made now if there is none. -/
def withAdapter {α : Type} (x : Emit α) : Parse α := fun s =>
  match s.protocolAdapter with
  | some normalizer =>
    match x normalizer with
    | none => none
    | some (a, out, normalizer') => some (a, out, { s with protocolAdapter := some normalizer' })
  | none =>
    match x { taskId := s.nextTaskId } with
    | none => none
    | some (a, out, normalizer') =>
      some (a, out, { s.countTask with protocolAdapter := some normalizer' })

def finish : Parse Unit := do
  let s ← read
  if s.outputMode = .protocolAdapter then
    withAdapter (RuntimeEnvelopeNormalizer.finishProtocolIngressTurn ingress)
  else pure ()

def protocolStreamErrorEnvelope (code message : String) : Parse RuntimeEnvelope := do
  let s ← read
  if s.outputMode = .runtimeEnvelope then
    withFreshNormalizer do
      let _ ← RuntimeEnvelopeNormalizer.startPulse ingress.toHost 1 none
      RuntimeEnvelopeNormalizer.emitSignal ingress.toHost (.error code message true)
  else do
    modify fun s => { s with outputMode := .protocolAdapter }
    withAdapter (RuntimeEnvelopeNormalizer.emitProtocolIngressError ingress code message)

def adaptPayload (payload : IngressPayload) : Emit Unit :=
  match payload with
  | .provider item => RuntimeEnvelopeNormalizer.normalizeProviderStreamItem ingress item
  | .chatCompat payload => RuntimeEnvelopeNormalizer.normalizeChatCompatPayload ingress payload

def adaptProtocolPayload (payload : IngressPayload) : Parse Unit := do
  let s ← read
  if s.outputMode = .runtimeEnvelope then do
    emit (← protocolStreamErrorEnvelope ingress "mixed_sse_protocol"
      "received provider or chat-compatible stream data after RuntimeEnvelope passthrough began")
  else do
    modify fun s => { s with outputMode := .protocolAdapter }
    withAdapter (adaptPayload ingress payload)

def enterRuntimeEnvelopeMode (envelope : RuntimeEnvelope) : Parse Unit := do
  let s ← read
  if s.outputMode = .protocolAdapter then do
    emit (← protocolStreamErrorEnvelope ingress "mixed_sse_protocol"
      "received RuntimeEnvelope passthrough after provider or chat-compatible adaptation began")
  else do
    modify fun s => { s with outputMode := .runtimeEnvelope }
    emit envelope

def protocolStreamTerminated (s : StreamParser) : Bool :=
  s.protocolAdapter.any RuntimeEnvelopeNormalizer.protocolStreamTerminated

end StreamParser

end Vexcoder.Stream
