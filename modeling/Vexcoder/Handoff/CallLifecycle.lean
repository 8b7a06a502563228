import Mathlib.Data.List.Perm.Subperm
import Vexcoder.Handoff.BlockStart
import Vexcoder.Handoff.Reports

/-!
# The lifecycle of the calls of a pulse

The updates of a pulse are given to a normaliser one by one, and each envelope that it emits is seen
with the update it is emitted for.  `Lifecycle` is what these envelopes say about the calls: those
that were started and not yet resolved, and the files that the successful ones have changed.  It
accepts an envelope that resolves a call when it carries the id and the frame of an unresolved one,
and a `PulseEnd` when its files are those of the successful calls.

Two things are by design.  A result under an id that no call is open under is passed on under that
id, without a parent frame.  And a caller may give the files of a `PulseEnd` itself.

## Main result

* `sendPulse_lifecycle`: the envelopes of a pulse are accepted, whatever the updates.
-/

namespace Vexcoder.Handoff.CallLifecycle

open Base Lib Lib.Emitter Vexcoder.Runtime
open Lib.Assoc (keys find? erase insertLast insertElem)
open RuntimeEnvelopeNormalizer

/-! ### Pulses -/

/-- An envelope, with the update that it is emitted for. -/
structure Sent where
  update : UiUpdate
  turnEnd : Option PulseEndContext
  envelope : RuntimeEnvelope

def sendUpdate (host : Host) (update : UiUpdate × Option PulseEndContext) :
    Emitter RuntimeEnvelopeNormalizer Sent Unit :=
  zoom id (fun s _ => s) (Sent.mk update.1 update.2) (normalizeUiUpdate host update.1 update.2)

/-- A pulse: `start_pulse`, which returns its envelope, and the updates. -/
def sendPulse (host : Host) (pulse : ℕ) (input : Option String)
    (updates : List (UiUpdate × Option PulseEndContext)) :
    Emitter RuntimeEnvelopeNormalizer Sent Unit := do
  let _ ← zoom id (fun s _ => s) (Sent.mk .unreported none) (startPulse host pulse input)
  forEach updates (sendUpdate host)

/-! ### What the envelopes say about the calls -/

/-- A call that was started, with the arguments that are known of it. -/
structure StartedCall where
  id : String
  frame : String
  name : String
  arguments : Value
  deriving DecidableEq

/-- What the envelope that resolves a call carries. -/
def StartedCall.key (call : StartedCall) : String × String := (call.id, call.frame)

def StartedCall.learn (toolCallId : String) (arguments : Value) (call : StartedCall) : StartedCall :=
  if call.id = toolCallId then { call with arguments } else call

def withFilesOf (name : String) (arguments : Value) (files : List String) : List String :=
  (changedFilesOfToolCall name arguments).foldl (fun files path => insertElem path files) files

/-- The files of a `PulseEnd`: those that the caller gives, or else those of the pulse. -/
def reportedFiles (turnEnd : Option PulseEndContext) (changedFiles : List String) : List String :=
  if (turnEnd.getD {}).changedFiles.isEmpty then changedFiles else (turnEnd.getD {}).changedFiles

structure Lifecycle where
  /-- The ids under which the updates have a call open. -/
  openIds : List String := []
  unresolved : List StartedCall := []
  /-- How many calls were started. -/
  started : ℕ := 0
  changedFiles : List String := []

namespace Lifecycle

def resolve (l : Lifecycle) (sent : Sent) (toolCallId : String) (failed : Bool) :
    Option Lifecycle :=
  match sent.update with
  | .streamBlockStart _ (.toolResult providerId _ isError) =>
    if isError ≠ failed then none
    else if providerId ∈ l.openIds then
      (l.unresolved.find? fun call =>
        call.id = toolCallId ∧ sent.envelope.parentFrameId = some call.frame).map fun call =>
          { l with
            openIds := l.openIds.filter (· ≠ providerId)
            unresolved := l.unresolved.erase call
            changedFiles :=
              if failed then l.changedFiles
              else withFilesOf call.name call.arguments l.changedFiles }
    else if toolCallId = providerId ∧ sent.envelope.parentFrameId = none then some l
    else none
  | _ => none

/-- The monitor of the calls.  The ids are numbered from `first` on, by a counter of 32 bits; when it
has wrapped, two open calls may have one id, and the files of a `PulseEnd` are not checked. -/
def step (first : ℕ) (l : Lifecycle) (sent : Sent) : Option Lifecycle :=
  match sent.envelope.signal with
  | .toolCallStarted toolCallId toolName arguments .. =>
    match sent.update with
    | .streamBlockStart _ (.toolCall providerId ..) =>
      some { l with
        openIds := providerId :: l.openIds
        unresolved := l.unresolved ++ [⟨toolCallId, sent.envelope.frameId, toolName, arguments⟩]
        started := l.started + 1 }
    | _ => none
  | .toolCallArgumentsDelta toolCallId _ _ _ (some arguments) _ =>
    some { l with unresolved := l.unresolved.map (StartedCall.learn toolCallId arguments) }
  | .toolCallCompleted toolCallId .. => l.resolve sent toolCallId false
  | .toolCallFailed toolCallId .. => l.resolve sent toolCallId true
  | .pulseEnd _ _ changedFiles =>
    if first + l.started < 2 ^ 32 → changedFiles = reportedFiles sent.turnEnd l.changedFiles then
      some { l with openIds := [] }
    else none
  | _ => some l

end Lifecycle

/-! ### Ids -/

def callIdOf (n : ℕ) (entropy : String) : String := "tx_" ++ toString (n + 1) ++ "_" ++ entropy

variable {entropy providerId toolCallId : String} {first : ℕ} {s s' : RuntimeEnvelopeNormalizer}
  {l : Lifecycle} {pendingToolCalls : List (String × PendingToolCall)} {pending : PendingToolCall}

theorem callIdOf_number {m n : ℕ} {entropy' : String} (h : callIdOf m entropy = callIdOf n entropy') :
    m = n := by
  have hdigits (k : ℕ) : ∀ c ∈ Nat.toDigits 10 k, c.isDigit = true := fun c hc =>
    Nat.isDigit_of_mem_toDigits (by decide) (by decide) hc
  have hlist (k : ℕ) (e : String) :
      (callIdOf k e).toList = "tx_".toList ++ (Nat.toDigits 10 (k + 1) ++ '_' :: e.toList) := by
    simp [callIdOf, Nat.toString_eq_repr, Nat.toList_repr]
  have htake (k : ℕ) (e : String) :
      (Nat.toDigits 10 (k + 1) ++ '_' :: e.toList).takeWhile Char.isDigit = Nat.toDigits 10 (k + 1) := by
    rw [List.takeWhile_append_of_pos (hdigits (k + 1)),
      List.takeWhile_cons_of_neg (by decide : ¬ ('_').isDigit = true), List.append_nil]
  have hsame : Nat.toDigits 10 (m + 1) = Nat.toDigits 10 (n + 1) := by
    have htail := congrArg String.toList h
    rw [hlist, hlist] at htail
    rw [← htake m entropy, List.append_cancel_left htail, htake]
  have hnumber : m + 1 = n + 1 := by
    rw [← Nat.ofDigitChars_ten_toDigits (n := m + 1), hsame, Nat.ofDigitChars_ten_toDigits]
  omega

/-! ### The invariant -/

def callOf (pending : PendingToolCall) : StartedCall :=
  ⟨pending.runtimeId, pending.startFrameId, pending.name, pending.arguments⟩

def callsOf (pendingToolCalls : List (String × PendingToolCall)) : List StartedCall :=
  pendingToolCalls.map fun entry => callOf entry.2

theorem callsOf_cons (sourceId : String) (pending : PendingToolCall)
    (calls : List (String × PendingToolCall)) :
    callsOf ((sourceId, pending) :: calls) = callOf pending :: callsOf calls := rfl

/-- What holds as long as the counter of the ids has not wrapped. -/
structure Exact (first : ℕ) (s : RuntimeEnvelopeNormalizer) (l : Lifecycle) : Prop where
  counter : s.toolIdCounter = first + l.started
  known : ∀ call ∈ callsOf s.pendingToolCalls, call ∈ l.unresolved
  numbered : ∀ call ∈ l.unresolved, ∃ n entropy, n < first + l.started ∧ call.id = callIdOf n entropy
  distinct : (l.unresolved.map StartedCall.id).Nodup
  files : s.turnChangedFiles = l.changedFiles

/-- The normaliser keeps unresolved calls, under the ids that the updates have calls open under. -/
structure Tracks (first : ℕ) (s : RuntimeEnvelopeNormalizer) (l : Lifecycle) : Prop where
  nodup : (keys s.pendingToolCalls).Nodup
  opened : ∀ id, id ∈ l.openIds ↔ id ∈ keys s.pendingToolCalls
  kept : List.Subperm ((callsOf s.pendingToolCalls).map StartedCall.key) (l.unresolved.map StartedCall.key)
  exact : first + l.started < 2 ^ 32 → Exact first s l

def callPart (s : RuntimeEnvelopeNormalizer) : List (String × PendingToolCall) × List String × ℕ :=
  (s.pendingToolCalls, s.turnChangedFiles, s.toolIdCounter)

theorem Tracks.of_callPart (hs : callPart s' = callPart s) (h : Tracks first s l) :
    Tracks first s' l := by
  obtain ⟨hpending, hfiles, hcounter⟩ : s'.pendingToolCalls = s.pendingToolCalls ∧
      s'.turnChangedFiles = s.turnChangedFiles ∧ s'.toolIdCounter = s.toolIdCounter := by
    simpa [callPart] using hs
  refine ⟨?_, ?_, ?_, fun hroom => ?_⟩
  · rw [hpending]
    exact h.nodup
  · rw [hpending]
    exact h.opened
  · rw [hpending]
    exact h.kept
  · have hexact := h.exact hroom
    refine ⟨hcounter.trans hexact.counter, ?_, hexact.numbered, hexact.distinct, hfiles.trans hexact.files⟩
    rw [hpending]
    exact hexact.known

/-! ### Calls that start -/

theorem callsOf_insertLast (h : (keys pendingToolCalls).Nodup) (providerId : String)
    (pending : PendingToolCall) :
    (callsOf (insertLast providerId pending pendingToolCalls)).Perm
      (callOf pending :: callsOf (erase providerId pendingToolCalls)) :=
  (Assoc.insertLast_perm h providerId pending).map _

theorem callsOf_erase_sublist (providerId : String) (pendingToolCalls : List (String × PendingToolCall)) :
    (callsOf (erase providerId pendingToolCalls)).Sublist (callsOf pendingToolCalls) :=
  List.filter_sublist.map _

theorem Exact.fresh (h : Exact first s l) :
    callIdOf s.toolIdCounter entropy ∉ l.unresolved.map StartedCall.id := by
  intro hmem
  obtain ⟨call, hcall, heq⟩ := List.mem_map.mp hmem
  obtain ⟨n, entropy', hn, hid⟩ := h.numbered call hcall
  have hnumber := callIdOf_number (hid.symm.trans heq)
  have hcounter := h.counter
  omega

theorem Exact.start (h : Exact first s l) (hnodup : (keys s.pendingToolCalls).Nodup)
    (hroom : first + (l.started + 1) < 2 ^ 32)
    (hpending : s'.pendingToolCalls = insertLast providerId pending s.pendingToolCalls)
    (hfiles : s'.turnChangedFiles = s.turnChangedFiles)
    (hcounter : s'.toolIdCounter = (s.toolIdCounter + 1) % 2 ^ 32)
    (hid : pending.runtimeId = callIdOf s.toolIdCounter entropy) (openIds : List String) :
    Exact first s' { l with
      openIds, unresolved := l.unresolved ++ [callOf pending], started := l.started + 1 } := by
  have hold := h.counter
  refine ⟨?_, ?_, ?_, ?_, hfiles.trans h.files⟩
  · rw [hcounter, hold, Nat.mod_eq_of_lt (by omega)]
    exact Nat.add_assoc _ _ _
  · intro call hcall
    rw [hpending] at hcall
    rcases List.mem_cons.mp ((callsOf_insertLast hnodup providerId pending).mem_iff.mp hcall) with
      rfl | hcall
    · exact List.mem_append_right _ List.mem_cons_self
    · exact List.mem_append_left _ (h.known call ((callsOf_erase_sublist _ _).subset hcall))
  · intro call hcall
    rcases List.mem_append.mp hcall with hcall | hcall
    · obtain ⟨n, entropy', hn, heq⟩ := h.numbered call hcall
      exact ⟨n, entropy', by show n < first + (l.started + 1); omega, heq⟩
    · rw [List.mem_singleton.mp hcall]
      exact ⟨s.toolIdCounter, entropy, by show _ < first + (l.started + 1); omega, hid⟩
  · show ((l.unresolved ++ [callOf pending]).map StartedCall.id).Nodup
    rw [List.map_append]
    apply List.Nodup.append h.distinct (List.nodup_singleton _)
    intro id hmem hnew
    rw [List.mem_singleton.mp hnew] at hmem
    have hcall : (callOf pending).id = callIdOf s.toolIdCounter entropy := hid
    rw [hcall] at hmem
    exact h.fresh hmem

theorem Tracks.start (h : Tracks first s l)
    (hpending : s'.pendingToolCalls = insertLast providerId pending s.pendingToolCalls)
    (hfiles : s'.turnChangedFiles = s.turnChangedFiles)
    (hcounter : s'.toolIdCounter = (s.toolIdCounter + 1) % 2 ^ 32)
    (hid : s.toolIdCounter + 1 < 2 ^ 32 → ∃ entropy, pending.runtimeId = callIdOf s.toolIdCounter entropy) :
    Tracks first s' { l with
      openIds := providerId :: l.openIds
      unresolved := l.unresolved ++ [callOf pending]
      started := l.started + 1 } := by
  refine ⟨?_, ?_, ?_, fun hroom => ?_⟩
  · rw [hpending]
    exact Assoc.nodup_keys_insertLast h.nodup providerId pending
  · intro id
    rw [hpending, Assoc.mem_keys_iff_find?, Assoc.find?_insertLast, List.mem_cons, h.opened,
      Assoc.mem_keys_iff_find?]
    by_cases heq : id = providerId <;> simp [heq]
  · have hrest : List.Subperm ((callsOf (erase providerId s.pendingToolCalls)).map StartedCall.key)
        (l.unresolved.map StartedCall.key) :=
      ((callsOf_erase_sublist providerId s.pendingToolCalls).map _).subperm.trans h.kept
    have hnew := (callsOf_insertLast h.nodup providerId pending).map StartedCall.key
    rw [hpending, List.map_append]
    refine hnew.subperm.trans ?_
    exact ((List.subperm_cons _).mpr hrest).trans (List.perm_append_singleton _ _).symm.subperm
  · have hroom : first + (l.started + 1) < 2 ^ 32 := hroom
    have hexact := h.exact (by omega)
    have hcount := hexact.counter
    obtain ⟨entropy, hid⟩ := hid (by omega)
    exact hexact.start h.nodup hroom hpending hfiles hcounter hid _

/-! ### Calls that are resolved -/

theorem callsOf_of_find? (h : (keys pendingToolCalls).Nodup)
    (hfind : find? providerId pendingToolCalls = some pending) :
    (callsOf pendingToolCalls).Perm (callOf pending :: callsOf (erase providerId pendingToolCalls)) :=
  (Assoc.perm_of_find? h hfind).map _

theorem Tracks.nodup_ids (h : Tracks first s l) (hroom : first + l.started < 2 ^ 32) :
    ((callsOf s.pendingToolCalls).map StartedCall.id).Nodup := by
  obtain ⟨keys, hperm, hsublist⟩ := h.kept
  have hids := (hperm.map Prod.fst).nodup_iff
  rw [List.map_map] at hids
  apply hids.mp
  have hunresolved := hsublist.map Prod.fst
  rw [List.map_map] at hunresolved
  exact hunresolved.nodup (h.exact hroom).distinct

theorem Tracks.find_unresolved (h : Tracks first s l)
    (hfind : find? providerId s.pendingToolCalls = some pending) :
    ∃ call ∈ l.unresolved, call.key = (callOf pending).key ∧
      l.unresolved.find? (fun call =>
        call.id = pending.runtimeId ∧ some pending.startFrameId = some call.frame) = some call := by
  have hmem : (callOf pending).key ∈ l.unresolved.map StartedCall.key := by
    apply h.kept.subset
    apply List.mem_map_of_mem
    exact (callsOf_of_find? h.nodup hfind).mem_iff.mpr List.mem_cons_self
  obtain ⟨call, hcall, hkey⟩ := List.mem_map.mp hmem
  cases hfound : l.unresolved.find? (fun call =>
      call.id = pending.runtimeId ∧ some pending.startFrameId = some call.frame) with
  | none =>
    have hnot := List.find?_eq_none.mp hfound call hcall
    have hid : call.id = pending.runtimeId := congrArg Prod.fst hkey
    have hframe : call.frame = pending.startFrameId := congrArg Prod.snd hkey
    exact absurd (by simp [hid, hframe]) hnot
  | some found =>
    have hsame := List.find?_some hfound
    simp only [Option.some.injEq, decide_eq_true_eq] at hsame
    refine ⟨found, List.mem_of_find?_eq_some hfound, ?_, rfl⟩
    exact Prod.ext hsame.1 hsame.2.symm

theorem Tracks.resolve (h : Tracks first s l) (hfind : find? providerId s.pendingToolCalls = some pending)
    {failed : Bool} (hpending : s'.pendingToolCalls = erase providerId s.pendingToolCalls)
    (hfiles : s'.turnChangedFiles =
      if failed then s.turnChangedFiles
      else withFilesOf pending.name pending.arguments s.turnChangedFiles)
    (hcounter : s'.toolIdCounter = s.toolIdCounter) {call : StartedCall}
    (hcall : call ∈ l.unresolved) (hkey : call.key = (callOf pending).key) :
    Tracks first s' { l with
      openIds := l.openIds.filter (· ≠ providerId)
      unresolved := l.unresolved.erase call
      changedFiles :=
        if failed then l.changedFiles else withFilesOf call.name call.arguments l.changedFiles } := by
  have hperm := callsOf_of_find? h.nodup hfind
  refine ⟨?_, ?_, ?_, fun hroom => ?_⟩
  · rw [hpending]
    exact Assoc.nodup_keys_erase h.nodup providerId
  · intro id
    rw [hpending, Assoc.mem_keys_erase, ← h.opened]
    simp [and_comm]
  · have hall : List.Subperm
        ((callOf pending).key :: (callsOf (erase providerId s.pendingToolCalls)).map StartedCall.key)
        (call.key :: (l.unresolved.erase call).map StartedCall.key) :=
      ((hperm.map StartedCall.key).symm.subperm.trans h.kept).trans
        ((List.perm_cons_erase hcall).map StartedCall.key).subperm
    rw [hpending]
    rw [hkey] at hall
    exact (List.subperm_cons _).mp hall
  · have hexact := h.exact hroom
    have hids : ((callOf pending).id ::
        (callsOf (erase providerId s.pendingToolCalls)).map StartedCall.id).Nodup :=
      ((hperm.map StartedCall.id).nodup_iff).mp (h.nodup_ids hroom)
    have hid : call.id = (callOf pending).id := congrArg Prod.fst hkey
    -- Distinct ids: the call that is resolved is the one the normaliser keeps.
    have hsame : call = callOf pending := by
      apply List.inj_on_of_nodup_map hexact.distinct hcall _ hid
      exact hexact.known _ (hperm.mem_iff.mpr List.mem_cons_self)
    refine ⟨hcounter.trans hexact.counter, ?_, ?_, ?_, ?_⟩
    · intro other hother
      rw [hpending] at hother
      have hne : other ≠ call := by
        intro heq
        apply (List.nodup_cons.mp hids).1
        rw [← hid, ← heq]
        exact List.mem_map_of_mem hother
      apply (List.mem_erase_of_ne hne).mpr
      exact hexact.known _ (hperm.mem_iff.mpr (List.mem_cons_of_mem _ hother))
    · intro other hother
      exact hexact.numbered other (List.mem_of_mem_erase hother)
    · exact (List.erase_sublist.map StartedCall.id).nodup hexact.distinct
    · rw [hfiles, hexact.files, hsame]
      rfl

/-! ### Arguments -/

theorem StartedCall.learn_key (toolCallId : String) (arguments : Value)
    (call : StartedCall) : (call.learn toolCallId arguments).key = call.key := by
  rw [learn]
  split <;> rfl

def learned (toolCallId : String) : Option Value → StartedCall → StartedCall
  | some arguments, call => call.learn toolCallId arguments
  | none, call => call

theorem learned_key (toolCallId : String) (arguments : Option Value) (call : StartedCall) :
    (learned toolCallId arguments call).key = call.key := by
  cases arguments with
  | none => rfl
  | some arguments => exact StartedCall.learn_key toolCallId arguments call

theorem learned_of_id_ne {call : StartedCall} (h : call.id ≠ toolCallId) (arguments : Option Value) :
    learned toolCallId arguments call = call := by
  cases arguments with
  | none => rfl
  | some arguments => exact if_neg h

variable (host : Host)

def parsedBehind (pending : PendingToolCall) (delta : List Char) : Option Value :=
  (host.codec.fromStr (pending.rawArguments ++ delta)).or
    (host.codec.fromStr (trim (pending.rawArguments ++ delta)))

theorem appendToPending_of_eq (h : pending.runtimeId = toolCallId) (delta : List Char)
    (sourceId : String) (calls : List (String × PendingToolCall)) :
    appendToPending host toolCallId delta ((sourceId, pending) :: calls) =
      ((sourceId, { pending with
        rawArguments := pending.rawArguments ++ delta
        arguments := (parsedBehind host pending delta).getD pending.arguments }) :: calls,
        parsedBehind host pending delta) := by
  simp only [appendToPending, if_pos h, parsedBehind]
  cases (host.codec.fromStr (pending.rawArguments ++ delta)).or
    (host.codec.fromStr (trim (pending.rawArguments ++ delta))) <;> rfl

theorem appendToPending_of_ne (h : pending.runtimeId ≠ toolCallId) (delta : List Char)
    (sourceId : String) (calls : List (String × PendingToolCall)) :
    appendToPending host toolCallId delta ((sourceId, pending) :: calls) =
      ((sourceId, pending) :: (appendToPending host toolCallId delta calls).1,
        (appendToPending host toolCallId delta calls).2) := by
  simp only [appendToPending, if_neg h]

theorem map_appendToPending {α : Type} {f : String × PendingToolCall → α}
    (hf : ∀ sourceId pending rawArguments arguments,
      f (sourceId, { pending with rawArguments, arguments }) = f (sourceId, pending))
    (toolCallId : String) (delta : List Char) (pendingToolCalls : List (String × PendingToolCall)) :
    (appendToPending host toolCallId delta pendingToolCalls).1.map f = pendingToolCalls.map f := by
  induction pendingToolCalls with
  | nil => rfl
  | cons entry calls ih =>
    obtain ⟨sourceId, pending⟩ := entry
    by_cases hid : pending.runtimeId = toolCallId
    · rw [appendToPending_of_eq host hid, List.map_cons, hf, List.map_cons]
    · rw [appendToPending_of_ne host hid, List.map_cons, ih, List.map_cons]

theorem callsOf_appendToPending (toolCallId : String) (delta : List Char)
    (h : ((callsOf pendingToolCalls).map StartedCall.id).Nodup) :
    callsOf (appendToPending host toolCallId delta pendingToolCalls).1 =
      (callsOf pendingToolCalls).map
        (learned toolCallId (appendToPending host toolCallId delta pendingToolCalls).2) := by
  induction pendingToolCalls with
  | nil => rfl
  | cons entry calls ih =>
    obtain ⟨sourceId, pending⟩ := entry
    obtain ⟨hfirst, hrest⟩ := List.nodup_cons.mp h
    by_cases hid : pending.runtimeId = toolCallId
    · have hothers : (callsOf calls).map (learned toolCallId (parsedBehind host pending delta)) =
          callsOf calls := by
        have hsame : ∀ call ∈ callsOf calls,
            learned toolCallId (parsedBehind host pending delta) call = call := by
          intro call hcall
          apply learned_of_id_ne
          intro heq
          apply hfirst
          have hpending : (callOf pending).id = toolCallId := hid
          show (callOf pending).id ∈ _
          rw [hpending, ← heq]
          exact List.mem_map_of_mem hcall
        rw [List.map_congr_left hsame, List.map_id']
      rw [appendToPending_of_eq host hid, callsOf_cons, callsOf_cons, List.map_cons, hothers]
      congr 1
      cases parsedBehind host pending delta with
      | none => rfl
      | some arguments => exact (if_pos hid).symm
    · rw [appendToPending_of_ne host hid, callsOf_cons, callsOf_cons, List.map_cons, ih hrest,
        learned_of_id_ne hid]

theorem Lifecycle.map_learned (l : Lifecycle) (toolCallId : String) (arguments : Option Value) :
    (l.unresolved.map (learned toolCallId arguments)).map StartedCall.key =
      l.unresolved.map StartedCall.key := by
  rw [List.map_map]
  exact List.map_congr_left fun call _ => learned_key toolCallId arguments call

theorem Tracks.learn (h : Tracks first s l) {delta : List Char} (hpending : s'.pendingToolCalls =
      (appendToPending host toolCallId delta s.pendingToolCalls).1)
    (hfiles : s'.turnChangedFiles = s.turnChangedFiles)
    (hcounter : s'.toolIdCounter = s.toolIdCounter) :
    Tracks first s' { l with
      unresolved := l.unresolved.map
        (learned toolCallId (appendToPending host toolCallId delta s.pendingToolCalls).2) } := by
  have hkeys : keys s'.pendingToolCalls = keys s.pendingToolCalls :=
    hpending ▸ map_appendToPending host (fun _ _ _ _ => rfl) toolCallId delta _
  refine ⟨?_, ?_, ?_, fun hroom => ?_⟩
  · rw [hkeys]
    exact h.nodup
  · intro id
    rw [hkeys]
    exact h.opened id
  · rw [hpending, callsOf, List.map_map, map_appendToPending host fun _ _ _ _ => rfl, ← List.map_map,
      l.map_learned]
    exact h.kept
  · have hexact := h.exact hroom
    refine ⟨hcounter.trans hexact.counter, ?_, ?_, ?_, hfiles.trans hexact.files⟩
    · intro call hcall
      rw [hpending, callsOf_appendToPending host toolCallId delta (h.nodup_ids hroom)] at hcall
      obtain ⟨old, hold, rfl⟩ := List.mem_map.mp hcall
      exact List.mem_map_of_mem (hexact.known old hold)
    · intro call hcall
      obtain ⟨old, hold, rfl⟩ := List.mem_map.mp hcall
      obtain ⟨n, entropy, hn, hid⟩ := hexact.numbered old hold
      exact ⟨n, entropy, hn, (congrArg Prod.fst (learned_key toolCallId _ old)).trans hid⟩
    · have hids : (l.unresolved.map (learned toolCallId
          (appendToPending host toolCallId delta s.pendingToolCalls).2)).map StartedCall.id =
            l.unresolved.map StartedCall.id := by
        rw [List.map_map]
        exact List.map_congr_left fun call _ => congrArg Prod.fst (learned_key toolCallId _ call)
      rw [hids]
      exact hexact.distinct

theorem Tracks.finish (h : Tracks first s l) (hpending : s'.pendingToolCalls = [])
    (hfiles : s'.turnChangedFiles = s.turnChangedFiles)
    (hcounter : s'.toolIdCounter = s.toolIdCounter) : Tracks first s' { l with openIds := [] } := by
  refine ⟨?_, ?_, ?_, fun hroom => ?_⟩
  · rw [hpending]
    exact List.nodup_nil
  · intro id
    rw [hpending]
    exact Iff.rfl
  · rw [hpending]
    exact List.nil_subperm
  · have hexact := h.exact hroom
    refine ⟨hcounter.trans hexact.counter, ?_, hexact.numbered, hexact.distinct, hfiles.trans hexact.files⟩
    rw [hpending]
    exact nofun

/-! ### The operations of the normaliser -/

def seen (first : ℕ) (update : UiUpdate) (turnEnd : Option PulseEndContext) (l : Lifecycle)
    (envelope : RuntimeEnvelope) : Option Lifecycle :=
  l.step first ⟨update, turnEnd, envelope⟩

/-- A signal that is not about a call and does not end a pulse. -/
def Silent (signal : RuntimeSignal) : Prop := isToolSignal signal = false ∧ isPulseEnd signal = false

theorem seen_of_silent {update : UiUpdate} {turnEnd : Option PulseEndContext}
    {envelope : RuntimeEnvelope} (h : Silent envelope.signal) :
    seen first update turnEnd l envelope = some l := by
  obtain ⟨htool, hend⟩ := h
  rw [seen, Lifecycle.step]
  cases hsignal : envelope.signal with
  | toolCallStarted toolCallId toolName arguments status startedAt
  | toolCallArgumentsDelta toolCallId toolName delta status arguments invalidJson
  | toolCallCompleted toolCallId toolName status startedAt completedAt durationMs output
  | toolCallFailed toolCallId toolName status startedAt completedAt durationMs output =>
    rw [hsignal] at htool
    cases htool
  | pulseEnd status usage changedFiles =>
    rw [hsignal] at hend
    cases hend
  | _ => rfl

theorem leaves_envelope {signal : RuntimeSignal} (h : Silent signal) (source : Option RuntimeEnvelopeSource) :
    Leaves callPart (fun envelope => Silent envelope.signal)
      (do emit (← nextEnvelopeWithSource host signal none none source) : Emit Unit) := by
  intro s a out s' hrun
  cases hrun
  refine ⟨rfl, ?_⟩
  intro envelope henvelope
  rw [List.mem_singleton.mp henvelope]
  exact h

theorem leaves_closeOpenFinalTextBlock :
    Leaves callPart (fun envelope => Silent envelope.signal) (closeOpenFinalTextBlock host) := by
  refine Leaves.bind Leaves.read fun s => ?_
  cases s.openFinalTextBlock with
  | none => exact Leaves.pure ()
  | some index =>
    refine Leaves.bind (Leaves.modify fun _ => rfl) fun _ => ?_
    exact leaves_envelope host ⟨rfl, rfl⟩ _

theorem leaves_ensureOpenFinalTextBlock :
    Leaves callPart (fun envelope => Silent envelope.signal) (ensureOpenFinalTextBlock host) := by
  refine Leaves.bind Leaves.read fun s => ?_
  cases s.openFinalTextBlock with
  | some index => exact Leaves.pure index
  | none =>
    refine Leaves.bind (Leaves.modify fun _ => rfl) fun _ => ?_
    rw [← bind_assoc]
    refine Leaves.bind ?_ fun _ => Leaves.pure _
    exact leaves_envelope host ⟨rfl, rfl⟩ _

theorem recordToolCall_run (s : RuntimeEnvelopeNormalizer) (sourceId name : String) (arguments : Value) :
    ∃ pending startedAt envelope s', recordToolCall host sourceId name arguments s = some (envelope, [], s') ∧
      envelope.signal = .toolCallStarted pending.runtimeId name arguments .pending startedAt ∧
      callOf pending = ⟨pending.runtimeId, envelope.frameId, name, arguments⟩ ∧
      (s.toolIdCounter + 1 < 2 ^ 32 → ∃ entropy, pending.runtimeId = callIdOf s.toolIdCounter entropy) ∧
      s'.pendingToolCalls = insertLast sourceId pending s.pendingToolCalls ∧
      s'.turnChangedFiles = s.turnChangedFiles ∧
      s'.toolIdCounter = (s.toolIdCounter + 1) % 2 ^ 32 := by
  refine ⟨_, _, _, _, rfl, rfl, rfl, fun hroom => ?_, rfl, rfl, rfl⟩
  refine ⟨hexDigits4 ((host.nanosecond s.clockReadings ^^^ s.toolIdCounter) &&& 0xffff), ?_⟩
  show "tx_" ++ toString (min (s.toolIdCounter + 1) (2 ^ 32 - 1)) ++ "_" ++ _ = _
  rw [Nat.min_eq_left (by omega)]
  rfl

/-- The id in a signal that resolves a call, and whether the call has failed. -/
def resolution : RuntimeSignal → Option (String × Bool)
  | .toolCallCompleted toolCallId .. => some (toolCallId, false)
  | .toolCallFailed toolCallId .. => some (toolCallId, true)
  | _ => none

theorem Lifecycle.step_of_resolution {sent : Sent} {failed : Bool}
    (h : resolution sent.envelope.signal = some (toolCallId, failed)) (first : ℕ) (l : Lifecycle) :
    l.step first sent = l.resolve sent toolCallId failed := by
  rw [step]
  cases hsignal : sent.envelope.signal with
  | toolCallCompleted | toolCallFailed =>
    rw [hsignal] at h
    cases h
    rfl
  | _ =>
    rw [hsignal] at h
    cases h

theorem recordToolResult_passes {sourceId : String} (h : find? sourceId s.pendingToolCalls = none)
    (output : String) (isError : Bool) :
    ∃ envelope s', recordToolResult host sourceId output isError s = some (envelope, [], s') ∧
      resolution envelope.signal = some (sourceId, isError) ∧ envelope.parentFrameId = none ∧
      callPart s' = callPart s := by
  simp only [recordToolResult, bind_of_some (show utcNow host s = some (_, [], _) from rfl),
    bind_of_some (read_run _), prepend_nil]
  rw [h]
  cases isError <;> exact ⟨_, _, rfl, rfl, rfl, rfl⟩

theorem recordToolResult_resolves {sourceId : String}
    (h : find? sourceId s.pendingToolCalls = some pending) (output : String) (isError : Bool) :
    ∃ envelope s', recordToolResult host sourceId output isError s = some (envelope, [], s') ∧
      resolution envelope.signal = some (pending.runtimeId, isError) ∧
      envelope.parentFrameId = some pending.startFrameId ∧
      s'.pendingToolCalls = erase sourceId s.pendingToolCalls ∧
      s'.turnChangedFiles =
        (if isError then s.turnChangedFiles
        else withFilesOf pending.name pending.arguments s.turnChangedFiles) ∧
      s'.toolIdCounter = s.toolIdCounter := by
  simp only [recordToolResult, bind_of_some (show utcNow host s = some (_, [], _) from rfl),
    bind_of_some (read_run _), prepend_nil]
  rw [h]
  cases isError <;> exact ⟨_, _, rfl, rfl, rfl, rfl, rfl, rfl⟩

theorem recordToolCallArgumentsDelta_run (s : RuntimeEnvelopeNormalizer) (toolCallId delta : String) :
    ∃ toolName envelope s', recordToolCallArgumentsDelta host toolCallId delta s = some (envelope, [], s') ∧
      envelope.signal = .toolCallArgumentsDelta toolCallId toolName delta .pending
        (appendToPending host toolCallId delta.toList s.pendingToolCalls).2 false ∧
      s'.pendingToolCalls = (appendToPending host toolCallId delta.toList s.pendingToolCalls).1 ∧
      s'.turnChangedFiles = s.turnChangedFiles ∧ s'.toolIdCounter = s.toolIdCounter :=
  ⟨_, _, _, rfl, rfl, rfl, rfl, rfl⟩

section Kept

variable (first : ℕ) {update : UiUpdate} (turnEnd : Option PulseEndContext)

theorem keeps_of_leaves {α : Type} {x : Emit α}
    (h : Leaves callPart (fun envelope => Silent envelope.signal) x) :
    Keeps (seen first update turnEnd) (Tracks first) x :=
  h.keeps (fun _ _ _ hs => Tracks.of_callPart hs) fun _ _ => seen_of_silent

variable (index : ℕ)

theorem keeps_recordToolCall (id name : String) (input : Value) (status : ToolStatus) :
    Keeps (seen first (.streamBlockStart index (.toolCall id name input status)) turnEnd)
      (Tracks first) (do emit (← recordToolCall host id name input) : Emit Unit) := by
  refine Spec.of_run fun s l h => ?_
  obtain ⟨pending, startedAt, envelope, s', hrun, hsignal, hcall, hid, hpending, hfiles, hcounter⟩ :=
    recordToolCall_run host s id name input
  refine ⟨(), [envelope], s', _, ?_, ?_, h.start hpending hfiles hcounter hid⟩
  · rw [bind_of_some hrun]
    rfl
  · rw [hcall]
    simp only [watch, seen, Lifecycle.step, hsignal]

theorem keeps_recordToolResult (index : ℕ) (toolCallId output : String) (isError : Bool) :
    Keeps (seen first (.streamBlockStart index (.toolResult toolCallId output isError)) turnEnd)
      (Tracks first) (do emit (← recordToolResult host toolCallId output isError) : Emit Unit) := by
  refine Spec.of_run fun s l h => ?_
  cases hfind : find? toolCallId s.pendingToolCalls with
  | none =>
    obtain ⟨envelope, s', hrun, hresolution, hparent, hpart⟩ :=
      recordToolResult_passes host hfind output isError
    have hclosed : toolCallId ∉ l.openIds := by
      rw [h.opened]
      exact Assoc.find?_eq_none_iff.mp hfind
    refine ⟨(), [envelope], s', l, ?_, ?_, h.of_callPart hpart⟩
    · rw [bind_of_some hrun]
      rfl
    · simp only [watch, seen]
      rw [Lifecycle.step_of_resolution hresolution]
      simp [Lifecycle.resolve, hclosed, hparent]
  | some pending =>
    obtain ⟨envelope, s', hrun, hresolution, hparent, hpending, hfiles, hcounter⟩ :=
      recordToolResult_resolves host hfind output isError
    have hopen : toolCallId ∈ l.openIds := by
      rw [h.opened, Assoc.mem_keys_iff_find?, hfind]
      rfl
    obtain ⟨call, hcall, hkey, hfound⟩ := h.find_unresolved hfind
    refine ⟨(), [envelope], s', _, ?_, ?_, h.resolve hfind hpending hfiles hcounter hcall hkey⟩
    · rw [bind_of_some hrun]
      rfl
    · simp only [watch, seen]
      rw [Lifecycle.step_of_resolution hresolution]
      simp only [Lifecycle.resolve, hparent]
      rw [if_neg (not_not_intro rfl), if_pos hopen, hfound]
      rfl

theorem keeps_recordToolCallArgumentsDelta (toolCallId delta : String) :
    Keeps (seen first update turnEnd) (Tracks first)
      (do emit (← recordToolCallArgumentsDelta host toolCallId delta) : Emit Unit) := by
  refine Spec.of_run fun s l h => ?_
  obtain ⟨toolName, envelope, s', hrun, hsignal, hpending, hfiles, hcounter⟩ :=
    recordToolCallArgumentsDelta_run host s toolCallId delta
  refine ⟨(), [envelope], s', _, ?_, ?_, h.learn host hpending hfiles hcounter⟩
  · rw [bind_of_some hrun]
    rfl
  · simp only [watch, seen, Lifecycle.step, hsignal]
    cases (appendToPending host toolCallId delta.toList s.pendingToolCalls).2 with
    | none =>
      have hsame : l.unresolved.map (learned toolCallId none) = l.unresolved :=
        List.map_id' l.unresolved
      rw [hsame]
    | some arguments => rfl

theorem keeps_blockStart (block : StreamBlock) :
    Keeps (seen first (.streamBlockStart index block) turnEnd) (Tracks first)
      (normalizeUiUpdate host (.streamBlockStart index block) turnEnd) := by
  refine Spec.bind (keeps_of_leaves first turnEnd (leaves_closeOpenFinalTextBlock host)) fun _ => ?_
  refine Spec.bind (keeps_of_leaves first turnEnd (Leaves.modify fun _ => rfl)) fun _ => ?_
  rw [← bind_assoc]
  refine Spec.bind (keeps_of_leaves first turnEnd (leaves_envelope host ⟨rfl, rfl⟩ _)) fun _ => ?_
  cases block with
  | toolCall id name input status =>
    refine Spec.bind (keeps_recordToolCall host first turnEnd index id name input status) fun _ => ?_
    exact keeps_of_leaves first turnEnd (Leaves.modify fun _ => rfl)
  | toolResult toolCallId output isError =>
    refine Spec.bind (keeps_recordToolResult host first turnEnd index toolCallId output isError)
      fun _ => ?_
    exact keeps_of_leaves first turnEnd (Leaves.pure ())
  | thinking content collapsed | finalText content =>
    exact keeps_of_leaves first turnEnd (Leaves.bind (Leaves.pure ()) fun _ => Leaves.pure ())

theorem keeps_blockDelta (delta : String) :
    Keeps (seen first (.streamBlockDelta index delta) turnEnd) (Tracks first)
      (normalizeUiUpdate host (.streamBlockDelta index delta) turnEnd) := by
  refine Spec.read_any fun s => ?_
  rw [← bind_assoc]
  refine Spec.bind (keeps_of_leaves first turnEnd (leaves_envelope host ⟨rfl, rfl⟩ _)) fun _ => ?_
  cases find? index s.streamingToolCallBlocks with
  | none => exact keeps_of_leaves first turnEnd (Leaves.pure ())
  | some runtimeId => exact keeps_recordToolCallArgumentsDelta host first turnEnd runtimeId delta

theorem keeps_report (status : String) (usage : Option TokenUsageEnvelope) (files : List String) :
    Spec (seen first update turnEnd)
      (fun s l => files = reportedFiles turnEnd s.turnChangedFiles ∧ Tracks first s l)
      (do
        modify clearPulse
        emit (← nextEnvelope host (.pulseEnd status usage files)) : Emit Unit)
      fun _ => Tracks first := by
  refine Spec.of_run fun s l h => ?_
  obtain ⟨hfiles, htracks⟩ := h
  refine ⟨(), _, _, { l with openIds := [] }, rfl, ?_, htracks.finish rfl rfl rfl⟩
  have hreported : first + l.started < 2 ^ 32 → files = reportedFiles turnEnd l.changedFiles := by
    intro hroom
    rw [hfiles, (htracks.exact hroom).files]
  simp only [List.nil_append, watch, seen, Lifecycle.step]
  rw [if_pos hreported]

theorem keeps_files_of_leaves {α : Type} {x : Emit α}
    (h : Leaves callPart (fun envelope => Silent envelope.signal) x) (files : List String) :
    Keeps (seen first update turnEnd)
      (fun s l => files = reportedFiles turnEnd s.turnChangedFiles ∧ Tracks first s l) x := by
  refine h.keeps ?_ fun _ _ => seen_of_silent
  intro s s' l hs hinv
  have hfiles : s'.turnChangedFiles = s.turnChangedFiles := congrArg (fun part => part.2.1) hs
  rw [hfiles]
  exact ⟨hinv.1, hinv.2.of_callPart hs⟩

theorem keeps_completeTurn :
    Keeps (seen first update turnEnd) (Tracks first) (completeTurn host (turnEnd.getD {})) := by
  refine Spec.read fun s₀ => ?_
  refine Spec.bind (R := fun _ s l => reportedFiles turnEnd s₀.turnChangedFiles =
      reportedFiles turnEnd s.turnChangedFiles ∧ Tracks first s l) ?_
    fun _ => keeps_report host first turnEnd "completed" _ _
  refine Spec.conseq (keeps_files_of_leaves first turnEnd (leaves_closeOpenFinalTextBlock host) _)
    ?_ fun _ _ _ h => h
  intro s l h
  rw [h.1]
  exact ⟨rfl, h.1 ▸ h.2⟩

theorem keeps_error (message : String) :
    Keeps (seen first (.error message) turnEnd) (Tracks first)
      (normalizeUiUpdate host (.error message) turnEnd) := by
  refine Spec.bind (keeps_of_leaves first turnEnd (leaves_closeOpenFinalTextBlock host)) fun _ => ?_
  rw [← bind_assoc]
  have herror : Silent (.error "runtime_error" message false) := ⟨rfl, rfl⟩
  refine Spec.bind (keeps_of_leaves first turnEnd (leaves_envelope host herror none)) fun _ => ?_
  refine Spec.read fun s₀ => ?_
  refine Spec.conseq (keeps_report host first turnEnd "failed" _ _) ?_ fun _ _ _ h => h
  intro s l h
  rw [h.1]
  exact ⟨rfl, h.1 ▸ h.2⟩

theorem keeps_normalizeUiUpdate (update : UiUpdate) :
    Keeps (seen first update turnEnd) (Tracks first) (normalizeUiUpdate host update turnEnd) := by
  cases update with
  | transcriptLine line =>
    refine Spec.bind (keeps_of_leaves first turnEnd (leaves_closeOpenFinalTextBlock host))
      fun _ => ?_
    exact keeps_of_leaves first turnEnd (leaves_envelope host ⟨rfl, rfl⟩ none)
  | streamDelta text =>
    refine Spec.bind (keeps_of_leaves first turnEnd (leaves_ensureOpenFinalTextBlock host))
      fun index => ?_
    refine Spec.read_any fun s => ?_
    exact keeps_of_leaves first turnEnd (leaves_envelope host ⟨rfl, rfl⟩ _)
  | streamBlockStart index block => exact keeps_blockStart host first turnEnd index block
  | streamBlockDelta index delta => exact keeps_blockDelta host first turnEnd index delta
  | streamBlockComplete index =>
    refine Spec.read_any fun s => ?_
    refine Spec.bind (keeps_of_leaves first turnEnd (Leaves.modify fun _ => rfl)) fun _ => ?_
    exact keeps_of_leaves first turnEnd (leaves_envelope host ⟨rfl, rfl⟩ _)
  | toolApprovalRequest request =>
    refine Spec.bind (keeps_of_leaves first turnEnd (leaves_closeOpenFinalTextBlock host))
      fun _ => ?_
    have hrequest : Silent (approvalRequestSignal request) := ⟨rfl, rfl⟩
    exact keeps_of_leaves first turnEnd (leaves_envelope host hrequest none)
  | serverMetadata metadata =>
    exact keeps_of_leaves first turnEnd (leaves_envelope host ⟨rfl, rfl⟩ none)
  | pulseComplete => exact keeps_completeTurn host first turnEnd
  | error message => exact keeps_error host first turnEnd message
  | unreported => exact Spec.pure fun _ _ h => h

end Kept

/-! ### A whole pulse -/

theorem total_normalizeUiUpdate (update : UiUpdate) (turnEnd : Option PulseEndContext) :
    Total (normalizeUiUpdate host update turnEnd) := by
  have hclose : Total (closeOpenFinalTextBlock host) := (sends_closeOpenFinalTextBlock host).total
  have henvelope (signal : RuntimeSignal) (source : Option RuntimeEnvelopeSource) :
      Total (do emit (← nextEnvelopeWithSource host signal none none source) : Emit Unit) :=
    (sends_envelope host signal source).total
  have hfiles (files : List String) : Total (resolveChangedFiles files) :=
    Total.bind closed_total.read fun _ => Total.pure _
  cases update with
  | transcriptLine line | toolApprovalRequest request =>
    exact Total.bind hclose fun _ => henvelope _ none
  | streamDelta text =>
    refine Total.bind (Total.bind closed_total.read fun s => ?_) fun index =>
      Total.bind closed_total.read fun s => henvelope _ _
    cases s.openFinalTextBlock with
    | some index => exact Total.pure index
    | none =>
      refine Total.bind (Total.modify _) fun _ => ?_
      rw [← bind_assoc]
      exact Total.bind (henvelope _ _) fun _ => Total.pure _
  | streamBlockStart index block => exact (sends_blockStart host index block).total
  | streamBlockDelta index delta => exact (sends_blockDelta host index delta).total
  | streamBlockComplete index => exact (sends_blockComplete host index).total
  | serverMetadata metadata => exact henvelope _ none
  | pulseComplete =>
    exact Total.bind (hfiles _) fun _ => Total.bind hclose fun _ =>
      Total.bind (Total.modify _) fun _ => henvelope _ none
  | error message =>
    refine Total.bind hclose fun _ => ?_
    rw [← bind_assoc]
    exact Total.bind (henvelope _ none) fun _ => Total.bind (hfiles _) fun _ =>
      Total.bind (Total.modify _) fun _ => henvelope _ none
  | unreported => exact Total.pure ()

theorem keeps_sendUpdate (first : ℕ) (update : UiUpdate × Option PulseEndContext) :
    Keeps (Lifecycle.step first) (Tracks first) (sendUpdate host update) := by
  refine Spec.zoom fun s => ?_
  refine Spec.conseq (keeps_normalizeUiUpdate host first update.2 update.1) ?_ fun _ _ _ h => h
  intro s' l h
  rw [h.1]
  exact h.2

theorem tracks_startPulse (pulse : ℕ) (input : Option String) (s : RuntimeEnvelopeNormalizer) :
    ∃ envelope s', startPulse host pulse input s = some (envelope, [], s') ∧
      Tracks s.toolIdCounter s' {} := by
  refine ⟨_, _, rfl, List.nodup_nil, fun _ => Iff.rfl, List.nil_subperm, fun _ => ?_⟩
  exact ⟨rfl, nofun, nofun, List.nodup_nil, rfl⟩

/-- **The lifecycle of the calls of a pulse.**  Whatever the updates, they are all sent, and the
monitor accepts the envelopes: one that resolves a call carries the id and the frame of a call that
was started in the pulse and is not resolved yet, one that passes on a result does so for an id that
no call is open under, and a `PulseEnd` that is not given its files reports those of the calls that
completed. -/
theorem sendPulse_lifecycle (pulse : ℕ) (input : Option String)
    (updates : List (UiUpdate × Option PulseEndContext)) (s : RuntimeEnvelopeNormalizer) :
    ∃ sent s', sendPulse host pulse input updates s = some ((), sent, s') ∧
      ∃ l, watch (Lifecycle.step s.toolIdCounter) {} sent = some l := by
  obtain ⟨envelope, s₁, hstart, htracks⟩ := tracks_startPulse host pulse input s
  have htotal : Total (forEach updates (sendUpdate host)) :=
    closed_total.forEach fun update => (total_normalizeUiUpdate host update.1 update.2).zoom _ _ _
  obtain ⟨⟨_, sent, s'⟩, hrun⟩ := htotal s₁
  have hkeeps : Keeps (Lifecycle.step s.toolIdCounter) (Tracks s.toolIdCounter)
      (forEach updates (sendUpdate host)) :=
    Spec.forEach fun update _ => keeps_sendUpdate host s.toolIdCounter update
  obtain ⟨l, hwatch, -⟩ := hkeeps s₁ {} () sent s' htracks hrun
  refine ⟨sent, s', ?_, l, hwatch⟩
  have hzoom : zoom id (fun s _ => s) (Sent.mk .unreported none) (startPulse host pulse input) s =
      some (envelope, [], s₁) := by
    rw [zoom, id, hstart]
    rfl
  rw [sendPulse, bind_of_some hzoom, hrun]
  rfl

/-! ### Two pulses -/

/-- A host whose nanoseconds are `1` at its seventh reading, and whose library parses one text. -/
def sampleHost : Host where
  now := fun _ => 0
  nanosecond := fun n => if n = 6 then 1 else 0
  timestampString := fun _ => "1970-01-01T00:00:00.000Z"
  codec := {
    fromStr := fun text =>
      if text = "\x7b\"path\":\"x\"\x7d".toList then some (.object [("path", .string "x")]) else none
    toString := fun _ => []
    parseF64 := fun _ => none }

def signalsOf (updates : List (UiUpdate × Option PulseEndContext)) (s : RuntimeEnvelopeNormalizer) :
    List (RuntimeSignal × Option String) :=
  (sendPulse sampleHost 1 none updates s).elim [] fun r =>
    r.2.1.map fun sent => (sent.envelope.signal, sent.envelope.parentFrameId)

def crossedUpdates : List (UiUpdate × Option PulseEndContext) :=
  [(.streamBlockStart 0 (.toolCall "a" "write_file" (.object []) .pending), none),
    (.streamBlockStart 1 (.toolCall "b" "write_file" (.object []) .pending), none),
    (.streamBlockDelta 1 "\x7b\"path\":\"x\"\x7d", none),
    (.streamBlockStart 2 (.toolResult "a" "" false), none),
    (.pulseComplete, none)]

/-- A result of no call is passed on, and the files that the caller gives are reported.  When the
counter of the ids has wrapped, the path of one call is reported for another. -/
theorem stray_result_passed_on :
    signalsOf [(.streamBlockStart 0 (.toolResult "call-1" "ok" false), none),
        (.pulseComplete, some { changedFiles := ["b"] })] { taskId := "t" } =
      [(.transcriptBlockStart 0 (.toolResult "call-1" "ok" false), none),
        (.toolCallCompleted "call-1" none .complete none "1970-01-01T00:00:00.000Z" none "ok", none),
        (.pulseEnd "completed" none ["b"], none)] ∧
      (signalsOf crossedUpdates { taskId := "t" }).getLast? =
        some (.pulseEnd "completed" none [], none) ∧
      (signalsOf crossedUpdates { taskId := "t", toolIdCounter := 2 ^ 32 - 2 }).getLast? =
        some (.pulseEnd "completed" none ["x"], none) := by
  decide

end Vexcoder.Handoff.CallLifecycle
