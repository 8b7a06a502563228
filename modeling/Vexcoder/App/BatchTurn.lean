import Vexcoder.App.BatchUpdates
import Vexcoder.Conversation.SendMessage
import Vexcoder.Lib.Runs

/-!
# A turn of a batch run

The conversation answers a message, the driver forwards what it shows, batch mode receives it.
`BatchTurn` is all three, with the history by which the record is judged: the results of the calls with
the input they were executed with, and the text deltas that were forwarded.

`showMonitor` watches what one step shows.  It accepts what batch mode makes the right thing of, and
`receive_reports` says what that is.
-/

namespace Vexcoder.App

open Base Lib Lib.Emitter Vexcoder.Runtime Vexcoder.Task
open Tools (MutationTool changedFilesOf firstStringField requiredToolStringAny
  toolRequest)
open Conversation (ConversationStreamUpdate Environment Event Machine Phase Report RoundState
  ContentBlock firstCall? firstToolString guardClarification lastBlock? resultIsError)

/-! ### What a call works on -/

/-- The paths that the executor takes from the input of a call that changes files. -/
def executedPaths (name : String) (input : Value) : List String :=
  if name = "write_file" || name = "apply_patch" || name = "git_add" then
    (firstStringField input ["path", "file_path", "file"]).toList
  else if name = "edit_file" then
    (firstStringField input ["path", "file_path", "file", "filename"]).toList
  else if name = "rename_file" then
    (firstStringField input ["old_path", "from", "source_path"]).toList ++
      (firstStringField input ["new_path", "to", "target_path"]).toList
  else []

/-! ### The turn -/

def roundCall? (r : RoundState) (toolCallId : String) : Option Conversation.ToolCall :=
  (r.toolUseBlocks.filterMap ContentBlock.toolCall?).find? fun call => call.id = toolCallId

/-- The call that a step answers, as it was executed, and whether the answer is an error. -/
def answeredCall (env : Environment) (phase : Phase) (event : Event) :
    Option (Conversation.ToolCall × Bool) :=
  match phase, event with
  | .streaming _ r, .signal (.toolCallCompleted toolCallId _ _ _ _ _ _) =>
    (roundCall? r toolCallId).map fun call => (call, false)
  | .streaming _ r, .signal (.toolCallFailed toolCallId _ _ _ _ _ _) =>
    (roundCall? r toolCallId).map fun call => (call, true)
  | .executing t e, .tick =>
    match e.remaining with
    | call :: _ => if (guardClarification env t call).isSome then some (call, true) else none
    | [] => none
  | .approving _ _ call, .approvalAnswered approved => if approved then none else some (call, true)
  | .running _ _ call, .toolFinished result => some (call, resultIsError result)
  | .recording _ e results, .tick =>
    match e.remaining, results with
    | call :: _, result :: _ => some (call, resultIsError result)
    | _, _ => none
  | _, _ => none

def streamsArguments : Event → Bool
  | .signal (.toolCallArgumentsDelta ..) => true
  | _ => false

def updatesOf (reports : List Report) : List ConversationStreamUpdate :=
  reports.filterMap fun report =>
    match report with
    | .update update => some update
    | _ => none

inductive TurnInput where
  | event (event : Event)
  /-- What a tool shows while it is running. -/
  | aside (update : ConversationStreamUpdate)

def isAside : ConversationStreamUpdate → Bool
  | .transcriptLine _ | .commandSessionStarted .. | .commandSessionAttached ..
  | .commandSessionFinished _ | .toolApprovalRequest _ => true
  | _ => false

/-- A turn of a batch run.  `updates`, `results` and `deltas` are its history: what the conversation has
shown, the results of its calls, and the text deltas that were forwarded. -/
structure BatchTurn where
  machine : Machine
  forwarder : Forwarder := {}
  batch : BatchMode
  updates : List ConversationStreamUpdate := []
  results : List (Conversation.ToolCall × Bool) := []
  deltas : List String := []

namespace BatchTurn

def ledger (s : BatchTurn) : Ledger := s.updates.foldl Ledger.note {}

/-- The driver forwards the updates; `none` is its panic. -/
def show? (codec : JsonCodec) (lastPulse : PulseTokens) (s : BatchTurn) (arguments : Bool)
    (updates : List ConversationStreamUpdate) : Option BatchTurn :=
  match forwardAll codec s.forwarder updates with
  | (_, none) => none
  | (out, some forwarder) =>
    some { s with
      forwarder
      batch := s.batch.receive lastPulse out
      updates := s.updates ++ updates
      deltas := s.deltas ++ if arguments then [] else textDeltas out }

def step? (env : Environment) (lastPulse : PulseTokens) (s : BatchTurn) : TurnInput → Option BatchTurn
  | .aside update => if isAside update then s.show? env.codec lastPulse false [update] else none
  | .event event =>
    match Conversation.step env event s.machine with
    | none => none
    | some ((), reports, machine) =>
      { s with
        machine
        results := s.results ++ (answeredCall env s.machine.phase event).toList }.show? env.codec
          lastPulse (streamsArguments event) (updatesOf reports)

def run? (env : Environment) (lastPulse : PulseTokens) (s : BatchTurn) : List TurnInput → Option BatchTurn
  | [] => some s
  | input :: inputs => (s.step? env lastPulse input).bind fun s' => s'.run? env lastPulse inputs

def lastUpdates (order : DrainOrder) (s : BatchTurn) (ending : PulseEnding) : List UiUpdate :=
  match ending with
  | .cancelled => [ending.update]
  | .ended _ => finishBlocks (order.drain s.forwarder.textualBlockByIndex) ++ [ending.update]

def finish (order : DrainOrder) (lastPulse : PulseTokens) (s : BatchTurn) (ending : PulseEnding) :
    BatchMode :=
  s.batch.receive lastPulse (s.lastUpdates order ending)

/-! ### What the record is to say -/

/-- The files, the commands and the response are those of the turn. -/
structure Matches (s : BatchTurn) : Prop where
  changedFiles : ∀ path, path ∈ s.batch.currentTurnChangedFiles ↔
    ∃ call, (call, false) ∈ s.results ∧ path ∈ executedPaths call.name call.input
  commandHistory : s.batch.currentTurnCommandHistory = s.results.flatMap fun (call, isError) =>
    (commandEvidenceFromToolResult call.name isError).toList
  response : s.batch.currentResponse = Text.join "" s.deltas

end BatchTurn

/-! ### One step, as it is shown -/

/-- What a result is evidence of, by the call that was executed. -/
def resultEvidence : Option (Conversation.ToolCall × Bool) → Evidence
  | none => {}
  | some (call, isError) =>
    { files := if isError then [] else executedPaths call.name call.input
      commands := (commandEvidenceFromToolResult call.name isError).toList }

def Evidence.Same (a b : Evidence) : Prop :=
  a.files ⊆ b.files ∧ b.files ⊆ a.files ∧ a.commands = b.commands

instance (a b : Evidence) : Decidable (a.Same b) := inferInstanceAs (Decidable (_ ∧ _ ∧ _))

theorem Evidence.Same.mem_iff {a b : Evidence} (h : a.Same b) {path : String} :
    path ∈ a.files ↔ path ∈ b.files :=
  ⟨fun hp => h.1 hp, fun hp => h.2.1 hp⟩

/-- What is shown so far, and the result that the step has still to show. -/
structure Watch where
  ledger : Ledger
  due : Option (Conversation.ToolCall × Bool)

/-- Accepts what batch mode makes the right thing of: text deltas for open blocks, deltas of arguments
for others, and a result of a call whose block is evidence of the same. -/
def showMonitor (arguments : Bool) : Watch → Report → Option Watch
  | w, .update update =>
    match arguments, update with
    | true, .blockDelta index _ => if index ∈ w.ledger.openBlocks then none else some w
    | true, .toolCallArgumentsUpdated .. => some w
    | true, _ => none
    | false, .blockDelta index _ => if index ∈ w.ledger.openBlocks then some w else none
    | false, .blockStart index (.toolResult id output isError) =>
      if (notedEvidence (Assoc.find? id w.ledger.waiting) isError).Same (resultEvidence w.due) then
        some { ledger := w.ledger.note (.blockStart index (.toolResult id output isError)), due := none }
      else none
    | false, .streamError _ => none
    | false, update => some { w with ledger := w.ledger.note update }
  | w, _ => some w

/-- The fields that the updates of a running turn leave alone. -/
def BatchMode.fixed (b : BatchMode) : BatchMode :=
  { b with
    currentResponse := ""
    currentTurnChangedFiles := []
    currentTurnTextBlockIndices := []
    currentTurnCommandHistory := []
    pendingToolCalls := [] }

/-- What reports add to the record: the text, and the evidence that is no longer due. -/
structure Recorded (b b' : BatchMode) (w w' : Watch) (heard : String) : Prop where
  response : b'.currentResponse = b.currentResponse ++ heard
  changedFiles : ∀ path,
    path ∈ b'.currentTurnChangedFiles ∨ path ∈ (resultEvidence w'.due).files ↔
      path ∈ b.currentTurnChangedFiles ∨ path ∈ (resultEvidence w.due).files
  commandHistory : b'.currentTurnCommandHistory ++ (resultEvidence w'.due).commands =
    b.currentTurnCommandHistory ++ (resultEvidence w.due).commands
  fixed : b'.fixed = b.fixed
  sorted : b.currentTurnChangedFiles.Pairwise (· < ·) → b'.currentTurnChangedFiles.Pairwise (· < ·)

theorem Recorded.refl (b : BatchMode) (w : Watch) : Recorded b b w w "" where
  response := String.append_empty.symm
  changedFiles _ := Iff.rfl
  commandHistory := rfl
  fixed := rfl
  sorted := id

variable {b : BatchMode} {w w' : Watch} {arguments : Bool}

theorem Recorded.trans {b₁ b₂ : BatchMode} {w₁ w₂ : Watch} {s t : String} (h : Recorded b b₁ w w₁ s)
    (h' : Recorded b₁ b₂ w₁ w₂ t) : Recorded b b₂ w w₂ (s ++ t) where
  response := by rw [h'.response, h.response, String.append_assoc]
  changedFiles path := (h'.changedFiles path).trans (h.changedFiles path)
  commandHistory := h'.commandHistory.trans h.commandHistory
  fixed := h'.fixed.trans h.fixed
  sorted hs := h'.sorted (h.sorted hs)

theorem recorded_text {l : Ledger} {text : String} :
    Recorded b (((b.hear text).credit {}).keep l) w { w with ledger := l } text where
  response := rfl
  changedFiles _ := Iff.rfl
  commandHistory := by
    rw [BatchMode.credit_nothing]
    rfl
  fixed := rfl
  sorted := id

variable {codec : JsonCodec} {lastPulse : PulseTokens}

theorem recorded_result {l : Ledger} {e : Evidence} (hsame : e.Same (resultEvidence w.due)) :
    Recorded b (((b.hear "").credit e).keep l) w { ledger := l, due := none } "" where
  response := rfl
  changedFiles path := by
    show path ∈ insertAll e.files b.currentTurnChangedFiles ∨ path ∈ [] ↔ _
    rw [mem_insertAll, hsame.mem_iff]
    constructor
    · rintro ((h | h) | h)
      · exact .inr h
      · exact .inl h
      · cases h
    · rintro (h | h)
      · exact .inl (.inr h)
      · exact .inl (.inl h)
  commandHistory := by
    show (b.currentTurnCommandHistory ++ e.commands) ++ [] = _
    rw [List.append_nil, hsame.2.2]
  fixed := rfl
  sorted hs := insertAll_sorted hs e.files

/-- What the monitor accepts: text and other updates without evidence, or the result that is due. -/
theorem showMonitor_cases {update : ConversationStreamUpdate}
    (hw : showMonitor arguments w (.update update) = some w') :
    (∀ message, update ≠ .streamError message) ∧
      ((w' = { w with ledger := w.ledger.note update } ∧ w.ledger.noted update = {} ∧
          ∀ codec f out f', forwardConversationUpdate codec f update = (out, some f') →
            heardText w.ledger update out = Text.join "" (if arguments then [] else textDeltas out)) ∨
        (arguments = false ∧ ∃ index id output isError,
          update = .blockStart index (.toolResult id output isError) ∧
          (notedEvidence (Assoc.find? id w.ledger.waiting) isError).Same (resultEvidence w.due) ∧
          w' = { ledger := w.ledger.note update, due := none })) := by
  have hstream : ∀ message, update ≠ .streamError message := by
    rintro message rfl
    cases arguments with
    | false | true => cases hw
  refine ⟨hstream, ?_⟩
  cases arguments with
  | true =>
    cases update with
    | blockDelta index delta =>
      rw [showMonitor] at hw
      split at hw
      · cases hw
      · rename_i hclosed
        refine .inl ⟨(Option.some.inj hw).symm, rfl, fun _ _ out _ _ => ?_⟩
        exact if_neg hclosed
    | toolCallArgumentsUpdated id name arguments =>
      refine .inl ⟨(Option.some.inj hw).symm, rfl, fun _ f out f' hforward => ?_⟩
      obtain ⟨rfl, -⟩ := Prod.mk.inj hforward
      rfl
    | _ => cases hw
  | false =>
    cases update with
    | blockDelta index delta =>
      rw [showMonitor] at hw
      split at hw
      · rename_i hopen
        refine .inl ⟨(Option.some.inj hw).symm, rfl, fun _ _ out _ _ => ?_⟩
        exact if_pos hopen
      · cases hw
    | blockStart index block =>
      cases block with
      | toolResult id output isError =>
        rw [showMonitor] at hw
        split at hw
        · rename_i hsame
          exact .inr ⟨rfl, index, id, output, isError, rfl, hsame, (Option.some.inj hw).symm⟩
        · cases hw
      | _ =>
        exact .inl ⟨(Option.some.inj hw).symm, rfl, fun _ _ _ _ _ => rfl⟩
    | streamError message => cases hw
    | _ => exact .inl ⟨(Option.some.inj hw).symm, rfl, fun _ _ _ _ _ => rfl⟩

theorem receive_accepted {update : ConversationStreamUpdate}
    (hw : showMonitor arguments w (.update update) = some w') {f f' : Forwarder}
    {out : List UiUpdate} (hcoherent : Coherent f b w.ledger)
    (hforward : forwardConversationUpdate codec f update = (out, some f')) :
    w'.ledger = w.ledger.note update ∧ Coherent f' (b.receive lastPulse out) w'.ledger ∧
      Recorded b (b.receive lastPulse out) w w'
        (Text.join "" (if arguments then [] else textDeltas out)) := by
  obtain ⟨herror, hcase⟩ := showMonitor_cases hw
  have hreceived : Received codec lastPulse f b w.ledger update := receive_forwarded hcoherent herror
  obtain ⟨hreceive, hafter⟩ := hreceived out f' hforward
  rcases hcase with ⟨rfl, hnoted, hheard⟩ | ⟨rfl, index, id, output, isError, rfl, hsame, rfl⟩
  · refine ⟨rfl, hafter, ?_⟩
    rw [hreceive, hnoted, hheard codec f out f' hforward]
    exact recorded_text
  · refine ⟨rfl, hafter, ?_⟩
    have hout : textDeltas out = [] := by
      obtain ⟨rfl, -⟩ := Prod.mk.inj hforward
      rfl
    have hheard : heardText w.ledger (.blockStart index (.toolResult id output isError)) out = "" := by
      show Text.join "" (textDeltas out) = ""
      rw [hout]
      rfl
    rw [hreceive, hheard, hout]
    exact recorded_result hsame

theorem showMonitor_other {report : Report} (h : ∀ update, report ≠ .update update) :
    showMonitor arguments w report = some w := by
  cases report with
  | update update => exact absurd rfl (h update)
  | _ => rfl

theorem updatesOf_cons_other {report : Report} (h : ∀ update, report ≠ .update update)
    (reports : List Report) : updatesOf (report :: reports) = updatesOf reports := by
  cases report with
  | update update => exact absurd rfl (h update)
  | _ => rfl

/-- **What an accepted step adds**: the ledger follows the updates, driver and mode agree with it, the
response has heard the text, and what was due has entered the record. -/
theorem receive_reports {reports : List Report} (hw : watch (showMonitor arguments) w reports = some w')
    {f f' : Forwarder} {out : List UiUpdate} (hcoherent : Coherent f b w.ledger)
    (hforward : forwardAll codec f (updatesOf reports) = (out, some f')) :
    w'.ledger = (updatesOf reports).foldl Ledger.note w.ledger ∧
      Coherent f' (b.receive lastPulse out) w'.ledger ∧
      Recorded b (b.receive lastPulse out) w w'
        (Text.join "" (if arguments then [] else textDeltas out)) := by
  induction reports generalizing w f b out with
  | nil =>
    obtain rfl := Option.some.inj hw
    obtain ⟨rfl, hf⟩ := Prod.mk.inj hforward
    obtain rfl := Option.some.inj hf
    refine ⟨rfl, hcoherent, ?_⟩
    cases arguments <;> exact Recorded.refl b w
  | cons report reports ih =>
    rw [watch] at hw
    by_cases hupdate : ∃ update, report = .update update
    · obtain ⟨update, rfl⟩ := hupdate
      split at hw
      · cases hw
      rename_i w₁ hw₁
      have hcons : updatesOf (.update update :: reports) = update :: updatesOf reports := rfl
      rw [hcons, forwardAll] at hforward
      cases hone : forwardConversationUpdate codec f update with
      | mk out₁ next =>
        cases next with
        | none =>
          rw [hone] at hforward
          cases hforward
        | some f₁ =>
          rw [hone] at hforward
          obtain ⟨rfl, hrest⟩ := Prod.mk.inj hforward
          have haccepted : _ ∧ Coherent f₁ (b.receive lastPulse out₁) _ ∧ _ :=
            receive_accepted hw₁ hcoherent hone
          obtain ⟨hledger, hcoherent₁, hrecorded⟩ := haccepted
          obtain ⟨hledger', hcoherent', hrecorded'⟩ :=
            ih hw hcoherent₁ (Prod.ext rfl hrest)
          rw [hcons, List.foldl_cons, ← hledger, BatchMode.receive_append]
          refine ⟨hledger', hcoherent', ?_⟩
          have hboth := hrecorded.trans hrecorded'
          rw [← Text.join_empty_append] at hboth
          cases arguments with
          | true => exact hboth
          | false =>
            rw [textDeltas_append]
            exact hboth
    · have hother : ∀ update, report ≠ .update update := fun update heq => hupdate ⟨update, heq⟩
      rw [showMonitor_other hother] at hw
      rw [updatesOf_cons_other hother] at hforward ⊢
      exact ih hw hcoherent hforward

end Vexcoder.App
