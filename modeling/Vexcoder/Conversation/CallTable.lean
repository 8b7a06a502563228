import Vexcoder.Conversation.Rounds
import Vexcoder.Lib.Runs

/-!
# The calls of a round

The blocks in which `send_message` collects the calls of a round, and their places by id.  Only two
signals work on them.
-/

namespace Vexcoder.Conversation

open Base Lib Lib.Assoc Lib.Emitter Vexcoder.Runtime Vexcoder.Task

def RoundState.takeSignal (r : RoundState) : RuntimeSignal → RoundState
  | .toolCallStarted toolCallId toolName arguments _ _ => r.startCall toolCallId toolName arguments
  | .toolCallArgumentsDelta toolCallId toolName _ _ arguments _ =>
    r.updateCall toolCallId toolName arguments
  | _ => r

def SameCalls (r r' : RoundState) : Prop :=
  r'.toolUseBlocks = r.toolUseBlocks ∧ r'.toolUsePositions = r.toolUsePositions

variable {r r' : RoundState}

theorem SameCalls.startCall (h : SameCalls r r') (toolCallId toolName : String) (arguments : Value) :
    SameCalls (r.startCall toolCallId toolName arguments) (r'.startCall toolCallId toolName arguments) := by
  obtain ⟨hblocks, hpositions⟩ := h
  unfold RoundState.startCall
  rw [hblocks, hpositions]
  cases find? toolCallId r.toolUsePositions <;> exact ⟨rfl, rfl⟩

variable (env : Environment)

theorem takePendingBlock_calls (r : RoundState) (toolCallId toolName : String) (arguments : Value) :
    Ensures (takePendingBlock env r toolCallId toolName arguments) (SameCalls r) := by
  unfold takePendingBlock
  cases r.pendingToolBlockIndices with
  | nil => exact Ensures.pure ⟨rfl, rfl⟩
  | cons index pending => exact Ensures.last fun _ => Ensures.pure ⟨rfl, rfl⟩

variable (t : TurnState) (e : ToolRound) (call : ToolCall)

/-- A signal does to the calls what `takeSignal` says. -/
theorem receiveSignal_calls (r : RoundState) (signal : RuntimeSignal) :
    Ensures (receiveSignal env t r signal) fun next => SameCalls (r.takeSignal signal) next.2 := by
  cases signal with
  | transcriptBlockStart index block =>
    refine Ensures.bind (Q := SameCalls r) ?_ fun _ h => Ensures.pure h
    cases block with
    | toolCall id name input status => exact Ensures.pure ⟨rfl, rfl⟩
    | _ => exact Ensures.last fun _ => Ensures.pure ⟨rfl, rfl⟩
  | transcriptBlockDelta index delta =>
    refine Ensures.bind (Q := SameCalls r) ?_ fun _ h => Ensures.pure h
    unfold receiveBlockDelta
    split
    · exact Ensures.pure ⟨rfl, rfl⟩
    · exact Ensures.last fun _ => Ensures.pure ⟨rfl, rfl⟩
  | toolCallStarted toolCallId toolName arguments status startedAt =>
    refine Ensures.bind (Q := SameCalls (r.startCall toolCallId toolName arguments)) ?_
      fun _ h => Ensures.pure h
    refine Ensures.last fun _ => Ensures.bind (takePendingBlock_calls env _ _ _ _) fun r' h => ?_
    exact Ensures.last fun _ => Ensures.pure (h.startCall _ _ _)
  | toolCallArgumentsDelta toolCallId toolName delta status arguments invalidJson =>
    refine Ensures.bind (Q := SameCalls (r.updateCall toolCallId toolName arguments)) ?_
      fun _ h => Ensures.pure h
    exact Ensures.last fun _ => Ensures.last fun _ => Ensures.last fun _ => Ensures.pure ⟨rfl, rfl⟩
  | pulseStart input | usageUpdated usage => exact Ensures.pure ⟨rfl, rfl⟩
  | pulseEnd status usage changedFiles =>
    simp only [receiveSignal]
    split <;> exact Ensures.pure ⟨rfl, rfl⟩
  | transcriptLine line | transcriptBlockComplete index | toolCallCompleted | toolCallFailed
  | serverMetadata metadata => exact Ensures.last fun _ => Ensures.last fun _ => Ensures.pure ⟨rfl, rfl⟩
  | _ => exact Ensures.last fun _ => Ensures.pure ⟨rfl, rfl⟩

/-! ### Calls only -/

def CallsOnly (r : RoundState) : Prop :=
  ∀ block ∈ r.toolUseBlocks, ∃ call : ToolCall, block = .toolUse call.id call.name call.input

theorem CallsOnly.of_same (h : CallsOnly r) (hsame : SameCalls r r') : CallsOnly r' := by
  unfold CallsOnly
  rw [hsame.1]
  exact h

theorem CallsOnly.takeSignal (h : CallsOnly r) (signal : RuntimeSignal) :
    CallsOnly (r.takeSignal signal) := by
  cases signal with
  | toolCallStarted toolCallId toolName arguments status startedAt =>
    intro block hmem
    simp only [RoundState.takeSignal, RoundState.startCall] at hmem
    split at hmem
    · rcases List.mem_or_eq_of_mem_set hmem with hmem | rfl
      · exact h block hmem
      · exact ⟨⟨toolCallId, toolName, arguments⟩, rfl⟩
    · rcases List.mem_append.mp hmem with hmem | hmem
      · exact h block hmem
      · exact ⟨⟨toolCallId, toolName, arguments⟩, List.mem_singleton.mp hmem⟩
  | toolCallArgumentsDelta toolCallId toolName delta status arguments invalidJson =>
    intro block hmem
    simp only [RoundState.takeSignal, RoundState.updateCall] at hmem
    split at hmem
    · exact h block hmem
    obtain ⟨i, hi, hget⟩ := List.mem_iff_getElem.mp hmem
    rw [List.getElem_modify] at hget
    have hlt : i < r.toolUseBlocks.length := by rwa [List.length_modify] at hi
    obtain ⟨call, hcall⟩ := h r.toolUseBlocks[i] (List.getElem_mem hlt)
    split at hget
    · rw [hcall] at hget
      exact ⟨⟨call.id, toolName.getD call.name, arguments.getD call.input⟩, hget.symm⟩
    · exact ⟨call, hget ▸ hcall⟩
  | _ => exact h

theorem receiveSignal_callsOnly (h : CallsOnly r) (signal : RuntimeSignal) :
    Ensures (receiveSignal env t r signal) fun next => CallsOnly next.2 := by
  intro m next out m' hrun
  exact (h.takeSignal signal).of_same (receiveSignal_calls env t r signal m next out m' hrun)

/-! ### The places of the calls -/

/-- Each block is a call that stands in the place of its id, and each place is one of a block. -/
structure Placed (r : RoundState) : Prop where
  ofBlock : ∀ i block, r.toolUseBlocks[i]? = some block → ∃ call : ToolCall,
    block = .toolUse call.id call.name call.input ∧ find? call.id r.toolUsePositions = some i
  ofId : ∀ id i, find? id r.toolUsePositions = some i → ∃ name input,
    r.toolUseBlocks[i]? = some (.toolUse id name input)

theorem Placed.inj (h : Placed r) {id id' : String} {i : ℕ}
    (hid : find? id r.toolUsePositions = some i) (hid' : find? id' r.toolUsePositions = some i) :
    id = id' := by
  obtain ⟨name, input, hblock⟩ := h.ofId id i hid
  obtain ⟨name', input', hblock'⟩ := h.ofId id' i hid'
  rw [hblock] at hblock'
  cases hblock'
  rfl

def ContentBlock.input? : ContentBlock → Option Value
  | .toolUse _ _ input => some input
  | _ => none

def RoundState.input? (r : RoundState) (id : String) : Option Value :=
  (find? id r.toolUsePositions).bind fun i => r.toolUseBlocks[i]?.bind ContentBlock.input?

theorem Placed.replace (h : Placed r) {position : ℕ} (call : ToolCall)
    (hplace : find? call.id r.toolUsePositions = some position)
    (hpositions : r'.toolUsePositions = r.toolUsePositions)
    (hhere : r'.toolUseBlocks[position]? = some (.toolUse call.id call.name call.input))
    (helse : ∀ i, i ≠ position → r'.toolUseBlocks[i]? = r.toolUseBlocks[i]?) :
    Placed r' ∧ ∀ id, r'.input? id = if call.id = id then some call.input else r.input? id := by
  refine ⟨⟨fun i block hblock => ?_, fun id i hid => ?_⟩, fun id => ?_⟩
  · by_cases hi : i = position
    · subst hi
      rw [hhere] at hblock
      exact ⟨call, (Option.some.inj hblock).symm, by rw [hpositions, hplace]⟩
    · rw [helse i hi] at hblock
      rw [hpositions]
      exact h.ofBlock i block hblock
  · rw [hpositions] at hid
    by_cases hi : i = position
    · subst hi
      rw [h.inj hid hplace]
      exact ⟨call.name, call.input, hhere⟩
    · rw [helse i hi]
      exact h.ofId id i hid
  · unfold RoundState.input?
    rw [hpositions]
    by_cases hid : call.id = id
    · rw [if_pos hid, ← hid, hplace, Option.bind_some, hhere]
      rfl
    rw [if_neg hid]
    cases hfind : find? id r.toolUsePositions with
    | none => rfl
    | some i =>
      have hne : i ≠ position := by
        rintro rfl
        exact hid (h.inj hplace hfind)
      rw [Option.bind_some, Option.bind_some, helse i hne]

/-- The last input that is reported for a call, behind the one reported before. -/
def reportInput (id : String) (last : Option Value) : RuntimeSignal → Option Value
  | .toolCallStarted toolCallId _ arguments _ _ => if toolCallId = id then some arguments else last
  | .toolCallArgumentsDelta toolCallId _ _ _ (some arguments) _ =>
    if toolCallId = id then last.map fun _ => arguments else last
  | _ => last

theorem Placed.append (h : Placed r) (call : ToolCall)
    (hnew : find? call.id r.toolUsePositions = none) (hpositions : r'.toolUsePositions =
      insertLast call.id r.toolUseBlocks.length r.toolUsePositions)
    (hblocks : r'.toolUseBlocks = r.toolUseBlocks ++ [.toolUse call.id call.name call.input]) :
    Placed r' ∧ ∀ id, r'.input? id = if call.id = id then some call.input else r.input? id := by
  have hlast : r'.toolUseBlocks[r.toolUseBlocks.length]? = some (.toolUse call.id call.name call.input) := by
    rw [hblocks, List.getElem?_concat_length]
  have hold : ∀ i, i < r.toolUseBlocks.length → r'.toolUseBlocks[i]? = r.toolUseBlocks[i]? :=
    fun i hi => by rw [hblocks, List.getElem?_append_left hi]
  have hfind : ∀ id, find? id r'.toolUsePositions =
      if id = call.id then some r.toolUseBlocks.length else find? id r.toolUsePositions :=
    fun id => by rw [hpositions, find?_insertLast]
  refine ⟨⟨fun i block hblock => ?_, fun id i hid => ?_⟩, fun id => ?_⟩
  · rcases Nat.lt_trichotomy i r.toolUseBlocks.length with hlt | rfl | hgt
    · rw [hold i hlt] at hblock
      obtain ⟨old, rfl, hplace⟩ := h.ofBlock i block hblock
      refine ⟨old, rfl, ?_⟩
      rw [hfind, if_neg, hplace]
      intro hid
      rw [hid, hnew] at hplace
      cases hplace
    · rw [hlast] at hblock
      exact ⟨call, (Option.some.inj hblock).symm, by rw [hfind, if_pos rfl]⟩
    · rw [hblocks, List.getElem?_eq_none] at hblock
      · cases hblock
      · rw [List.length_append]
        exact hgt
  · rw [hfind] at hid
    split at hid
    · rename_i hsame
      obtain rfl := Option.some.inj hid
      rw [hsame]
      exact ⟨call.name, call.input, hlast⟩
    · obtain ⟨name, input, hblock⟩ := h.ofId id i hid
      exact ⟨name, input, by rw [hold i (List.getElem?_eq_some_iff.mp hblock).1, hblock]⟩
  · unfold RoundState.input?
    rw [hfind]
    by_cases hid : id = call.id
    · rw [if_pos hid, if_pos hid.symm, Option.bind_some, hlast]
      rfl
    rw [if_neg hid, if_neg (Ne.symm hid)]
    cases hplace : find? id r.toolUsePositions with
    | none => rfl
    | some i =>
      obtain ⟨name, input, hblock⟩ := h.ofId id i hplace
      rw [Option.bind_some, Option.bind_some, hold i (List.getElem?_eq_some_iff.mp hblock).1]

theorem startCall_placed (h : Placed r) (toolCallId toolName : String) (arguments : Value) :
    Placed (r.startCall toolCallId toolName arguments) ∧
      ∀ id, (r.startCall toolCallId toolName arguments).input? id =
        if toolCallId = id then some arguments else r.input? id := by
  unfold RoundState.startCall
  cases hfind : find? toolCallId r.toolUsePositions with
  | some position =>
    obtain ⟨name, input, hblock⟩ := h.ofId toolCallId position hfind
    have hlt := (List.getElem?_eq_some_iff.mp hblock).1
    exact h.replace ⟨toolCallId, toolName, arguments⟩ hfind rfl
      (List.getElem?_set_self hlt) fun i hi => List.getElem?_set_ne (Ne.symm hi)
  | none => exact h.append ⟨toolCallId, toolName, arguments⟩ hfind rfl rfl

theorem updateCall_placed (h : Placed r) (toolCallId : String) (toolName : Option String)
    (arguments : Option Value) :
    Placed (r.updateCall toolCallId toolName arguments) ∧
      ∀ id, (r.updateCall toolCallId toolName arguments).input? id =
        if toolCallId = id then (r.input? id).map arguments.getD else r.input? id := by
  unfold RoundState.updateCall
  cases hfind : find? toolCallId r.toolUsePositions with
  | none =>
    refine ⟨h, fun id => ?_⟩
    dsimp only
    by_cases hid : toolCallId = id
    · rw [if_pos hid, RoundState.input?, ← hid, hfind]
      rfl
    · rw [if_neg hid]
  | some position =>
    obtain ⟨name, input, hblock⟩ := h.ofId toolCallId position hfind
    dsimp only
    refine And.imp_right (fun hinput id => (hinput id).trans ?input)
      (h.replace ⟨toolCallId, toolName.getD name, arguments.getD input⟩ hfind rfl ?block
        fun i hi => List.getElem?_modify_ne _ _ (Ne.symm hi))
    case block =>
      rw [List.getElem?_modify_eq, hblock]
      rfl
    case input =>
      by_cases hid : toolCallId = id
      · rw [if_pos hid, if_pos hid, RoundState.input?, ← hid, hfind, Option.bind_some, hblock]
        rfl
      · rw [if_neg hid, if_neg hid]

theorem takeSignal_placed (h : Placed r) (signal : RuntimeSignal) :
    Placed (r.takeSignal signal) ∧
      ∀ id, (r.takeSignal signal).input? id = reportInput id (r.input? id) signal := by
  cases signal with
  | toolCallStarted toolCallId toolName arguments status startedAt => exact startCall_placed h _ _ _
  | toolCallArgumentsDelta toolCallId toolName delta status arguments invalidJson =>
    obtain ⟨hplaced, hinput⟩ := updateCall_placed h toolCallId toolName arguments
    refine ⟨hplaced, fun id => (hinput id).trans ?_⟩
    cases arguments with
    | some arguments => rfl
    | none =>
      split
      · cases r.input? id <;> rfl
      · rfl
  | _ => exact ⟨h, fun _ => rfl⟩

theorem Placed.of_same (h : Placed r) (hsame : SameCalls r r') : Placed r' := by
  obtain ⟨hblocks, hpositions⟩ := hsame
  refine ⟨fun i block hblock => ?_, fun id i hid => ?_⟩
  · rw [hblocks] at hblock
    rw [hpositions]
    exact h.ofBlock i block hblock
  · rw [hpositions] at hid
    rw [hblocks]
    exact h.ofId id i hid

theorem input?_of_same (hsame : SameCalls r r') (id : String) : r'.input? id = r.input? id := by
  rw [RoundState.input?, RoundState.input?, hsame.1, hsame.2]

theorem receiveSignal_placed (h : Placed r) (signal : RuntimeSignal) :
    Ensures (receiveSignal env t r signal) fun next =>
      Placed next.2 ∧ ∀ id, next.2.input? id = reportInput id (r.input? id) signal := by
  intro m next out m' hrun
  have hsame := receiveSignal_calls env t r signal m next out m' hrun
  obtain ⟨hplaced, hinput⟩ := takeSignal_placed h signal
  exact ⟨hplaced.of_same hsame, fun id => (input?_of_same hsame id).trans (hinput id)⟩

theorem input?_of_mem (h : Placed r) {call : ToolCall}
    (hmem : ContentBlock.toolUse call.id call.name call.input ∈ r.toolUseBlocks) :
    r.input? call.id = some call.input := by
  obtain ⟨i, hi⟩ := List.mem_iff_getElem?.mp hmem
  obtain ⟨call', heq, hplace⟩ := h.ofBlock i _ hi
  obtain ⟨hid, -, -⟩ := by simpa using heq
  rw [RoundState.input?, hid, hplace, Option.bind_some, hi]
  rfl

/-! ### The calls to be answered -/

theorem remaining_answer (content rendered : String) (isError : Bool) :
    (e.answer env call content rendered isError).remaining = e.remaining := by
  unfold ToolRound.answer
  split <;> rfl

theorem refuseCall_remaining (clarification : String) :
    Ensures (refuseCall env e call clarification) fun next => next.remaining = e.remaining :=
  Ensures.last fun _ => Ensures.last fun _ => Ensures.last fun _ =>
    Ensures.pure (remaining_answer env e call _ _ _)

theorem recordResult_remaining (result : Except String String) :
    Ensures (recordResult env t e call result) fun next => next.2.remaining = e.remaining :=
  Ensures.last fun _ => Ensures.last fun _ => Ensures.last fun _ =>
    Ensures.pure (remaining_answer env e call _ _ _)

end Vexcoder.Conversation
