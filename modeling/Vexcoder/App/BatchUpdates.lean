import Vexcoder.App.BatchMode
import Vexcoder.App.Forwarding

/-!
# What batch mode makes of the updates of a conversation

The updates of a conversation reach batch mode by way of the driver.  What a result is noted for depends
on the block of its call that was shown last, and whether a delta is heard depends on the text blocks that
are open: both are read off the updates of the conversation (`Ledger`).
-/

namespace Vexcoder.App

open Base Lib Vexcoder.Runtime Vexcoder.Task Vexcoder.Stream Tools
open Conversation (ConversationStreamUpdate)

/-! ### Text deltas -/

def UiUpdate.delta? : UiUpdate → Option String
  | .streamDelta text => some text
  | .streamBlockStart _ (.thinking content _) => if Text.isEmpty content then none else some content
  | .streamBlockStart _ (.finalText content) => if Text.isEmpty content then none else some content
  | .streamBlockDelta _ delta => some delta
  | _ => none

def textDeltas (updates : List UiUpdate) : List String := updates.filterMap UiUpdate.delta?

theorem textDeltas_append (us vs : List UiUpdate) : textDeltas (us ++ vs) = textDeltas us ++ textDeltas vs :=
  List.filterMap_append

/-! ### The ledger -/

/-- The calls that were shown and have no result yet, and the text blocks that are open. -/
structure Ledger where
  waiting : List (String × PendingToolCall) := []
  openBlocks : List ℕ := []

def Ledger.note (l : Ledger) : ConversationStreamUpdate → Ledger
  | .blockStart _ (.toolCall id name input _) =>
    { l with waiting := Assoc.insertLast id { name, input } l.waiting }
  | .blockStart _ (.toolResult id _ _) => { l with waiting := Assoc.erase id l.waiting }
  | .blockStart index (.thinking _ _) =>
    { l with openBlocks := Assoc.insertElem index l.openBlocks }
  | .blockStart index (.finalText _) =>
    { l with openBlocks := Assoc.insertElem index l.openBlocks }
  | .blockComplete index => { l with openBlocks := l.openBlocks.filter (· ≠ index) }
  | _ => l

/-- The files and the commands that a result is evidence of. -/
structure Evidence where
  files : List String := []
  commands : List CommandEvidence := []

/-- What is noted for a result, by the block of its call. -/
def notedEvidence (shown : Option PendingToolCall) (isError : Bool) : Evidence :=
  match shown with
  | none => {}
  | some pending =>
    { files := if isError then [] else changedFilesOf pending.name pending.input
      commands := (commandEvidenceFromToolResult pending.name isError).toList }

def Ledger.noted (l : Ledger) : ConversationStreamUpdate → Evidence
  | .blockStart _ (.toolResult id _ isError) => notedEvidence (Assoc.find? id l.waiting) isError
  | _ => {}

/-! ### One update -/

def BatchMode.hear (b : BatchMode) (text : String) : BatchMode :=
  { b with currentResponse := b.currentResponse ++ text }

def BatchMode.credit (b : BatchMode) (e : Evidence) : BatchMode :=
  { b with
    currentTurnChangedFiles := insertAll e.files b.currentTurnChangedFiles
    currentTurnCommandHistory := b.currentTurnCommandHistory ++ e.commands }

def BatchMode.keep (b : BatchMode) (l : Ledger) : BatchMode :=
  { b with currentTurnTextBlockIndices := l.openBlocks, pendingToolCalls := l.waiting }

theorem BatchMode.hear_empty (b : BatchMode) : b.hear "" = b := by
  rw [BatchMode.hear, String.append_empty]

theorem BatchMode.hear_hear (b : BatchMode) (s t : String) : (b.hear s).hear t = b.hear (s ++ t) := by
  show { b with currentResponse := b.currentResponse ++ s ++ t } = _
  rw [String.append_assoc]
  rfl

theorem BatchMode.credit_nothing (b : BatchMode) : b.credit {} = b := by
  show { b with currentTurnCommandHistory := b.currentTurnCommandHistory ++ [] } = b
  rw [List.append_nil]

structure Coherent (f : Forwarder) (b : BatchMode) (l : Ledger) : Prop where
  kept : b.keep l = b
  forwarded : ∀ index, index ∈ Assoc.keys f.textualBlockByIndex ↔ index ∈ l.openBlocks
  distinct : (Assoc.keys f.textualBlockByIndex).Nodup

/-- The text that is heard of a forwarded update: a delta of a block that is not open is dropped. -/
def heardText (l : Ledger) (update : ConversationStreamUpdate) (out : List UiUpdate) : String :=
  match update with
  | .blockDelta index _ => if index ∈ l.openBlocks then Text.join "" (textDeltas out) else ""
  | _ => Text.join "" (textDeltas out)

variable {codec : JsonCodec} {lastPulse : PulseTokens}

variable {b : BatchMode} {l : Ledger}

theorem receive_chunks {place : Option ℕ}
    (h : ∀ index, place = some index → index ∈ b.currentTurnTextBlockIndices)
    (chunks : List NormalisedChunk) :
    b.receive lastPulse (emitNormalisedChunks chunks place) =
      b.hear (Text.join "" (textDeltas (emitNormalisedChunks chunks place))) := by
  induction chunks generalizing b with
  | nil => exact b.hear_empty.symm
  | cons chunk chunks ih =>
    cases chunk with
    | taggedToolCall name input => exact ih h
    | text s =>
      have hone (u : UiUpdate) (hu : u.delta? = some (String.ofList s))
          (hstep : (b.onModelUpdate lastPulse u).1 = b.hear (String.ofList s))
          (hout : emitNormalisedChunks (.text s :: chunks) place = [u] ++ emitNormalisedChunks chunks place) :
          b.receive lastPulse (emitNormalisedChunks (.text s :: chunks) place) =
            b.hear (Text.join "" (textDeltas (emitNormalisedChunks (.text s :: chunks) place))) := by
        have hdeltas : textDeltas [u] = [String.ofList s] := by
          rw [textDeltas, List.filterMap_cons, hu]
          rfl
        rw [hout, textDeltas_append, Text.join_empty_append, hdeltas, BatchMode.receive_append]
        show (b.onModelUpdate lastPulse u).1.receive lastPulse _ = _
        rw [hstep, ih (b := b.hear (String.ofList s)) h, BatchMode.hear_hear]
        rfl
      cases place with
      | none => exact hone (.streamDelta (String.ofList s)) rfl rfl rfl
      | some index =>
        refine hone (.streamBlockDelta index (String.ofList s)) rfl ?_ rfl
        show (if index ∈ b.currentTurnTextBlockIndices then _ else _ : BatchMode × Option Bool).1 = _
        rw [if_pos (h index rfl)]
        rfl

theorem settle (h : b.keep l = b) (text : String) : ((b.hear text).credit {}).keep l = b.hear text := by
  rw [BatchMode.credit_nothing]
  show (b.keep l).hear text = _
  rw [h]

theorem Coherent.openBlocks {f : Forwarder} (h : Coherent f b l) :
    b.currentTurnTextBlockIndices = l.openBlocks :=
  (congrArg BatchMode.currentTurnTextBlockIndices h.kept).symm

theorem Coherent.waiting {f : Forwarder} (h : Coherent f b l) : b.pendingToolCalls = l.waiting :=
  (congrArg BatchMode.pendingToolCalls h.kept).symm

def Received (codec : JsonCodec) (lastPulse : PulseTokens) (f : Forwarder) (b : BatchMode) (l : Ledger)
    (update : ConversationStreamUpdate) : Prop :=
  ∀ out f', forwardConversationUpdate codec f update = (out, some f') →
    b.receive lastPulse out =
        ((b.hear (heardText l update out)).credit (l.noted update)).keep (l.note update) ∧
      Coherent f' (b.receive lastPulse out) (l.note update)

section

variable {f : Forwarder} {b : BatchMode} {l : Ledger} (h : Coherent f b l)
include h

variable {update : ConversationStreamUpdate} {index : ℕ}

theorem received_pass {ui : UiUpdate} (hforward : forwardConversationUpdate codec f update = ([ui], some f))
    (hpass : (b.onModelUpdate lastPulse ui).1 = b) (hdelta : ui.delta? = none) (hnote : l.note update = l)
    (hnoted : l.noted update = {}) (hheard : heardText l update [ui] = Text.join "" (textDeltas [ui])) :
    Received codec lastPulse f b l update := by
  intro out f' hout
  obtain ⟨rfl, hf⟩ := Prod.mk.inj (hforward.symm.trans hout)
  obtain rfl := Option.some.inj hf
  have hdeltas : textDeltas [ui] = [] := by
    rw [textDeltas, List.filterMap_cons, hdelta]
    rfl
  have hreceive : b.receive lastPulse [ui] = b := hpass
  rw [hnote, hnoted, hheard, hdeltas, hreceive, settle h.kept]
  exact ⟨b.hear_empty.symm, h⟩

theorem received_delta (text : String) : Received codec lastPulse f b l (.delta text) := by
  intro out f' hout
  rw [forwardConversationUpdate, Forwarder.emitNormalisedText] at hout
  split at hout
  · cases hout
  obtain ⟨rfl, hf⟩ := Prod.mk.inj hout
  obtain rfl := Option.some.inj hf
  have hplace : ∀ index, none = some index → index ∈ b.currentTurnTextBlockIndices := by
    intro _ h
    cases h
  rw [receive_chunks hplace]
  refine ⟨(settle h.kept _).symm, ?_, h.forwarded, h.distinct⟩
  exact congrArg (BatchMode.hear · _) h.kept

omit h in
theorem mem_keys_setBlock {i : ℕ} {normaliser : StreamTextNormaliser} :
    i ∈ Assoc.keys (f.setBlock index normaliser).textualBlockByIndex ↔
      i = index ∨ i ∈ Assoc.keys f.textualBlockByIndex := by
  rw [Assoc.mem_keys_iff_find?, Assoc.mem_keys_iff_find?, Forwarder.setBlock, Assoc.find?_insertLast]
  split
  · rename_i heq
    exact ⟨fun _ => .inl heq, fun _ => rfl⟩
  · rename_i hne
    exact ⟨.inr, fun hmem => hmem.resolve_left hne⟩

theorem received_blockText {normaliser : StreamTextNormaliser} {text : String} {out : List UiUpdate}
    {f' : Forwarder} (hopen : index ∈ l.openBlocks)
    (hout : f.emitNormalisedBlockText codec normaliser index text = (out, some f')) :
    b.receive lastPulse out = b.hear (Text.join "" (textDeltas out)) ∧
      Coherent f' (b.receive lastPulse out) l := by
  rw [Forwarder.emitNormalisedBlockText] at hout
  split at hout
  · cases hout
  obtain ⟨rfl, hf⟩ := Prod.mk.inj hout
  obtain rfl := Option.some.inj hf
  have hplace : ∀ i, some index = some i → i ∈ b.currentTurnTextBlockIndices := by
    rintro i hi
    obtain rfl := Option.some.inj hi
    rw [h.openBlocks]
    exact hopen
  rw [receive_chunks hplace]
  refine ⟨rfl, congrArg (BatchMode.hear · _) h.kept, fun i => ?_, Assoc.nodup_keys_insertLast h.distinct _ _⟩
  rw [mem_keys_setBlock, h.forwarded]
  exact ⟨fun hi => hi.elim (· ▸ hopen) id, .inr⟩

theorem received_blockDelta (index : ℕ) (delta : String) :
    Received codec lastPulse f b l (.blockDelta index delta) := by
  intro out f' hout
  rw [forwardConversationUpdate, Forwarder.blockDelta] at hout
  cases hfind : Assoc.find? index f.textualBlockByIndex with
  | none =>
    rw [hfind] at hout
    obtain ⟨rfl, hf⟩ := Prod.mk.inj hout
    obtain rfl := Option.some.inj hf
    have hclosed : index ∉ l.openBlocks := by
      rw [← h.forwarded, Assoc.mem_keys_iff_find?, hfind]
      exact Bool.false_ne_true
    have hreceive : b.receive lastPulse [.streamBlockDelta index delta] = b := by
      show (if index ∈ b.currentTurnTextBlockIndices then _ else _ : BatchMode × Option Bool).1 = _
      rw [if_neg (by rwa [h.openBlocks])]
    have hheard : heardText l (.blockDelta index delta) [.streamBlockDelta index delta] = "" :=
      if_neg hclosed
    rw [hreceive, hheard]
    refine ⟨?_, h⟩
    show b = ((b.hear "").credit {}).keep l
    rw [settle h.kept, b.hear_empty]
  | some normaliser =>
    rw [hfind] at hout
    have hopen : index ∈ l.openBlocks := by
      rw [← h.forwarded, Assoc.mem_keys_iff_find?, hfind]
      rfl
    obtain ⟨hreceive, hcoherent⟩ := received_blockText h hopen hout
    have hheard : heardText l (.blockDelta index delta) out = Text.join "" (textDeltas out) :=
      if_pos hopen
    refine ⟨?_, hcoherent⟩
    rw [hheard, hreceive]
    exact (settle h.kept _).symm

theorem received_textBlock {block : StreamBlock} {content : String}
    (hforward : forwardConversationUpdate codec f update = f.textBlockStart codec index block content)
    (hstep : (b.onModelUpdate lastPulse (.streamBlockStart index block)).1 = b.openTextBlock index "")
    (hdelta : (UiUpdate.streamBlockStart index block).delta? = none)
    (hnote : l.note update = { l with openBlocks := Assoc.insertElem index l.openBlocks })
    (hnoted : l.noted update = {}) (hheard : ∀ out, heardText l update out = Text.join "" (textDeltas out)) :
    Received codec lastPulse f b l update := by
  intro out f' hout
  have hopened : b.openTextBlock index "" = b.keep (l.note update) := by
    rw [hnote, ← h.kept]
    show ({ b with
      currentTurnTextBlockIndices := Assoc.insertElem index l.openBlocks
      pendingToolCalls := l.waiting
      currentResponse := b.currentResponse ++ "" } : BatchMode) = _
    rw [String.append_empty]
    rfl
  have hcoherent : Coherent (f.setBlock index {}) (b.keep (l.note update)) (l.note update) := by
    refine ⟨rfl, fun i => ?_, Assoc.nodup_keys_insertLast h.distinct _ _⟩
    rw [mem_keys_setBlock, h.forwarded, hnote, Assoc.mem_insertElem]
  have hcons (texts : List UiUpdate) :
      textDeltas (.streamBlockStart index block :: texts) = textDeltas texts := by
    rw [textDeltas, List.filterMap_cons, hdelta]
    rfl
  have hgoal (heard : String) : ((b.hear heard).credit (l.noted update)).keep (l.note update) =
      (b.keep (l.note update)).hear heard := by
    rw [hnoted, BatchMode.credit_nothing]
    rfl
  rw [hforward, Forwarder.textBlockStart] at hout
  rw [hheard, hgoal]
  split at hout
  · obtain ⟨rfl, hf⟩ := Prod.mk.inj hout
    obtain rfl := Option.some.inj hf
    have hreceive : b.receive lastPulse [.streamBlockStart index block] = b.keep (l.note update) :=
      hstep.trans hopened
    rw [hcons, hreceive]
    exact ⟨(BatchMode.hear_empty _).symm, hcoherent⟩
  · cases htexts : (f.setBlock index {}).emitNormalisedBlockText codec {} index content with
    | mk texts f₁ =>
      rw [htexts] at hout
      obtain ⟨rfl, rfl⟩ := Prod.mk.inj hout
      have hopen : index ∈ (l.note update).openBlocks := by
        rw [hnote]
        exact Assoc.mem_insertElem.mpr (.inl rfl)
      have htext : (b.keep (l.note update)).receive lastPulse texts =
          (b.keep (l.note update)).hear (Text.join "" (textDeltas texts)) ∧
          Coherent f' ((b.keep (l.note update)).receive lastPulse texts) (l.note update) :=
        received_blockText hcoherent hopen htexts
      obtain ⟨hreceive, hafter⟩ := htext
      have hfirst : b.receive lastPulse (.streamBlockStart index block :: texts) =
          (b.keep (l.note update)).receive lastPulse texts := by
        rw [BatchMode.receive_cons, hstep, hopened]
      rw [hcons, hfirst, hreceive]
      exact ⟨rfl, hreceive ▸ hafter⟩

omit h in
/-- The text of a block in front of its end. -/
theorem textDeltas_complete (us : List UiUpdate) (index : ℕ) :
    textDeltas (us ++ [.streamBlockComplete index]) = textDeltas us := by
  rw [textDeltas_append]
  exact List.append_nil _

theorem complete_kept (text : String) (index : ℕ) :
    (b.hear text).receive lastPulse [.streamBlockComplete index] =
      (b.hear text).keep { l with openBlocks := l.openBlocks.filter (· ≠ index) } := by
  show ({ b.hear text with
    currentTurnTextBlockIndices := b.currentTurnTextBlockIndices.filter (· ≠ index) } : BatchMode) = _
  rw [h.openBlocks]
  show ({ b.hear text with
    currentTurnTextBlockIndices := l.openBlocks.filter (· ≠ index) } : BatchMode) =
      { b.hear text with
        currentTurnTextBlockIndices := l.openBlocks.filter (· ≠ index), pendingToolCalls := l.waiting }
  rw [← h.waiting]
  rfl

theorem received_blockComplete (index : ℕ) : Received codec lastPulse f b l (.blockComplete index) := by
  intro out f' hout
  have hgoal (heard : String) : ((b.hear heard).credit (l.noted (.blockComplete index))).keep
      (l.note (.blockComplete index)) =
      (b.hear heard).keep { l with openBlocks := l.openBlocks.filter (· ≠ index) } :=
    congrArg (BatchMode.keep · _) (BatchMode.credit_nothing _)
  have hopen (i : ℕ) : i ∈ l.openBlocks.filter (· ≠ index) ↔ i ≠ index ∧ i ∈ l.openBlocks := by
    rw [List.mem_filter, decide_eq_true_iff, and_comm]
  rw [hgoal]
  rw [forwardConversationUpdate, Forwarder.blockComplete] at hout
  cases hfind : Assoc.find? index f.textualBlockByIndex with
  | none =>
    rw [hfind] at hout
    obtain ⟨rfl, hf⟩ := Prod.mk.inj hout
    obtain rfl := Option.some.inj hf
    have hreceive : (b.hear "").receive lastPulse [.streamBlockComplete index] = _ :=
      complete_kept h "" index
    rw [BatchMode.hear_empty] at hreceive
    have hheard : heardText l (.blockComplete index) [.streamBlockComplete index] = "" := rfl
    rw [hheard, BatchMode.hear_empty, hreceive]
    refine ⟨rfl, rfl, fun i => ?_, h.distinct⟩
    show _ ↔ i ∈ l.openBlocks.filter (· ≠ index)
    rw [hopen, h.forwarded]
    refine ⟨fun hi => ⟨?_, hi⟩, And.right⟩
    rintro rfl
    rw [← h.forwarded, Assoc.mem_keys_iff_find?, hfind] at hi
    exact Bool.false_ne_true hi
  | some normaliser =>
    rw [hfind] at hout
    obtain ⟨rfl, hf⟩ := Prod.mk.inj hout
    obtain rfl := Option.some.inj hf
    have hplace : ∀ i, some index = some i → i ∈ b.currentTurnTextBlockIndices := by
      rintro i hi
      obtain rfl := Option.some.inj hi
      rw [h.openBlocks, ← h.forwarded, Assoc.mem_keys_iff_find?, hfind]
      rfl
    have hheard : heardText l (.blockComplete index)
        (emitNormalisedChunks normaliser.finish (some index) ++ [.streamBlockComplete index]) =
        Text.join "" (textDeltas (emitNormalisedChunks normaliser.finish (some index))) :=
      congrArg (Text.join "") (textDeltas_complete _ _)
    rw [hheard, BatchMode.receive_append, receive_chunks hplace, complete_kept h]
    refine ⟨rfl, rfl, fun i => ?_, Assoc.nodup_keys_erase h.distinct _⟩
    show i ∈ Assoc.keys (Assoc.erase index f.textualBlockByIndex) ↔ i ∈ l.openBlocks.filter (· ≠ index)
    rw [hopen, Assoc.mem_keys_erase, h.forwarded]

theorem received_otherBlock {block : StreamBlock}
    (hforward : forwardConversationUpdate codec f (.blockStart index block) =
      ([.streamBlockStart index block], some f))
    (hdelta : (UiUpdate.streamBlockStart index block).delta? = none)
    (hopen : (l.note (.blockStart index block)).openBlocks = l.openBlocks)
    (hstep : (b.onModelUpdate lastPulse (.streamBlockStart index block)).1 =
      (b.credit (l.noted (.blockStart index block))).keep (l.note (.blockStart index block))) :
    Received codec lastPulse f b l (.blockStart index block) := by
  intro out f' hout
  obtain ⟨rfl, hf⟩ := Prod.mk.inj (hforward.symm.trans hout)
  obtain rfl := Option.some.inj hf
  have hdeltas : textDeltas [UiUpdate.streamBlockStart index block] = [] := by
    rw [textDeltas, List.filterMap_cons, hdelta]
    rfl
  have hheard : heardText l (.blockStart index block) [.streamBlockStart index block] = "" :=
    congrArg (Text.join "") hdeltas
  have hreceive : b.receive lastPulse [.streamBlockStart index block] =
      (b.credit (l.noted (.blockStart index block))).keep (l.note (.blockStart index block)) := hstep
  rw [hheard, BatchMode.hear_empty, hreceive]
  refine ⟨rfl, rfl, fun i => ?_, h.distinct⟩
  rw [hopen, h.forwarded]

theorem received_toolCall (index : ℕ) (id name : String) (input : Value) (status : ToolStatus) :
    Received codec lastPulse f b l (.blockStart index (.toolCall id name input status)) := by
  refine received_otherBlock h rfl rfl rfl ?_
  have hcredit : b.credit (l.noted (.blockStart index (.toolCall id name input status))) = b :=
    b.credit_nothing
  rw [hcredit]
  show ({ b with
    pendingToolCalls := Assoc.insertLast id { name, input } b.pendingToolCalls } : BatchMode) =
      { b with
        currentTurnTextBlockIndices := l.openBlocks
        pendingToolCalls := Assoc.insertLast id { name, input } l.waiting }
  rw [← h.openBlocks, ← h.waiting]

theorem received_toolResult (index : ℕ) (id output : String) (isError : Bool) :
    Received codec lastPulse f b l (.blockStart index (.toolResult id output isError)) := by
  refine received_otherBlock h rfl rfl rfl ?_
  show b.noteResult id isError = (b.credit (notedEvidence (Assoc.find? id l.waiting) isError)).keep
    { l with waiting := Assoc.erase id l.waiting }
  rw [BatchMode.noteResult, h.waiting]
  cases hfind : Assoc.find? id l.waiting with
  | none =>
    have herase : Assoc.erase id l.waiting = l.waiting :=
      Assoc.erase_of_notMem_keys (Assoc.find?_eq_none_iff.mp hfind)
    rw [herase]
    show b = (b.credit {}).keep l
    rw [b.credit_nothing, h.kept]
  | some pending =>
    show _ = ({ b.credit (notedEvidence (some pending) isError) with
      currentTurnTextBlockIndices := l.openBlocks
      pendingToolCalls := Assoc.erase id l.waiting } : BatchMode)
    rw [← h.openBlocks]
    cases isError <;> rfl

/-- **One update of the conversation**: its text is heard, unless it is a delta of a block that is not
open; a result is evidence of the block that was shown last for its call; nothing else changes. -/
theorem receive_forwarded (herror : ∀ message, update ≠ .streamError message) :
    Received codec lastPulse f b l update := by
  cases update with
  | delta text => exact received_delta h text
  | blockStart index block =>
    cases block with
    | thinking content collapsed =>
      exact received_textBlock h rfl rfl rfl rfl rfl fun _ => rfl
    | finalText content => exact received_textBlock h rfl rfl rfl rfl rfl fun _ => rfl
    | toolCall id name input status => exact received_toolCall h index id name input status
    | toolResult id output isError => exact received_toolResult h index id output isError
  | blockDelta index delta => exact received_blockDelta h index delta
  | blockComplete index => exact received_blockComplete h index
  | streamError message => exact absurd rfl (herror message)
  | toolCallArgumentsUpdated | toolApprovalRequest | transcriptLine | serverMetadata
  | commandSessionStarted | commandSessionAttached | commandSessionFinished | contextCompacted =>
    exact received_pass h rfl rfl rfl rfl rfl rfl

end

/-! ### The end of a pulse -/

/-- The blocks that are still open give what was held back, each before its end. -/
theorem receive_finishBlocks (lastPulse : PulseTokens) {blocks : List (ℕ × StreamTextNormaliser)}
    (hdistinct : (Assoc.keys blocks).Nodup)
    (hopen : ∀ index ∈ Assoc.keys blocks, index ∈ b.currentTurnTextBlockIndices) :
    ∃ indices, b.receive lastPulse (finishBlocks blocks) =
      { b.hear (Text.join "" (textDeltas (finishBlocks blocks))) with
        currentTurnTextBlockIndices := indices } := by
  induction blocks generalizing b with
  | nil =>
    refine ⟨b.currentTurnTextBlockIndices, ?_⟩
    show b = { b.hear "" with currentTurnTextBlockIndices := b.currentTurnTextBlockIndices }
    rw [b.hear_empty]
  | cons block blocks ih =>
    obtain ⟨index, normaliser⟩ := block
    obtain ⟨hnotin, hrest⟩ := List.nodup_cons.mp hdistinct
    have hplace : ∀ i, some index = some i → i ∈ b.currentTurnTextBlockIndices := by
      rintro i hi
      obtain rfl := Option.some.inj hi
      exact hopen index List.mem_cons_self
    have hout : finishBlocks ((index, normaliser) :: blocks) =
        (emitNormalisedChunks normaliser.finish (some index) ++ [.streamBlockComplete index]) ++
          finishBlocks blocks := rfl
    rw [hout, textDeltas_append, textDeltas_complete, Text.join_empty_append,
      BatchMode.receive_append, BatchMode.receive_append, receive_chunks hplace]
    generalize Text.join "" (textDeltas (emitNormalisedChunks normaliser.finish (some index))) = text
    have hstill : ∀ i ∈ Assoc.keys blocks, i ∈ b.currentTurnTextBlockIndices.filter (· ≠ index) := by
      intro i hi
      refine List.mem_filter.mpr ⟨hopen i (List.mem_cons_of_mem _ hi), ?_⟩
      rw [decide_eq_true_iff]
      rintro rfl
      exact hnotin hi
    obtain ⟨indices, hreceive⟩ := ih (b := { b.hear text with
      currentTurnTextBlockIndices := b.currentTurnTextBlockIndices.filter (· ≠ index) }) hrest hstill
    refine ⟨indices, hreceive.trans ?_⟩
    rw [← BatchMode.hear_hear]
    rfl

end Vexcoder.App
