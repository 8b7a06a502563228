import Vexcoder.Tools.Checkpoints

/-!
# Evidence of changes

A call that succeeds is a tool result without an error: `current_turn_has_successful_mutation` counts it,
its paths become changed files and its snapshot goes on the undo stack.  The result of `write_file` for a
file that is there is a success as well, although only a patch was proposed.
-/

namespace Vexcoder.Tools

open Base
open Conversation (firstToolString)
open Lib.Files FileSystem
open Lib.Files.FileSystem (Plain)

/-! ### What is edited -/

variable {offset : ℕ} {entries : List PulseEntry} {id name : String}

theorem matchIndicesFrom_prefix {pat : List Char} {skip position : ℕ} {s : List Char}
    (h : offset ∈ matchIndicesFrom pat skip position s) :
    position ≤ offset ∧ pat <+: s.drop (offset - position) := by
  induction s generalizing skip position with
  | nil =>
    cases h
  | cons c s ih =>
    have later : ∀ {skip}, offset ∈ matchIndicesFrom pat skip (position + 1) s →
        position ≤ offset ∧ pat <+: (c :: s).drop (offset - position) := by
      intro skip h
      obtain ⟨hle, hpre⟩ := ih h
      refine ⟨by omega, ?_⟩
      rw [show offset - position = offset - (position + 1) + 1 by omega]
      exact hpre
    cases skip with
    | succ skip =>
      exact later h
    | zero =>
      rw [matchIndicesFrom] at h
      split at h
      · rename_i hpre
        rcases List.mem_cons.mp h with rfl | h
        · rw [Nat.sub_self]
          exact ⟨le_rfl, List.isPrefixOf_iff_prefix.mp hpre⟩
        · exact later h
      · exact later h

theorem matchIndices_split {content oldStr : String} (h : offset ∈ matchIndices content oldStr) :
    content.toList = content.toList.take offset ++ oldStr.toList ++
      content.toList.drop (offset + oldStr.toList.length) := by
  obtain ⟨-, rest, hrest⟩ := matchIndicesFrom_prefix h
  rw [Nat.sub_zero] at hrest
  have hdrop : content.toList.drop (offset + oldStr.toList.length) = rest := by
    rw [← List.drop_drop, ← hrest, List.drop_left]
  rw [hdrop, List.append_assoc, hrest, List.take_append_drop]

theorem anchoredOffset_mem {content : List Char} {windowStart windowEnd scannedTo currentLine : ℕ}
    {candidate : Option ℕ} {offsets : List ℕ}
    (h : anchoredOffset content windowStart windowEnd scannedTo currentLine candidate offsets =
      some offset) : candidate = some offset ∨ offset ∈ offsets := by
  induction offsets generalizing scannedTo currentLine candidate with
  | nil => exact .inl h
  | cons next offsets ih =>
    rw [anchoredOffset] at h
    split at h
    · split at h
      · cases h
      · rcases ih h with heq | hmem
        · cases heq
          exact .inr List.mem_cons_self
        · exact .inr (List.mem_cons_of_mem _ hmem)
    · rcases ih h with heq | hmem
      · exact .inl heq
      · exact .inr (List.mem_cons_of_mem _ hmem)

theorem editedContent_replaces {host : EditHost} {fs : FileSystem} {resolved : Plain}
    {content oldStr newStr new : String}
    (h : ToolOperator.editedContent host fs resolved content oldStr newStr = .ok new) :
    ∃ offset ∈ matchIndices content oldStr, new = replaceAt content oldStr newStr offset := by
  rw [ToolOperator.editedContent] at h
  split at h
  · cases h
  split at h
  · cases h
  split at h
  · cases h
  split at h
  · cases h
  · rename_i offset hmatch
    cases h
    exact ⟨offset, hmatch ▸ List.mem_singleton_self offset, rfl⟩
  · split at h
    · rename_i anchored hanchored
      cases h
      rw [anchoredUniqueReplacement] at hanchored
      split at hanchored
      · cases hanchored
      · obtain ⟨offset, hoffset, rfl⟩ := Option.map_eq_some_iff.mp hanchored
        rcases anchoredOffset_mem hoffset with hnone | hmem
        · cases hnone
        · exact ⟨offset, hmem, rfl⟩
    · cases h

/-! ### What a call is to leave -/

namespace ToolOperator

/-- The file that the call names holds what was asked for, or the rename has taken place. -/
def Accomplished (op : ToolOperator) (fs : FileSystem) : Request → FileSystem → Prop
  | .writeFile path content, fs' => readToString fs' (op.named path) = .ok content
  | .applyPatch path content, fs' => readToString fs' (op.named path) = .ok content
  | .editFile path oldStr newStr, fs' =>
    ∃ before after, readToString fs (op.named path) = .ok (String.ofList (before ++ oldStr.toList ++ after)) ∧
      readToString fs' (op.named path) = .ok (String.ofList (before ++ newStr.toList ++ after))
  | .renameFile oldPath newPath, fs' =>
    (op.named oldPath = op.named newPath ∧ fs' = fs) ∨
      ∃ fs₁ loc loc', fs.MoreDirectories fs₁ ∧ fs.entryAt (op.named oldPath) = some loc ∧
        fs₁.entryAt (op.named newPath) = some loc' ∧
        (∀ rest node, fs.node (loc ++ rest) = some node → fs'.node (loc' ++ rest) = some node) ∧
        (loc ≠ loc' → fs'.node loc = none)

/-- The entry of a path does not stand on the way to it. -/
def reachedPast (fs : FileSystem) (p : Plain) : Bool :=
  match fs.entry p with
  | .error _ => true
  | .ok (dir, name) => ((fs.removeEntry (dir ++ [name])).entry p).toOption == some (dir, name)

/-- A file is written that is not there or holds the content already; a patch goes through a file that
is no link, to a path that does not lead through its own target. -/
def Lands (op : ToolOperator) (fs : FileSystem) : Request → Prop
  | .writeFile path content =>
    fs.exists? (op.named path) = false ∨ readToString fs (op.named path) = .ok content
  | .applyPatch path _ =>
    withExtension (op.named path) "tmp" = op.named path ∨
      fs.isSymlink (withExtension (op.named path) "tmp") = false ∧
        reachedPast fs (op.named path) = true
  | .editFile .. => True
  | .renameFile .. => True

variable {op : ToolOperator} {host : EditHost} {fs fs' fs₁ : FileSystem} {path : String}

variable {p : Plain} {content : String}

theorem readToString_eq_iff :
    readToString fs p = .ok content ↔
      ∃ loc, fs.canonicalize p = .ok loc ∧ fs.node loc = some (.file content) := by
  rw [readToString]
  constructor
  · intro h
    split at h
    · cases h
    rename_i loc hcanon
    split at h
    · rename_i content' hnode
      cases h
      exact ⟨loc, hcanon, hnode⟩
    · cases h
  · rintro ⟨loc, hcanon, hnode⟩
    rw [hcanon]
    dsimp only
    rw [hnode]

theorem readAt_components (p : Plain) : fs.readAt p.components = readToString fs p := by
  rw [readAt, lookupAt_components, readToString, canonicalize]
  cases fs.lookup p with
  | error e => rfl
  | ok spot =>
    cases spot with
    | missing dir name => rfl
    | found loc => rfl

theorem read_of_write {loc : Location} (h : fs.write p content = .ok (fs', loc)) :
    readToString fs' p = .ok content :=
  readToString_eq_iff.mpr ⟨loc, write_found h⟩

/-- **`write_file` does what it reports** exactly when the file was not there or needed no change. -/
theorem write_accomplished_iff (h : op.Changes host fs (.writeFile path content) fs') :
    op.Accomplished fs (.writeFile path content) fs' ↔ op.Lands fs (.writeFile path content) := by
  cases h with
  | proposed _ _ hexists =>
    refine ⟨.inr, fun h => h.resolve_left ?_⟩
    rw [hexists]
    exact Bool.noConfusion
  | written _ hnew _ hwrite => exact iff_of_true (read_of_write hwrite) (.inl hnew)

theorem patch_accomplished (hlinks : fs.LinksArePaths) (hlands : op.Lands fs (.applyPatch path content))
    (h : op.Changes host fs (.applyPatch path content) fs') :
    op.Accomplished fs (.applyPatch path content) fs' := by
  cases h with
  | patched _ hdir hwrite hrename =>
    show readToString fs' (op.named path) = .ok content
    by_cases hne : withExtension (op.named path) "tmp" = op.named path
    · rw [hne] at hwrite hrename
      rw [renameTo_self hrename]
      exact read_of_write hwrite
    · obtain ⟨hlink, hpast⟩ := hlands.resolve_left hne
      obtain ⟨dir, name, tempName, hentry, htemp, rfl, hcurrent, hnode⟩ :=
        patched_node hlink hne hwrite hrename
      have hold := write_old hwrite
      have hfile := node_not_directory hdir hentry
      -- The directory is reached in what both file systems share.
      have hways : (fs.removeEntry (dir ++ [name])).KeepsWays fs' := by
        refine ⟨hcurrent.trans (removeEntry_current fs _).symm, fun other node h hother => ?_⟩
        rw [node_removeEntry hfile] at h
        split at h
        · cases h
        rename_i hne
        rw [hnode, if_neg hne, if_neg fun heq => ?_]
        · exact h
        · rw [← heq, h] at hold
          rcases hold with hnone | ⟨old, hold⟩
          · cases hnone
          · exact hother old (Option.some.inj hold)
      rw [reachedPast, hentry] at hpast
      dsimp only at hpast
      have hpast' : (fs.removeEntry (dir ++ [name])).entry (op.named path) = .ok (dir, name) := by
        cases hentry' : (fs.removeEntry (dir ++ [name])).entry (op.named path) with
        | error e =>
          rw [hentry'] at hpast
          cases hpast
        | ok found =>
          rw [hentry'] at hpast
          rw [Option.some.inj (eq_of_beq hpast)]
      have hreached := entry_keeps hways
        ((removeEntry_linksFrom fs _).linksArePaths hlinks) hpast'
      have hnew : fs'.node (dir ++ [name]) = some (.file content) := by
        rw [hnode, if_pos rfl]
      exact readToString_eq_iff.mpr ⟨_, canonicalize_of_entry hreached hnew, hnew⟩

theorem edit_accomplished {oldStr newStr : String}
    (h : op.Changes host fs (.editFile path oldStr newStr) fs') :
    op.Accomplished fs (.editFile path oldStr newStr) fs' := by
  cases h with
  | edited _ hread hedited hwrite =>
    rename_i old new loc _
    obtain ⟨offset, hmem, rfl⟩ := editedContent_replaces hedited
    refine ⟨old.toList.take offset, old.toList.drop (offset + oldStr.toList.length), ?_, ?_⟩
    · rw [← matchIndices_split hmem, String.ofList_toList]
      exact hread
    · exact read_of_write hwrite

theorem entryAt_of_exists (h : fs.exists? p = true) (hext : fs.Extends fs₁) {dir : Location}
    {name : String} (hentry : fs₁.entry p = .ok (dir, name)) : fs.entry p = .ok (dir, name) := by
  have hname : p.names ≠ [] := by
    obtain ⟨up, absolute, rfl, -⟩ := entry_inv hentry
    exact List.cons_ne_nil _ _
  obtain ⟨dir', name', hentry', -⟩ := entry_of_exists h hname
  have hsame := entry_extend hentry' hext
  rw [hentry] at hsame
  cases hsame
  exact hentry'

theorem rename_accomplished {oldPath newPath : String}
    (h : op.Changes host fs (.renameFile oldPath newPath) fs') :
    op.Accomplished fs (.renameFile oldPath newPath) fs' := by
  cases h with
  | stayed _ _ hsame => exact .inl ⟨hsame, rfl⟩
  | moved _ _ hexists _ hmade hrename =>
    have hmore := createParent_more hmade
    obtain ⟨dir, name, dir', name', hentry, hentry', hfs', node, hnode, hmoves⟩ :=
      renameTo_spec hrename
    refine .inr ⟨_, dir ++ [name], dir' ++ [name'], hmore, ?_, ?_, fun rest node' h => ?_,
      fun hne => ?_⟩
    · rw [entryAt, entryAt_of_exists hexists hmore.extends hentry]
    · rw [entryAt, hentry']
    · rcases hmoves with ⟨hsame, rfl⟩ | hmove
      · rw [← hsame]
        exact hmore.node h
      · rw [hfs', node_move hmove, if_pos (List.prefix_append _ rest), List.drop_left]
        exact hmore.node h
    · rcases hmoves with ⟨hsame, -⟩ | hmove
      · exact absurd hsame hne
      · rw [hfs', node_move_source hmove hnode]

/-- **A success that lands is true**: what the call was to leave is there. -/
theorem changes_accomplished {request : Request} (hlinks : fs.LinksArePaths)
    (hlands : op.Lands fs request) (h : op.Changes host fs request fs') :
    op.Accomplished fs request fs' := by
  cases request with
  | writeFile path content => exact (write_accomplished_iff h).mpr hlands
  | applyPatch path content => exact patch_accomplished hlinks hlands h
  | editFile path oldStr newStr => exact edit_accomplished h
  | renameFile oldPath newPath => exact rename_accomplished h

end ToolOperator

/-! ### The evidence of a turn -/

/-- The entries of a pulse that the evidence looks at. -/
inductive PulseEntry where
  | toolCall (id name : String)
  | toolResult (toolCallId : String) (isError : Bool)

def isTurnMutationTool (name : String) : Bool :=
  name == "write_file" || name == "apply_patch" || name == "edit_file" || name == "rename_file"

def mutatingToolIds (entries : List PulseEntry) : List String :=
  entries.filterMap fun entry => match entry with
    | .toolCall id name => if isTurnMutationTool name then some id else none
    | .toolResult .. => none

def currentTurnHasSuccessfulMutation (entries : List PulseEntry) : Bool :=
  if (mutatingToolIds entries).isEmpty then false
  else
    entries.any fun entry => match entry with
      | .toolCall .. => false
      | .toolResult toolCallId isError => !isError && (mutatingToolIds entries).contains toolCallId

def firstStringField (input : Value) (keys : List String) : Option String :=
  ((firstToolString input keys).map Text.trim).filter fun value => !Text.isEmpty value

/-- The paths that `note_changed_files_from_tool_call` adds. -/
def changedFilesOf (name : String) (input : Value) : List String :=
  if name = "write_file" || name = "apply_patch" || name = "edit_file" || name = "git_add" then
    (firstStringField input ["path", "file_path", "file", "filename"]).toList
  else if name = "rename_file" then
    ["old_path", "from", "source_path", "new_path", "to", "target_path"].filterMap fun key =>
      firstStringField input [key]
  else []

/-- A call that has been reported, with the files before and after it. -/
structure Report where
  call : ToolCall
  before : FileSystem
  after : FileSystem
  isError : Bool

structure TurnState where
  files : FileSystem
  entries : List PulseEntry := []
  changedFiles : List String := []
  undoStack : List UndoCheckpoint := []
  reports : List Report := []
  /-- The inputs of the `git_add` calls that have succeeded. -/
  staged : List Value := []

inductive TurnStep where
  | call (id : String) (call : ToolCall)
  /-- A call of another tool, and its result. -/
  | otherCall (id name : String) (input : Value) (isError : Bool)
  /-- What changes files apart from these calls. -/
  | outside (files : FileSystem)

def TurnState.step (op : ToolOperator) (host : MutationHost) (maxUndoCheckpoints : ℕ)
    (state : TurnState) : TurnStep → TurnState
  | .call id call =>
    let (undo, result) := callTool op host maxUndoCheckpoints
      { files := state.files, undoStack := state.undoStack } call
    let isError := !result.isOk
    { files := undo.files
      entries := state.entries ++ [.toolCall id call.tool.name, .toolResult id isError]
      changedFiles :=
        if isError then state.changedFiles
        else state.changedFiles ++ changedFilesOf call.tool.name call.input
      undoStack := undo.undoStack
      reports := state.reports ++ [{ call, before := state.files, after := undo.files, isError }]
      staged := state.staged }
  | .otherCall id name input isError =>
    { state with
      entries := state.entries ++ [.toolCall id name, .toolResult id isError]
      changedFiles :=
        if isError then state.changedFiles else state.changedFiles ++ changedFilesOf name input
      staged := if name = "git_add" && !isError then state.staged ++ [input] else state.staged }
  | .outside files => { state with files }

/-- The calls of a step land; other tools are other tools. -/
def TurnStep.Lands (op : ToolOperator) (state : TurnState) : TurnStep → Prop
  | .call _ toolCall =>
    state.files.LinksArePaths ∧
      match toolRequest toolCall.tool toolCall.input with
      | .error _ => True
      | .ok request => op.Lands state.files request
  | .otherCall _ name _ _ => isTurnMutationTool name = false
  | .outside _ => True

def TurnState.run (op : ToolOperator) (host : MutationHost) (maxUndoCheckpoints : ℕ)
    (state : TurnState) (steps : List TurnStep) : TurnState :=
  steps.foldl (TurnState.step op host maxUndoCheckpoints) state

def LandsAlong (op : ToolOperator) (host : MutationHost) (maxUndoCheckpoints : ℕ) :
    TurnState → List TurnStep → Prop
  | _, [] => True
  | state, step :: steps =>
    step.Lands op state ∧ LandsAlong op host maxUndoCheckpoints
      (state.step op host maxUndoCheckpoints step) steps

def entryIds (entries : List PulseEntry) : List String :=
  entries.filterMap fun entry => match entry with
    | .toolCall id _ => some id
    | .toolResult .. => none

/-- A report of a success is true. -/
def Report.Accomplished (op : ToolOperator) (report : Report) : Prop :=
  report.isError = false ∧ ∃ request, toolRequest report.call.tool report.call.input = .ok request ∧
    op.Accomplished report.before request report.after

/-- What is reported as a success, counted as a change, listed as a changed file or kept for `/undo`
stands for calls that have done what they were to do. -/
structure EvidenceSound (op : ToolOperator) (state : TurnState) : Prop where
  answered : ∀ id isError, .toolResult id isError ∈ state.entries → id ∈ entryIds state.entries
  reported : ∀ report ∈ state.reports, report.isError = false → report.Accomplished op
  counted : (entryIds state.entries).Nodup → currentTurnHasSuccessfulMutation state.entries = true →
    ∃ report ∈ state.reports, report.Accomplished op
  changed : ∀ path ∈ state.changedFiles,
    (∃ report ∈ state.reports, report.Accomplished op ∧
      path ∈ changedFilesOf report.call.tool.name report.call.input) ∨
    ∃ input ∈ state.staged, path ∈ changedFilesOf "git_add" input
  undoable : ∀ checkpoint ∈ state.undoStack, ∃ report ∈ state.reports, report.Accomplished op ∧
    captureUndoSnapshot op report.before report.call = some checkpoint

/-! ### One step -/

theorem counted_iff :
    currentTurnHasSuccessfulMutation entries = true ↔
      ∃ id ∈ mutatingToolIds entries, .toolResult id false ∈ entries := by
  rw [currentTurnHasSuccessfulMutation]
  constructor
  · intro h
    split at h
    · cases h
    obtain ⟨entry, hmem, hentry⟩ := List.any_eq_true.mp h
    cases entry with
    | toolCall id name => cases hentry
    | toolResult id isError =>
      obtain ⟨herror, hid⟩ := (Bool.and_eq_true _ _).mp hentry
      rw [Bool.not_eq_true'] at herror
      exact ⟨id, List.contains_iff_mem.mp hid, herror ▸ hmem⟩
  · rintro ⟨id, hid, hmem⟩
    rw [if_neg fun hempty => List.ne_nil_of_mem hid (List.isEmpty_iff.mp hempty)]
    refine List.any_eq_true.mpr ⟨_, hmem, ?_⟩
    exact (Bool.and_eq_true _ _).mpr ⟨rfl, List.contains_iff_mem.mpr hid⟩

theorem mutatingToolIds_sublist (entries : List PulseEntry) :
    ∀ id ∈ mutatingToolIds entries, id ∈ entryIds entries := by
  intro id h
  obtain ⟨entry, hmem, hentry⟩ := List.mem_filterMap.mp h
  refine List.mem_filterMap.mpr ⟨entry, hmem, ?_⟩
  cases entry with
  | toolCall id' name =>
    dsimp only at hentry ⊢
    split at hentry
    · exact hentry
    · cases hentry
  | toolResult id' isError => cases hentry

/-- A call and its result make a change counted only when the call changes files and succeeds. -/
theorem counted_append {isError : Bool}
    (hanswered : ∀ id isError, .toolResult id isError ∈ entries → id ∈ entryIds entries)
    (hnodup : (entryIds (entries ++ [.toolCall id name, .toolResult id isError])).Nodup)
    (h : currentTurnHasSuccessfulMutation (entries ++ [.toolCall id name, .toolResult id isError]) = true) :
    (entryIds entries).Nodup ∧ currentTurnHasSuccessfulMutation entries = true ∨
      isTurnMutationTool name = true ∧ isError = false := by
  have hids : entryIds (entries ++ [.toolCall id name, .toolResult id isError]) =
      entryIds entries ++ [id] := by
    rw [entryIds, List.filterMap_append]
    rfl
  rw [hids, List.nodup_append] at hnodup
  obtain ⟨hnodup, -, hapart⟩ := hnodup
  have hfresh : id ∉ entryIds entries := fun h => hapart id h id List.mem_cons_self rfl
  have hmutating : ∀ id' ∈ mutatingToolIds (entries ++ [.toolCall id name, .toolResult id isError]),
      id' ∈ mutatingToolIds entries ∨ id' = id ∧ isTurnMutationTool name = true := by
    intro id' h
    rw [mutatingToolIds, List.filterMap_append] at h
    rcases List.mem_append.mp h with h | h
    · exact .inl h
    obtain ⟨entry, hmem, hentry⟩ := List.mem_filterMap.mp h
    rcases List.mem_pair.mp hmem with rfl | rfl
    · dsimp only at hentry
      split at hentry
      · rename_i hname
        cases hentry
        exact .inr ⟨rfl, hname⟩
      · cases hentry
    · cases hentry
  obtain ⟨id', hid, hresult⟩ := counted_iff.mp h
  rcases List.mem_append.mp hresult with hold | hnew
  · rcases hmutating id' hid with hid | ⟨rfl, -⟩
    · exact .inl ⟨hnodup, counted_iff.mpr ⟨id', hid, hold⟩⟩
    · exact absurd (hanswered _ _ hold) hfresh
  · have heq : id' = id ∧ isError = false := by
      rcases List.mem_pair.mp hnew with heq | heq
      · cases heq
      · cases heq
        exact ⟨rfl, rfl⟩
    obtain ⟨rfl, rfl⟩ := heq
    rcases hmutating id' hid with hid | ⟨-, hname⟩
    · exact absurd (mutatingToolIds_sublist entries id' hid) hfresh
    · exact .inr ⟨hname, rfl⟩

theorem answered_append (id name : String) (isError : Bool)
    (h : ∀ id isError, .toolResult id isError ∈ entries → id ∈ entryIds entries) :
    ∀ id' isError', .toolResult id' isError' ∈ entries ++ [.toolCall id name, .toolResult id isError] →
      id' ∈ entryIds (entries ++ [.toolCall id name, .toolResult id isError]) := by
  intro id' isError' hmem
  have hids : entryIds (entries ++ [.toolCall id name, .toolResult id isError]) =
      entryIds entries ++ [id] := by
    rw [entryIds, List.filterMap_append]
    rfl
  rw [hids]
  rcases List.mem_append.mp hmem with hold | hnew
  · exact List.mem_append_left _ (h id' isError' hold)
  · rcases List.mem_pair.mp hnew with heq | heq
    · cases heq
    · cases heq
      exact List.mem_append_right _ List.mem_cons_self

variable {op : ToolOperator} {host : MutationHost} {maxUndoCheckpoints : ℕ} {state : TurnState}

theorem call_sound (hsound : EvidenceSound op state) {call : ToolCall}
    (hlands : (TurnStep.call id call).Lands op state) :
    EvidenceSound op (state.step op host maxUndoCheckpoints (.call id call)) := by
  obtain ⟨undo, result, hcall⟩ : ∃ undo result, callTool op host maxUndoCheckpoints
      { files := state.files, undoStack := state.undoStack } call = (undo, result) := ⟨_, _, rfl⟩
  obtain ⟨isError, herror⟩ : ∃ isError, (!result.isOk) = isError := ⟨_, rfl⟩
  have hdone : isError = false → Report.Accomplished op
      { call, before := state.files, after := undo.files, isError } := by
    rintro rfl
    cases result with
    | error e => cases herror
    | ok text =>
      obtain ⟨⟨request, hrequest, hchanges⟩, -⟩ := callTool_ok hcall
      obtain ⟨hlinks, hlands⟩ := hlands
      rw [hrequest] at hlands
      exact ⟨rfl, request, hrequest, ToolOperator.changes_accomplished hlinks hlands hchanges⟩
  have hstack : ∀ checkpoint ∈ undo.undoStack, checkpoint ∈ state.undoStack ∨
      isError = false ∧ captureUndoSnapshot op state.files call = some checkpoint := by
    intro checkpoint hmem
    cases result with
    | error e =>
      rw [callTool_error hcall] at hmem
      exact .inl hmem
    | ok text =>
      obtain ⟨-, hstack⟩ := callTool_ok hcall
      rw [hstack, pushedSnapshot] at hmem
      split at hmem
      · rename_i taken htaken
        rcases mem_pushUndoCheckpoint hmem with hmem | rfl
        · exact .inl hmem
        · exact .inr ⟨herror.symm, htaken⟩
      · exact .inl hmem
  rw [TurnState.step, hcall]
  dsimp only
  rw [herror]
  have hnew := List.mem_append_right state.reports (List.mem_singleton_self
    (Report.mk call state.files undo.files isError))
  have old : ∀ {P : Report → Prop}, (∃ report ∈ state.reports, P report) →
      ∃ report ∈ state.reports ++
        [{ call, before := state.files, after := undo.files, isError }], P report := by
    rintro P ⟨report, hmem, hreport⟩
    exact ⟨report, List.mem_append_left _ hmem, hreport⟩
  refine ⟨answered_append id _ _ hsound.answered, fun report hmem hok => ?_,
    fun hnodup hcounted => ?_, fun path hpath => ?_, fun checkpoint hmem => ?_⟩
  · rcases List.mem_append.mp hmem with hmem | hmem
    · exact hsound.reported report hmem hok
    · rw [List.mem_singleton.mp hmem] at hok ⊢
      exact hdone hok
  · rcases counted_append hsound.answered hnodup hcounted with ⟨hnodup, hcounted⟩ | ⟨-, hok⟩
    · exact old (hsound.counted hnodup hcounted)
    · exact ⟨_, hnew, hdone hok⟩
  · have hchanged : path ∈ state.changedFiles ∨
        isError = false ∧ path ∈ changedFilesOf call.tool.name call.input := by
      cases isError with
      | true => exact .inl hpath
      | false => exact (List.mem_append.mp hpath).imp_right fun hpath => ⟨rfl, hpath⟩
    rcases hchanged with hold | ⟨hok, hpath⟩
    · exact (hsound.changed path hold).imp_left old
    · exact .inl ⟨_, hnew, hdone hok, hpath⟩
  · rcases hstack checkpoint hmem with hold | ⟨hok, htaken⟩
    · exact old (hsound.undoable checkpoint hold)
    · exact ⟨_, hnew, hdone hok, htaken⟩

/-- Of the other tools `git_add` alone is taken to change files. -/
theorem changedFilesOf_other (h : isTurnMutationTool name = false) {input : Value} {path : String}
    (hpath : path ∈ changedFilesOf name input) : name = "git_add" := by
  simp only [isTurnMutationTool, Bool.or_eq_false_iff, beq_eq_false_iff_ne] at h
  obtain ⟨⟨⟨hwrite, hpatch⟩, hedit⟩, hrename⟩ := h
  by_contra hadd
  rw [changedFilesOf, if_neg (by simp [hwrite, hpatch, hedit, hadd]), if_neg hrename] at hpath
  cases hpath

theorem otherCall_sound (hsound : EvidenceSound op state) {input : Value} {isError : Bool}
    (hname : isTurnMutationTool name = false) :
    EvidenceSound op (state.step op host maxUndoCheckpoints (.otherCall id name input isError)) := by
  refine ⟨answered_append id _ _ hsound.answered, hsound.reported, fun hnodup hcounted => ?_,
    fun path hpath => ?_, hsound.undoable⟩
  · rcases counted_append hsound.answered hnodup hcounted with ⟨hnodup, hcounted⟩ | ⟨hchanges, -⟩
    · exact hsound.counted hnodup hcounted
    · rw [hname] at hchanges
      cases hchanges
  · cases isError with
    | true =>
      refine (hsound.changed path hpath).imp_right ?_
      rintro ⟨input', hmem, hinput⟩
      exact ⟨input', by rw [TurnState.step, Bool.not_true, Bool.and_false]; exact hmem, hinput⟩
    | false =>
      rcases List.mem_append.mp hpath with hpath | hpath
      · refine (hsound.changed path hpath).imp_right ?_
        rintro ⟨input', hmem, hinput⟩
        refine ⟨input', ?_, hinput⟩
        rw [TurnState.step]
        dsimp only
        split
        · exact List.mem_append_left _ hmem
        · exact hmem
      · obtain rfl := changedFilesOf_other hname hpath
        exact .inr ⟨input, List.mem_append_right _ (List.mem_singleton_self input), hpath⟩

/-- **A step keeps the evidence sound** when its call lands. -/
theorem step_sound (hsound : EvidenceSound op state) {step : TurnStep} (hlands : step.Lands op state) :
    EvidenceSound op (state.step op host maxUndoCheckpoints step) := by
  cases step with
  | call id call => exact call_sound hsound hlands
  | otherCall id name input isError => exact otherCall_sound hsound hlands
  | outside files =>
    exact ⟨hsound.answered, hsound.reported, hsound.counted, hsound.changed, hsound.undoable⟩

/-! ### Whole turns -/

theorem run_sound {steps : List TurnStep} (hsound : EvidenceSound op state)
    (hlands : LandsAlong op host maxUndoCheckpoints state steps) :
    EvidenceSound op (state.run op host maxUndoCheckpoints steps) := by
  induction steps generalizing state with
  | nil => exact hsound
  | cons step steps ih => exact ih (step_sound hsound hlands.1) hlands.2

theorem start_sound (op : ToolOperator) (files : FileSystem) : EvidenceSound op { files } where
  answered _ _ h := nomatch h
  reported _ h := nomatch h
  counted _ h := nomatch h
  changed _ h := nomatch h
  undoable _ h := nomatch h

/-- **Evidence of changes is sound** in every state of a turn whose calls land. -/
theorem evidence_sound_along_turn (op : ToolOperator) (host : MutationHost)
    (maxUndoCheckpoints : ℕ) (files : FileSystem) (steps : List TurnStep)
    (hlands : LandsAlong op host maxUndoCheckpoints { files } steps) :
    EvidenceSound op (TurnState.run op host maxUndoCheckpoints { files } steps) :=
  run_sound (start_sound op files) hlands

/-! ### A turn that lands, and a proposal that counts as a change -/

def sampleFiles : FileSystem where
  entries := [(["ws"], .directory), (["ws", "a"], .file "1")]
  current := ["ws"]
  tree := by decide +kernel

def sampleOperator : ToolOperator := .new sampleFiles [.rootDir, .normal "ws"]

def sampleHost : MutationHost :=
  { ToolOperator.plainHost with writeFileMaxLines := 400, diffPreferredAboveLines := 200 }

def writeCall (path content : String) : ToolCall :=
  { tool := .writeFile, input := .object [("content", .string content), ("path", .string path)] }

def renameCall (oldPath newPath : String) : ToolCall :=
  { tool := .renameFile
    input := .object [("new_path", .string newPath), ("old_path", .string oldPath)] }

theorem evidence_sound_along_sample_turn :
    EvidenceSound sampleOperator (TurnState.run sampleOperator sampleHost 10 { files := sampleFiles }
      [.call "t1" (writeCall "b" "2"), .call "t2" (renameCall "a" "c")]) := by
  refine evidence_sound_along_turn sampleOperator sampleHost 10 sampleFiles _
    ⟨⟨?_, ?_⟩, ⟨?_, ?_⟩, trivial⟩
  · exact linksArePaths_of_entries (by decide +kernel)
  · exact Or.inl (by decide +kernel)
  · exact linksArePaths_of_entries (by decide +kernel)
  · exact trivial

/-- The file that is there keeps its content, and the call counts as a change. -/
theorem proposal_counts_as_change :
    let state := TurnState.run sampleOperator sampleHost 10 { files := sampleFiles }
      [.call "t1" (writeCall "a" "2")]
    currentTurnHasSuccessfulMutation state.entries = true ∧ state.changedFiles = ["a"] ∧
      state.undoStack.length = 1 ∧ state.reports.map Report.isError = [false] ∧
      readToString state.files (sampleOperator.named "a") = .ok "1" := by
  decide +kernel

end Vexcoder.Tools
