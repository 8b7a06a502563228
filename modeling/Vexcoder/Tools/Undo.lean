import Vexcoder.Tools.Evidence

/-!
# `/undo`

Calls are undone from the last one to the first.  A call can be undone when its snapshot reads the paths
that the executor reads, and the file that the snapshot holds is all that the call changes; directories
that calls have made stay.
-/

namespace Vexcoder.Tools

open Base
open Lib.Files FileSystem ToolOperator
open Lib.Files.FileSystem (Plain)
open Tools.ToolOperator (createParent)

/-! ### Runs of calls and of `/undo` -/

def runCalls (op : ToolOperator) (host : MutationHost) (maxUndoCheckpoints : ℕ) :
    UndoState → List ToolCall → UndoState × List (Except ToolError String)
  | state, [] => (state, [])
  | state, call :: calls =>
    let (state, result) := callTool op host maxUndoCheckpoints state call
    let (state, results) := runCalls op host maxUndoCheckpoints state calls
    (state, result :: results)

def undoTimes : ℕ → UndoState → UndoState × List UndoReport
  | 0, state => (state, [])
  | n + 1, state =>
    let (state, report) := handleUndoCommand true state
    let (state, reports) := undoTimes n state
    (state, report :: reports)

/-! ### Calls that can be undone -/

/-- A path that the snapshot takes is the one that the executor resolves. -/
def TakenAs (op : ToolOperator) (taken : Option String) (path : String) : Prop :=
  taken.map (fun path => FileSystem.undot (rawJoin op.workingDir path)) = some (op.named path).components

/-- The directories in front of a path are not where renames have left a place. -/
def Avoids (fs : FileSystem) (vacated : List Location) (p : Plain) : Prop :=
  ∀ loc ∈ vacated, (createParent fs p).1.node loc = fs.node loc

instance (op : ToolOperator) (taken : Option String) (path : String) :
    Decidable (TakenAs op taken path) := inferInstanceAs (Decidable (_ = _))

instance (fs : FileSystem) (vacated : List Location) (p : Plain) :
    Decidable (Avoids fs vacated p) := inferInstanceAs (Decidable (∀ loc ∈ vacated, _))

def isFile (fs : FileSystem) (loc : Location) : Bool :=
  match fs.node loc with
  | some (.file _) => true
  | _ => false

/-- What makes a call one that can be undone; `vacated` are the sources of the renames so far. -/
def Undoable (op : ToolOperator) (fs : FileSystem) (vacated : List Location) (call : ToolCall) :
    Request → Prop
  | .writeFile path _ =>
    TakenAs op call.snapshotPath path ∧
      (fs.exists? (op.named path) = true ∨
        fs.isSymlink (op.named path) = false ∧ Avoids fs vacated (op.named path))
  | .applyPatch path _ =>
    TakenAs op call.snapshotPath path ∧ fs.isSymlink (op.named path) = false ∧
      (withExtension (op.named path) "tmp" = op.named path ∨
        fs.exists? (withExtension (op.named path) "tmp") = false ∧
          fs.isSymlink (withExtension (op.named path) "tmp") = false)
  | .editFile path .. => TakenAs op call.snapshotPath path
  | .renameFile oldPath newPath =>
    TakenAs op call.snapshotPath oldPath ∧ TakenAs op call.cleanupPath newPath ∧
      (fs.entryAt (op.named oldPath)).any (isFile fs) = true ∧
      (op.named oldPath = op.named newPath ∨
        fs.exists? (op.named newPath) = false ∧ fs.isSymlink (op.named newPath) = false ∧
          Avoids fs vacated (op.named newPath))

instance decidableUndoable (op : ToolOperator) (fs : FileSystem) (vacated : List Location)
    (call : ToolCall) (request : Request) : Decidable (Undoable op fs vacated call request) :=
  match request with
  | .writeFile .. => inferInstanceAs (Decidable (_ ∧ (_ ∨ _ ∧ _)))
  | .applyPatch .. => inferInstanceAs (Decidable (_ ∧ _ ∧ (_ ∨ _ ∧ _)))
  | .editFile .. => inferInstanceAs (Decidable (TakenAs ..))
  | .renameFile .. => inferInstanceAs (Decidable (_ ∧ _ ∧ _ ∧ (_ ∨ _ ∧ _ ∧ _)))

def vacatedBy (op : ToolOperator) (fs : FileSystem) : Request → List Location
  | .renameFile oldPath newPath =>
    if op.named oldPath = op.named newPath then [] else (fs.entryAt (op.named oldPath)).toList
  | _ => []

def AllUndoable (op : ToolOperator) (host : MutationHost) (maxUndoCheckpoints : ℕ) :
    List Location → UndoState → List ToolCall → Prop
  | _, _, [] => True
  | vacated, state, call :: calls =>
    match toolRequest call.tool call.input with
    | .error _ => True
    | .ok request =>
      Undoable op state.files vacated call request ∧
        AllUndoable op host maxUndoCheckpoints (vacated ++ vacatedBy op state.files request)
          (callTool op host maxUndoCheckpoints state call).1 calls

def decidableAllUndoable (op : ToolOperator) (host : MutationHost) (maxUndoCheckpoints : ℕ) :
    (vacated : List Location) → (state : UndoState) → (calls : List ToolCall) →
      Decidable (AllUndoable op host maxUndoCheckpoints vacated state calls)
  | _, _, [] => isTrue trivial
  | vacated, state, call :: calls =>
    match h : toolRequest call.tool call.input with
    | .error _ => isTrue (by rw [AllUndoable, h]; trivial)
    | .ok request =>
      have := decidableAllUndoable op host maxUndoCheckpoints
        (vacated ++ vacatedBy op state.files request)
        (callTool op host maxUndoCheckpoints state call).1 calls
      decidable_of_iff (Undoable op state.files vacated call request ∧
        AllUndoable op host maxUndoCheckpoints (vacated ++ vacatedBy op state.files request)
          (callTool op host maxUndoCheckpoints state call).1 calls) (by rw [AllUndoable, h])

instance (op : ToolOperator) (host : MutationHost) (maxUndoCheckpoints : ℕ)
    (vacated : List Location) (state : UndoState) (calls : List ToolCall) :
    Decidable (AllUndoable op host maxUndoCheckpoints vacated state calls) :=
  decidableAllUndoable op host maxUndoCheckpoints vacated state calls

/-! ### File systems that agree -/

/-- The same files and links, perhaps more directories, and none of them at certain places. -/
def Restores (vacated : List Location) (fs fs' : FileSystem) : Prop :=
  fs.MoreDirectories fs' ∧ ∀ loc ∈ vacated, fs'.node loc = fs.node loc

variable {op : ToolOperator} {host : EditHost} {fs fs' fs₁ g g' : FileSystem} {vacated : List Location}

theorem Restores.refl (vacated : List Location) (fs : FileSystem) : Restores vacated fs fs :=
  ⟨.refl fs, fun _ _ => rfl⟩

theorem restores_of_places {places : List Location} (hmade : Restores vacated fs fs₁)
    (hchanged : ∀ other, other ∉ places → fs'.node other = fs₁.node other)
    (hcurrent : fs'.current = fs.current) (h : Restores vacated fs' g')
    (hback : ∀ other, g.node other = if other ∈ places then fs.node other else g'.node other)
    (hcurrent' : g.current = g'.current) : Restores vacated fs g := by
  refine ⟨⟨hcurrent'.trans (h.1.1.trans hcurrent), fun other => ?_⟩, fun loc hloc => ?_⟩
  · rw [hback]
    split
    · exact .inl rfl
    rename_i hplace
    rcases h.1.2 other with hsame | ⟨hnone, hnew⟩
    · rw [hsame, hchanged other hplace]
      exact hmade.1.2 other
    rw [hchanged other hplace] at hnone
    rcases hmade.1.2 other with hsame | ⟨-, hdir⟩
    · exact .inr ⟨hsame.symm.trans hnone, hnew⟩
    · rw [hnone] at hdir
      cases hdir
  · rw [hback]
    split
    · rfl
    · rename_i hplace
      rw [h.2 loc hloc, hchanged loc hplace, hmade.2 loc hloc]

/-- **The same files**: what is restored has every file with its content, and no other. -/
theorem Restores.file_iff (h : Restores vacated fs fs') (loc : Location) (content : String) :
    fs'.node loc = some (.file content) ↔ fs.node loc = some (.file content) := by
  constructor
  · intro hnode
    rcases h.1.2 loc with hsame | ⟨-, hnew⟩
    · exact hsame.symm.trans hnode
    · rw [hnode] at hnew
      cases hnew
  · exact h.1.node

/-! ### Reverting one checkpoint -/

/-- A checkpoint of a file system for the paths that a call names. -/
structure Snapshot (fs : FileSystem) (checkpoint : UndoCheckpoint) (p : Plain)
    (cleanup : Option Plain) : Prop where
  path : FileSystem.undot checkpoint.path = p.components
  cleanup : checkpoint.cleanupPath.map FileSystem.undot = cleanup.map Plain.components
  previous : checkpoint.previousContent = (readToString fs p).toOption

variable {checkpoint : UndoCheckpoint} {p target : Plain} {cleanup : Option Plain}
  {loc dir : Location} {name : String} {remaining : ℕ}

def reverted (checkpoint : UndoCheckpoint) (remaining : ℕ) : UndoReport :=
  .reverted checkpoint.toolName checkpoint.path remaining

theorem restorePath_write (hs : Snapshot fs checkpoint p cleanup) {old : String}
    (hread : readToString fs p = .ok old) (hwrite : g'.write p old = .ok (g, loc)) :
    restorePath g' checkpoint remaining = (g, reverted checkpoint remaining) := by
  have hprevious : checkpoint.previousContent = some old := by
    rw [hs.previous, hread]
    rfl
  have hwriteAt : g'.writeAt checkpoint.path old = .ok g := by
    rw [← writeAt_undot, hs.path, writeAt_components, hwrite]
    rfl
  rw [restorePath, hprevious]
  dsimp only
  rw [hwriteAt]
  rfl

variable {content : String}

theorem removeIfThere_file {path : List Component} (hpath : FileSystem.undot path = p.components)
    (hentry : fs.entry p = .ok (dir, name)) (hnode : fs.node (dir ++ [name]) = some (.file content)) :
    removeIfThere fs path = .ok (fs.removeEntry (dir ++ [name])) := by
  have hexists : fs.existsAt path = true := by
    rw [← existsAt_undot, hpath, existsAt_components, exists?,
      canonicalize_of_entry hentry hnode]
    rfl
  have hremove : fs.removeAt path = .ok (fs.removeEntry (dir ++ [name])) := by
    rw [← removeAt_undot, hpath, removeAt_of_entry hentry, hnode]
  rw [removeIfThere, hexists, hremove]
  rfl

theorem restorePath_remove (hs : Snapshot fs checkpoint p cleanup) (hnew : fs.exists? p = false)
    (hentry : g'.entry p = .ok (dir, name)) (hnode : g'.node (dir ++ [name]) = some (.file content)) :
    restorePath g' checkpoint remaining =
      (g'.removeEntry (dir ++ [name]), reverted checkpoint remaining) := by
  have hprevious : checkpoint.previousContent = none := by
    rw [hs.previous, readToString]
    rw [exists?] at hnew
    cases hcanon : fs.canonicalize p with
    | ok loc =>
      rw [hcanon] at hnew
      cases hnew
    | error e => rfl
  rw [restorePath, hprevious]
  rw [removeIfThere_file hs.path hentry hnode]
  rfl

theorem revert_no_cleanup (hs : Snapshot fs checkpoint p none) :
    revert g' checkpoint remaining = restorePath g' checkpoint remaining := by
  have hcleanup : checkpoint.cleanupPath = none := Option.map_eq_none_iff.mp hs.cleanup
  rw [revert, hcleanup]

theorem revert_over (hs : Snapshot fs checkpoint p none) {old : String}
    (hread : readToString fs p = .ok old) (hold : fs.node loc = some (.file old))
    (hcanon : fs'.canonicalize p = .ok loc) (hnode : fs'.node loc = some (.file content))
    (hchanged : ∀ other, other ≠ loc → fs'.node other = fs.node other)
    (hcurrent : fs'.current = fs.current) (h : Restores vacated fs' g') :
    ∃ g, revert g' checkpoint remaining = (g, reverted checkpoint remaining) ∧
      Restores vacated fs g := by
  obtain ⟨g, hwrite⟩ := write_over
    (canonicalize_extend hcanon h.1.extends) (h.1.node hnode) old
  refine ⟨g, ?_, ?_⟩
  · rw [revert_no_cleanup hs, restorePath_write hs hread hwrite]
  · refine @restores_of_places fs fs' fs g g' vacated [loc] (.refl vacated fs) (fun other hother => ?_)
      hcurrent h (fun other => ?_) (write_spec hwrite).2.1
    · exact hchanged other fun heq => hother (List.mem_singleton.mpr heq)
    · rw [write_node hwrite]
      by_cases hloc : other = loc
      · rw [if_pos hloc, if_pos (List.mem_singleton.mpr hloc), hloc, hold]
      · rw [if_neg hloc, if_neg fun hmem => hloc (List.mem_singleton.mp hmem)]

theorem revert_away (hs : Snapshot fs checkpoint p none) (hnew : fs.exists? p = false)
    (hnone : fs.node (dir ++ [name]) = none) (hentry : fs'.entry p = .ok (dir, name))
    (hnode : fs'.node (dir ++ [name]) = some (.file content)) (hmade : Restores vacated fs fs₁)
    (hchanged : ∀ other, other ≠ dir ++ [name] → fs'.node other = fs₁.node other)
    (hcurrent : fs'.current = fs.current) (h : Restores vacated fs' g') :
    ∃ g, revert g' checkpoint remaining = (g, reverted checkpoint remaining) ∧
      Restores vacated fs g := by
  have hentry' := entry_extend hentry h.1.extends
  have hnode' := h.1.node hnode
  have hfile : g'.node (dir ++ [name]) ≠ some .directory := by
    rw [hnode']
    exact fun h => nomatch h
  refine ⟨g'.removeEntry (dir ++ [name]), ?_, ?_⟩
  · rw [revert_no_cleanup hs, restorePath_remove hs hnew hentry' hnode']
  · refine @restores_of_places fs fs' fs₁ _ g' vacated [dir ++ [name]] hmade (fun other hother => ?_)
      hcurrent h (fun other => ?_) (removeEntry_current g' _)
    · exact hchanged other fun heq => hother (List.mem_singleton.mpr heq)
    · rw [node_removeEntry hfile]
      by_cases hloc : other = dir ++ [name]
      · rw [if_pos hloc, if_pos (List.mem_singleton.mpr hloc), hloc, hnone]
      · rw [if_neg hloc, if_neg fun hmem => hloc (List.mem_singleton.mp hmem)]

theorem isFile_entry (h : (fs.entryAt p).any (isFile fs) = true) :
    ∃ dir name content, fs.entry p = .ok (dir, name) ∧ fs.node (dir ++ [name]) = some (.file content) := by
  rw [entryAt] at h
  cases hentry : fs.entry p with
  | error e =>
    rw [hentry] at h
    cases h
  | ok found =>
    obtain ⟨dir, name⟩ := found
    rw [hentry] at h
    have hfile : isFile fs (dir ++ [name]) = true := h
    rw [isFile] at hfile
    split at hfile
    · rename_i content hnode
      exact ⟨dir, name, content, rfl, hnode⟩
    · cases hfile

theorem read_of_entry (hentry : fs.entry p = .ok (dir, name))
    (hnode : fs.node (dir ++ [name]) = some (.file content)) : readToString fs p = .ok content :=
  readToString_eq_iff.mpr ⟨_, canonicalize_of_entry hentry hnode, hnode⟩

theorem revert_back (hs : Snapshot fs checkpoint p (some target)) {old content : String} {dir' : Location}
    {name' : String} (hread : readToString fs p = .ok old) (hlinks : g'.LinksArePaths)
    (hentry : g'.entry p = .ok (dir, name)) (htarget : g'.entry target = .ok (dir', name'))
    (hfile : g'.node (dir' ++ [name']) = some (.file content))
    (hnone : dir ++ [name] ≠ dir' ++ [name'] → g'.node (dir ++ [name]) = none) :
    ∃ g, revert g' checkpoint remaining = (g, reverted checkpoint remaining) ∧
      g.current = g'.current ∧
      ∀ other, g.node other = if other = dir ++ [name] then some (.file old)
        else if other = dir' ++ [name'] then none else g'.node other := by
  have hnotDir : g'.node (dir' ++ [name']) ≠ some .directory := by
    rw [hfile]
    exact fun h => nomatch h
  have hways := removeEntry_keepsWays hfile
  have hentry' := entry_keeps hways hlinks hentry
  have hgone : (g'.removeEntry (dir' ++ [name'])).node (dir ++ [name]) = none := by
    rw [node_removeEntry hnotDir]
    split
    · rfl
    · rename_i hne
      exact hnone hne
  obtain ⟨g, hwrite⟩ := write_there hentry' hgone old
  obtain ⟨cleanupPath, hcleanup, hpath⟩ := Option.map_eq_some_iff.mp hs.cleanup
  refine ⟨g, ?_, ?_, fun other => ?_⟩
  · rw [revert, hcleanup]
    dsimp only
    rw [removeIfThere_file hpath htarget hfile]
    exact restorePath_write hs hread hwrite
  · rw [(write_spec hwrite).2.1, removeEntry_current]
  · rw [write_node hwrite, node_removeEntry hnotDir]

/-- A file that was renamed to itself is removed and written again. -/
theorem revert_stayed (hs : Snapshot fs checkpoint p (some p)) (hlinks : fs.LinksArePaths)
    (hfile : (fs.entryAt p).any (isFile fs) = true) (h : Restores vacated fs g') :
    ∃ g, revert g' checkpoint remaining = (g, reverted checkpoint remaining) ∧
      Restores vacated fs g := by
  obtain ⟨dir, name, content, hentry, hnode⟩ := isFile_entry hfile
  have hentry' := entry_extend hentry h.1.extends
  obtain ⟨g, hrevert, hcurrent, hback⟩ := @revert_back fs g' checkpoint p p dir name remaining hs
    content content dir name (read_of_entry hentry hnode)
    (h.1.linksFrom.linksArePaths hlinks) hentry' hentry' (h.1.node hnode) (fun hne => absurd rfl hne)
  refine ⟨g, hrevert, ?_⟩
  refine @restores_of_places fs fs fs g g' vacated [dir ++ [name]] (.refl vacated fs)
    (fun _ _ => rfl) rfl h (fun other => ?_) hcurrent
  rw [hback]
  by_cases hloc : other = dir ++ [name]
  · rw [if_pos hloc, if_pos (List.mem_singleton.mpr hloc), hloc, hnode]
  · rw [if_neg hloc, if_neg hloc, if_neg fun hmem => hloc (List.mem_singleton.mp hmem)]

/-- A file that was moved where there was nothing comes back. -/
theorem revert_moved (hs : Snapshot fs checkpoint p (some target)) (hlinks : fs.LinksArePaths)
    (hfile : (fs.entryAt p).any (isFile fs) = true) (hmade : Restores vacated fs fs₁)
    (hrename : fs₁.renameTo p target = .ok fs')
    (hnew : ∀ dir name, fs₁.entry target = .ok (dir, name) → fs₁.node (dir ++ [name]) = none)
    (h : Restores (vacated ++ (fs.entryAt p).toList) fs' g') :
    ∃ g, revert g' checkpoint remaining = (g, reverted checkpoint remaining) ∧
      Restores vacated fs g := by
  obtain ⟨dir, name, content, hentry, hnode⟩ := isFile_entry hfile
  have hnode₁ := hmade.1.node hnode
  obtain ⟨dir₁, name₁, dir', name', hentry₁, htarget, hfs', -, -, hmoves⟩ :=
    renameTo_spec hrename
  rw [entry_extend hentry hmade.1.extends] at hentry₁
  cases hentry₁
  have hnone₁ := hnew dir' name' htarget
  have hne : dir ++ [name] ≠ dir' ++ [name'] := fun heq => by
    rw [← heq, hnode₁] at hnone₁
    cases hnone₁
  have hmove := hmoves.resolve_left fun hsame => hne hsame.1
  have hnode' : ∀ other, fs'.node other = if other = dir' ++ [name'] then some (.file content)
      else if other = dir ++ [name] then none else fs₁.node other := fun other => by
    rw [hfs', node_move_file hmove hnode₁ fun h => nomatch h]
  have hcurrent' : fs'.current = fs₁.current := by
    rw [hfs', move_current]
  -- Ways stay, since a file went where nothing was.
  have hways : fs₁.KeepsWays fs' := by
    refine ⟨hcurrent', fun other node hother hplain => ?_⟩
    rw [hnode', if_neg fun heq => ?_, if_neg fun heq => ?_]
    · exact hother
    · rw [heq, hnode₁] at hother
      exact hplain content (Option.some.inj hother).symm
    · rw [heq, hnone₁] at hother
      cases hother
  have hlinks₁ := hmade.1.linksFrom.linksArePaths hlinks
  have hlinks' := (renameTo_linksFrom hrename).linksArePaths hlinks₁
  have hentryAt' := entry_extend
    (entry_keeps hways hlinks₁ (entry_extend hentry hmade.1.extends)) h.1.extends
  have htarget' := entry_extend (entry_keeps hways hlinks₁ htarget) h.1.extends
  have hfile' : g'.node (dir' ++ [name']) = some (.file content) := by
    refine h.1.node ?_
    rw [hnode', if_pos rfl]
  have hnone' : g'.node (dir ++ [name]) = none := by
    rw [h.2 (dir ++ [name]), hnode', if_neg hne, if_pos rfl]
    rw [entryAt, hentry]
    exact List.mem_append_right _ List.mem_cons_self
  obtain ⟨g, hrevert, hcurrent, hback⟩ := @revert_back fs g' checkpoint p target dir name remaining hs
    content content dir' name' (read_of_entry hentry hnode)
    (h.1.linksFrom.linksArePaths hlinks') hentryAt' htarget' hfile' fun _ => hnone'
  have hnone : fs.node (dir' ++ [name']) = none := by
    rcases hmade.1.2 (dir' ++ [name']) with hsame | ⟨hnone, -⟩
    · rw [← hsame, hnone₁]
    · exact hnone
  have hweak : Restores vacated fs' g' :=
    ⟨h.1, fun loc hloc => h.2 loc (List.mem_append_left _ hloc)⟩
  refine ⟨g, hrevert, ?_⟩
  refine @restores_of_places fs fs' fs₁ g g' vacated [dir ++ [name], dir' ++ [name']] hmade
    (fun other hother => ?_) (hcurrent'.trans hmade.1.1) hweak (fun other => ?_) hcurrent
  · have hloc : other ≠ dir ++ [name] := fun heq => hother (List.mem_pair.mpr (.inl heq))
    have hloc' : other ≠ dir' ++ [name'] := fun heq => hother (List.mem_pair.mpr (.inr heq))
    rw [hnode', if_neg hloc', if_neg hloc]
  · rw [hback]
    by_cases hloc : other = dir ++ [name]
    · rw [if_pos hloc, if_pos (hloc ▸ List.mem_cons_self), hloc, hnode]
    by_cases hloc' : other = dir' ++ [name']
    · rw [if_neg hloc, if_pos hloc', if_pos (hloc' ▸ List.mem_cons_of_mem _ List.mem_cons_self), hloc', hnone]
    · rw [if_neg hloc, if_neg hloc', if_neg fun hmem => ?_]
      rcases List.mem_pair.mp hmem with heq | heq
      · exact hloc heq
      · exact hloc' heq

/-! ### What the calls leave -/

theorem file_of_exists (hexists : fs.exists? p = true) (hdir : fs.isDir p = false) :
    ∃ loc old, fs.canonicalize p = .ok loc ∧ fs.node loc = some (.file old) := by
  rw [exists?] at hexists
  cases hcanon : fs.canonicalize p with
  | error e =>
    rw [hcanon] at hexists
    cases hexists
  | ok loc =>
    rw [isDir, hcanon] at hdir
    have hlookup : fs.lookup p = .ok (.found loc) := by
      rw [canonicalize] at hcanon
      split at hcanon
      · rename_i loc' hlookup
        cases hcanon
        exact hlookup
      all_goals cases hcanon
    obtain ⟨old, hold⟩ := file_of_found hlookup hdir
    exact ⟨loc, old, rfl, hold⟩

theorem made_restores {made : List Location} (hmade : createParent fs p = (fs₁, made, .ok ()))
    (havoids : Avoids fs vacated p) : Restores vacated fs fs₁ := by
  refine ⟨createParent_more hmade, fun loc hloc => ?_⟩
  have hsame := havoids loc hloc
  rw [hmade] at hsame
  exact hsame

/-- A patch changes one node when the file it goes through is new. -/
theorem patched_restorable {tempLoc : Location} (hlink : fs.isSymlink p = false)
    (htemp : withExtension p "tmp" = p ∨ fs.exists? (withExtension p "tmp") = false ∧
      fs.isSymlink (withExtension p "tmp") = false)
    (hwrite : fs.write (withExtension p "tmp") content = .ok (fs₁, tempLoc))
    (hrename : fs₁.renameTo (withExtension p "tmp") p = .ok fs') :
    ∃ dir name, fs.entry p = .ok (dir, name) ∧ fs'.current = fs.current ∧
      ∀ other, fs'.node other =
        if other = dir ++ [name] then some (.file content) else fs.node other := by
  by_cases hsame : withExtension p "tmp" = p
  · rw [hsame] at hwrite hrename
    obtain ⟨dir, name, hentry, rfl⟩ := write_at_entry hwrite hlink
    rw [renameTo_self hrename]
    exact ⟨dir, name, hentry, (write_spec hwrite).2.1, write_node hwrite⟩
  · obtain ⟨hnew, hlinkTemp⟩ := htemp.resolve_left hsame
    obtain ⟨dir, name, tempName, hentry, hentryTemp, rfl, hcurrent, hnode⟩ :=
      patched_node hlinkTemp hsame hwrite hrename
    refine ⟨dir, name, hentry, hcurrent, fun other => ?_⟩
    rw [hnode]
    split
    · rfl
    · split
      · rename_i htempLoc
        rw [htempLoc, node_of_not_exists hnew hlinkTemp hentryTemp]
      · rfl

/-! ### Reverting one call -/

theorem vacatedBy_none {request : Request} (h : ∀ oldPath newPath, request ≠ .renameFile oldPath newPath) :
    vacatedBy op fs request = [] := by
  cases request with
  | renameFile oldPath newPath => exact absurd rfl (h oldPath newPath)
  | _ => rfl

variable {call : ToolCall} {request : Request}

theorem cleanupPath_none (hrequest : toolRequest call.tool call.input = .ok request)
    (h : ∀ oldPath newPath, request ≠ .renameFile oldPath newPath) : call.cleanupPath = none := by
  obtain ⟨tool, input⟩ := call
  cases tool with
  | renameFile =>
    rw [toolRequest] at hrequest
    split at hrequest
    · cases hrequest
    · split at hrequest
      · cases hrequest
      · cases hrequest
        exact absurd rfl (h _ _)
  | _ => rfl

theorem capture_snapshot {path : String} {cleanup : Option Plain} (htaken : TakenAs op call.snapshotPath path)
    (hcleanup : call.cleanupPath.map (fun path => FileSystem.undot (rawJoin op.workingDir path)) =
      cleanup.map Plain.components) :
    ∃ checkpoint, captureUndoSnapshot op fs call = some checkpoint ∧
      Snapshot fs checkpoint (op.named path) cleanup := by
  obtain ⟨taken, hpath, hsame⟩ := Option.map_eq_some_iff.mp htaken
  rw [captureUndoSnapshot, hpath]
  refine ⟨_, rfl, hsame, ?_, ?_⟩
  · rw [Option.map_map]
    exact hcleanup
  · show (fs.readAt (rawJoin op.workingDir taken)).toOption = _
    rw [← readAt_undot, hsame, readAt_components]

/-- **A call that can be undone** is undone by the revert of its checkpoint, even where directories
have been made since. -/
theorem call_reverts (hrequest : toolRequest call.tool call.input = .ok request)
    (hchanges : op.Changes host fs request fs') (hlinks : fs.LinksArePaths)
    (hundo : Undoable op fs vacated call request) :
    ∃ checkpoint, captureUndoSnapshot op fs call = some checkpoint ∧
      ∀ g' remaining, Restores (vacated ++ vacatedBy op fs request) fs' g' →
        ∃ g, revert g' checkpoint remaining = (g, reverted checkpoint remaining) ∧
          Restores vacated fs g := by
  have snapshot : ∀ {path}, TakenAs op call.snapshotPath path →
      (∀ oldPath newPath, request ≠ .renameFile oldPath newPath) →
      ∃ checkpoint, captureUndoSnapshot op fs call = some checkpoint ∧
        Snapshot fs checkpoint (op.named path) none := by
    intro path htaken hrename
    refine capture_snapshot htaken ?_
    rw [cleanupPath_none hrequest hrename]
    rfl
  have stays := @vacatedBy_none op fs request
  cases hchanges with
  | proposed hresolved hdir hexists =>
    obtain ⟨checkpoint, hcapture, hs⟩ := snapshot hundo.1 (fun _ _ h => nomatch h)
    obtain ⟨loc, old, hcanon, hold⟩ := file_of_exists hexists hdir
    refine ⟨checkpoint, hcapture, fun g' remaining h => ?_⟩
    rw [stays (fun _ _ h => nomatch h), List.append_nil] at h
    exact revert_over hs (readToString_eq_iff.mpr ⟨loc, hcanon, hold⟩) hold hcanon hold
      (fun _ _ => rfl) rfl h
  | written hresolved hnew hmade hwrite =>
    obtain ⟨checkpoint, hcapture, hs⟩ := snapshot hundo.1 (fun _ _ h => nomatch h)
    obtain ⟨hlink, havoids⟩ := hundo.2.resolve_left (by rw [hnew]; exact Bool.noConfusion)
    obtain ⟨guard, hguard, -⟩ := resolvePath_guard hresolved
    obtain ⟨dir, name, hentry, rfl, hnone⟩ := written_node hguard hnew hlink hmade hwrite
    have hnode := write_node hwrite
    have hmore := made_restores hmade havoids
    refine ⟨checkpoint, hcapture, fun g' remaining h => ?_⟩
    rw [stays (fun _ _ h => nomatch h), List.append_nil] at h
    have hfile := hnode (dir ++ [name])
    rw [if_pos rfl] at hfile
    refine revert_away hs hnew (hmore.1.none_before hnone)
      (entry_extend hentry (write_spec hwrite).2) hfile hmore
      (fun other hother => ?_) ((write_spec hwrite).2.1.trans hmore.1.1) h
    rw [hnode, if_neg hother]
  | patched hresolved hdir hwrite hrename =>
    obtain ⟨checkpoint, hcapture, hs⟩ := snapshot hundo.1 (fun _ _ h => nomatch h)
    obtain ⟨dir, name, hentry, hcurrent, hnode⟩ :=
      patched_restorable hundo.2.1 hundo.2.2 hwrite hrename
    refine ⟨checkpoint, hcapture, fun g' remaining h => ?_⟩
    rw [stays (fun _ _ h => nomatch h), List.append_nil] at h
    have hnew := hnode (dir ++ [name])
    rw [if_pos rfl] at hnew
    have hchanged : ∀ other, other ≠ dir ++ [name] → fs'.node other = fs.node other :=
      fun other hother => by rw [hnode, if_neg hother]
    cases hexists : fs.exists? (op.named _) with
    | false =>
      have hnone := node_of_not_exists hexists hundo.2.1 hentry
      have hext := extends_of_node hcurrent hnode (.inl hnone)
      exact revert_away hs hexists hnone (entry_extend hentry hext) hnew
        (.refl vacated fs) hchanged hcurrent h
    | true =>
      obtain ⟨loc, old, hcanon, hold⟩ := file_of_exists hexists hdir
      obtain rfl := canonicalize_entry hcanon hentry hundo.2.1
      have hext := extends_of_node hcurrent hnode (.inr ⟨old, hold⟩)
      exact revert_over hs (readToString_eq_iff.mpr ⟨_, hcanon, hold⟩) hold
        (canonicalize_extend hcanon hext) hnew hchanged hcurrent h
  | edited hresolved hread hedited hwrite =>
    obtain ⟨checkpoint, hcapture, hs⟩ := snapshot hundo (fun _ _ h => nomatch h)
    obtain ⟨loc, hcanon, hold⟩ := readToString_eq_iff.mp hread
    obtain ⟨hcanon', hnode⟩ := write_found hwrite
    have hext := (write_spec hwrite).2
    have hsame := canonicalize_extend hcanon hext
    rw [hcanon'] at hsame
    cases hsame
    refine ⟨checkpoint, hcapture, fun g' remaining h => ?_⟩
    rw [stays (fun _ _ h => nomatch h), List.append_nil] at h
    refine revert_over hs hread hold hcanon' hnode (fun other hother => ?_) hext.1 h
    rw [write_node hwrite, if_neg hother]
  | stayed hresolved hexists hsame =>
    obtain ⟨htaken, htakenNew, hfile, -⟩ := hundo
    obtain ⟨checkpoint, hcapture, hs⟩ := @capture_snapshot op fs call _ (some (op.named _)) htaken htakenNew
    refine ⟨checkpoint, hcapture, fun g' remaining h => ?_⟩
    rw [← hsame] at hs
    rw [vacatedBy, if_pos hsame, List.append_nil] at h
    exact revert_stayed hs hlinks hfile h
  | moved hsource htarget hexists hne hmade hrename =>
    obtain ⟨htaken, htakenNew, hfile, hcondition⟩ := hundo
    obtain ⟨hnew, hlink, havoids⟩ := hcondition.resolve_left hne
    obtain ⟨checkpoint, hcapture, hs⟩ := @capture_snapshot op fs call _ (some (op.named _)) htaken htakenNew
    obtain ⟨guard, hguard, -⟩ := resolvePath_guard htarget
    refine ⟨checkpoint, hcapture, fun g' remaining h => ?_⟩
    rw [vacatedBy, if_neg hne] at h
    refine revert_moved hs hlinks hfile (made_restores hmade havoids) hrename (fun dir name hentry => ?_) h
    rcases createParent_cases hguard hmade hentry with rfl | hnone
    · exact node_of_not_exists hnew hlink hentry
    · exact hnone

/-! ### Reverting a run of calls -/

def UndoReport.isReverted : UndoReport → Bool
  | .reverted .. => true
  | _ => false

theorem undoTimes_succ (n : ℕ) (state : UndoState) :
    undoTimes (n + 1) state =
      ((handleUndoCommand true (undoTimes n state).1).1,
        (undoTimes n state).2 ++ [(handleUndoCommand true (undoTimes n state).1).2]) := by
  induction n generalizing state with
  | zero => rfl
  | succ n ih =>
    have hnext := ih (handleUndoCommand true state).1
    rw [undoTimes]
    dsimp only
    rw [hnext]
    rfl

theorem handleUndoCommand_last {older : List UndoCheckpoint}
    (hrevert : revert g' checkpoint older.length = (g, reverted checkpoint older.length)) :
    handleUndoCommand true { files := g', undoStack := older ++ [checkpoint] } =
      ({ files := g, undoStack := older }, reverted checkpoint older.length) := by
  have hlast : handleUndoCommand true { files := g', undoStack := older ++ [checkpoint] } =
      ({ files := (revert g' checkpoint older.length).1, undoStack := older },
        (revert g' checkpoint older.length).2) := by
    rw [handleUndoCommand]
    rw [List.getLast?_concat, List.dropLast_concat]
    rfl
  rw [hlast, hrevert]

def dropped (maxUndoCheckpoints : ℕ) (undoStack : List UndoCheckpoint) : ℕ :=
  if maxUndoCheckpoints ≤ undoStack.length then 1 else 0

theorem pushUndoCheckpoint_eq {maxUndoCheckpoints : ℕ} (h : 0 < maxUndoCheckpoints)
    (undoStack : List UndoCheckpoint) (checkpoint : UndoCheckpoint) :
    pushUndoCheckpoint maxUndoCheckpoints undoStack checkpoint =
      undoStack.drop (dropped maxUndoCheckpoints undoStack) ++ [checkpoint] := by
  rw [pushUndoCheckpoint, if_neg (Nat.pos_iff_ne_zero.mp h), dropped]
  split
  · rw [List.drop_one]
  · rw [List.drop_zero]

variable {host : MutationHost} {maxUndoCheckpoints : ℕ}

/-- Undoing the calls of a run leads back to its start, with older checkpoints perhaps dropped. -/
theorem undo_restores {calls : List ToolCall} {state : UndoState} (vacated : List Location)
    (hlinks : state.files.LinksArePaths)
    (hok : ∀ result ∈ (runCalls op host maxUndoCheckpoints state calls).2, result.isOk = true)
    (hlength : calls.length ≤ maxUndoCheckpoints)
    (hundo : AllUndoable op host maxUndoCheckpoints vacated state calls) :
    ∃ g d reports,
      undoTimes calls.length (runCalls op host maxUndoCheckpoints state calls).1 =
        ({ files := g, undoStack := state.undoStack.drop d }, reports) ∧
      Restores vacated state.files g ∧ (∀ report ∈ reports, report.isReverted = true) ∧
      (d = 0 ∨ d + maxUndoCheckpoints ≤ state.undoStack.length + calls.length) := by
  induction calls generalizing state vacated with
  | nil => exact ⟨state.files, 0, [], rfl, .refl vacated _, (fun _ h => nomatch h), .inl rfl⟩
  | cons call calls ih =>
    rw [List.length_cons] at hlength
    cases hcall : callTool op host maxUndoCheckpoints state call with
    | mk state₁ result =>
    rw [runCalls, hcall] at hok ⊢
    have hresult := hok result List.mem_cons_self
    cases result with
    | error e => cases hresult
    | ok text =>
      obtain ⟨⟨request, hrequest, hchanges⟩, hstack⟩ := callTool_ok hcall
      rw [AllUndoable, hrequest, hcall] at hundo
      obtain ⟨hundoable, hundo⟩ := hundo
      obtain ⟨checkpoint, hcapture, hreverts⟩ := call_reverts hrequest hchanges hlinks hundoable
      rw [pushedSnapshot, hcapture] at hstack
      dsimp only at hstack
      rw [pushUndoCheckpoint_eq (by omega)] at hstack
      obtain ⟨g', d, reports, htimes, hrestores, hreports, hdrop⟩ :=
        ih (vacated ++ vacatedBy op state.files request)
          (hchanges.linksFrom.linksArePaths hlinks)
          (fun result hmem => hok result (List.mem_cons_of_mem _ hmem)) (by omega) hundo
      have hshort : (state.undoStack.drop (dropped maxUndoCheckpoints state.undoStack)).length =
          state.undoStack.length - dropped maxUndoCheckpoints state.undoStack := List.length_drop ..
      have hdropped : dropped maxUndoCheckpoints state.undoStack = 0 ∨
          dropped maxUndoCheckpoints state.undoStack = 1 ∧ maxUndoCheckpoints ≤ state.undoStack.length := by
        rw [dropped]
        split
        · rename_i hfull
          exact .inr ⟨rfl, hfull⟩
        · exact .inl rfl
      rw [hstack, List.length_append, List.length_singleton, hshort] at hdrop
      -- The checkpoint of this call is still the last one.
      have hkept : state₁.undoStack.drop d =
          state.undoStack.drop (dropped maxUndoCheckpoints state.undoStack + d) ++ [checkpoint] := by
        rw [hstack, List.drop_append_of_le_length (by omega), List.drop_drop]
      rw [hkept] at htimes
      obtain ⟨g, hrevert, hback⟩ := hreverts g'
        (state.undoStack.drop (dropped maxUndoCheckpoints state.undoStack + d)).length hrestores
      have hdrop' : dropped maxUndoCheckpoints state.undoStack + d = 0 ∨
          dropped maxUndoCheckpoints state.undoStack + d + maxUndoCheckpoints ≤
            state.undoStack.length + (call :: calls).length := by
        rw [List.length_cons]
        omega
      have hlast := handleUndoCommand_last hrevert
      have hall : undoTimes (call :: calls).length
          (runCalls op host maxUndoCheckpoints state₁ calls).1 =
          ({ files := g
             undoStack := state.undoStack.drop (dropped maxUndoCheckpoints state.undoStack + d) },
            reports ++ [reverted checkpoint
              (state.undoStack.drop (dropped maxUndoCheckpoints state.undoStack + d)).length]) := by
        rw [List.length_cons, undoTimes_succ, htimes]
        dsimp only
        rw [hlast]
      refine ⟨g, _, _, hall, hback, fun report hmem => ?_, hdrop'⟩
      rcases List.mem_append.mp hmem with hmem | hmem
      · exact hreports report hmem
      · rw [List.mem_singleton.mp hmem]
        rfl

/-- **`/undo` restores the files**: after a run of calls that can all be undone, one `/undo` for each
call brings every file back to its content or its absence, and each of them reports a success. -/
theorem undo_restores_workspace (op : ToolOperator) (host : MutationHost) (maxUndoCheckpoints : ℕ)
    (state : UndoState) (calls : List ToolCall) (hlinks : state.files.LinksArePaths)
    (hok : ∀ result ∈ (runCalls op host maxUndoCheckpoints state calls).2, result.isOk = true)
    (hlength : calls.length ≤ maxUndoCheckpoints)
    (hundo : AllUndoable op host maxUndoCheckpoints [] state calls) :
    let undone := undoTimes calls.length (runCalls op host maxUndoCheckpoints state calls).1
    (∀ loc content, undone.1.files.node loc = some (.file content) ↔
        state.files.node loc = some (.file content)) ∧
      state.files.MoreDirectories undone.1.files ∧
      ∀ report ∈ undone.2, report.isReverted = true := by
  obtain ⟨g, d, reports, htimes, hrestores, hreports, -⟩ :=
    undo_restores [] hlinks hok hlength hundo
  rw [htimes]
  exact ⟨hrestores.file_iff, hrestores.1, hreports⟩

/-! ### A run that is undone, and a rename that is not -/

def undoFiles : FileSystem where
  entries := [(["ws"], .directory), (["ws", "a"], .file "one"), (["ws", "b"], .file "two")]
  current := ["ws"]
  tree := by decide +kernel

def editCall (path oldStr newStr : String) : ToolCall :=
  { tool := .editFile
    input := .object [("new_str", .string newStr), ("old_str", .string oldStr),
      ("path", .string path)] }

def undoCalls : List ToolCall :=
  [editCall "./a" "n" "m", renameCall "a" "sub/c", writeCall "a" "new"]

theorem undo_restores_sample_workspace :
    let undone := undoTimes 3 (runCalls sampleOperator sampleHost 3 ⟨undoFiles, []⟩ undoCalls).1
    (∀ loc content, undone.1.files.node loc = some (.file content) ↔
        undoFiles.node loc = some (.file content)) ∧
      undoFiles.MoreDirectories undone.1.files ∧
      ∀ report ∈ undone.2, report.isReverted = true :=
  undo_restores_workspace sampleOperator sampleHost 3 ⟨undoFiles, []⟩ undoCalls
    (linksArePaths_of_entries (by decide +kernel)) (by decide +kernel) (by decide +kernel)
    (by decide +kernel)

/-- The target of the rename was there; `/undo` reports a success and removes it for good. -/
theorem undo_loses_renamed_target :
    let run := runCalls sampleOperator sampleHost 3 ⟨undoFiles, []⟩ [renameCall "a" "b"]
    let undone := undoTimes 1 run.1
    run.2.map Except.isOk = [true] ∧ undone.2.map UndoReport.isReverted = [true] ∧
      undoFiles.node ["ws", "b"] = some (.file "two") ∧ undone.1.files.node ["ws", "b"] = none := by
  decide +kernel

end Vexcoder.Tools
