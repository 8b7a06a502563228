import Vexcoder.Tools.IndexRequests
import Vexcoder.Tools.TestPaths

/-!
# Places of paths that pass the check for tests

A path that the check lets through and that passes no link leads to a test place (`Straight.isTest`): what
the check reads in the text is what the tools resolve.  So `OnTestPlaces` asks only for the places that no
path of the call names and for those that a link leads to.
-/

namespace Vexcoder.Tools

open Base
open Conversation (isTestTargetPath mutatingToolTargetPaths testsOnlyMutationConflictPrompt)
open Lib.Files ToolOperator
open Lib.Files.FileSystem (Plain)

/-- No link stands on the way of a path below the working directory. -/
def Straight (op : ToolOperator) (fs : FileSystem) (path : String) : Prop :=
  ∃ root base, Workspace op fs root base ∧
    fs.LinkFree base (pathNames path)

/-- The places of a call that the check lets through are test places, but for those that a straight path
leads to, which need not be asked about. -/
def OnTestPlaces (op : ToolOperator) (host : MutationHost) (fs : FileSystem) (tool : MutationTool)
    (input : Value) : Prop :=
  testsOnlyMutationConflictPrompt .testsOnlyMutations tool.name input = none →
    ∀ request, toolRequest tool input = .ok request →
      op.Places host fs (fun path => ¬ Straight op fs path) (fun loc => op.isTestPlace loc = true) request

variable {op : ToolOperator} {host : MutationHost} {fs fs₀ fs₁ : FileSystem} {root : Plain}
  {base loc : Location} {path : String} {resolved : Plain} {tool : MutationTool} {input : Value}
  {request : Request}

/-! ### Straight paths -/

theorem Straight.more (h : Straight op fs path) (hmore : fs.MoreDirectories fs₁) : Straight op fs₁ path := by
  obtain ⟨root, base, hw, hlinks⟩ := h
  exact ⟨root, base, workspace_made hw hmore, direct_made hmore hlinks⟩

theorem Workspace.isTestPlace (hw : Workspace op fs root base) (names : List String) :
    op.isTestPlace (base ++ names) = isTestTargetPath (Text.join "/" names) := by
  have hnames : ∀ name : Component → Option String, (∀ text, name (.normal text) = some text) →
      (names.map Component.normal).filterMap name = names := fun name hname => by
    rw [List.filterMap_map, show name ∘ Component.normal = some from funext hname, List.filterMap_some]
  have hdrop : (locationComponents (base ++ names)).drop op.canonicalWorkingDir.length =
      names.map .normal := by
    rw [hw.canonicalWorkingDir, locationComponents, locationComponents, List.map_append,
      ← List.cons_append, List.drop_left]
  rw [ToolOperator.isTestPlace, ToolOperator.workspacePath, if_pos (hw.inside_base names), hdrop,
    hnames _ fun _ => rfl]

/-- Where a path leads: to its entry, to the file that is opened there, to what it resolves to. -/
def LeadsTo (fs : FileSystem) (p : Plain) (loc : Location) : Prop :=
  fs.entryAt p = some loc ∨ fs.opensAt p = some loc ∨ fs.canonicalize p = .ok loc

theorem leadsTo_below {names : List String} (hw : Workspace op fs root base)
    (hlinks : fs.LinkFree base names) (hne : names ≠ [])
    (h : LeadsTo fs (root.below names) loc) : loc = base ++ names := by
  rcases h with h | h | h
  · rw [FileSystem.entryAt] at h
    cases hentry : fs.entry (root.below names) with
    | error e =>
      rw [hentry] at h
      cases h
    | ok entry =>
      obtain ⟨dir, name⟩ := entry
      rw [hentry] at h
      cases h
      exact (entry_place hw hlinks hne hentry).1
  · rcases FileSystem.opensAt_cases h with hlink | ⟨dir, name, hentry, rfl, -⟩
    · rw [not_isSymlink hw hlinks hne] at hlink
      cases hlink
    · exact (entry_place hw hlinks hne hentry).1
  · exact FileSystem.canonicalize_plain hw.canonical hlinks h

/-- **A test path that meets no link** leads to a test place. -/
theorem Straight.isTest (h : Straight op fs path) (htrim : Text.trim path = path)
    (hresolved : op.resolvePath fs₀ path = .ok resolved) (htest : isTestTargetPath path = true)
    (hloc : LeadsTo fs (op.named path) loc) : op.isTestPlace loc = true := by
  obtain ⟨root, base, hw, hlinks⟩ := h
  obtain ⟨hslash, hback, hparent⟩ := resolvePath_written htrim hresolved
  obtain ⟨hne, hnames⟩ := isTest_names htrim hback htest
  rw [named_names hw.workingDir hw.components_ne_nil htrim hslash hparent] at hloc
  rw [leadsTo_below hw hlinks hne hloc, hw.isTestPlace]
  exact hnames

/-! ### What the check has seen -/

theorem isTestTargetPath_trim (path : String) : isTestTargetPath (Text.trim path) = isTestTargetPath path := by
  have htrim : trim (Text.trim path).toList = trim path.toList := by
    rw [Text.trim, String.toList_ofList, trim_trim]
  rw [isTestTargetPath, isTestTargetPath, htrim]

/-- The paths of a call that the check lets through are test paths. -/
theorem request_paths_test
    (haccepted : testsOnlyMutationConflictPrompt .testsOnlyMutations tool.name input = none)
    (hrequest : toolRequest tool input = .ok request) :
    ∀ path ∈ request.paths, isTestTargetPath path = true := by
  intro path hpath
  obtain ⟨target, htarget, rfl⟩ := toolRequest_paths hrequest path hpath
  rw [testsOnlyMutationConflictPrompt, if_neg (by decide), Option.map_eq_none_iff,
    List.find?_eq_none] at haccepted
  rw [isTestTargetPath_trim]
  simpa using haccepted target htarget

theorem asked_iff {S X : Prop} (h : S → X) : (¬ S → X) ↔ (True → X) :=
  ⟨fun hasked _ => (Classical.em S).elim h hasked, fun hx _ => hx trivial⟩

/-- Where the paths are test paths, only those with links need be asked about. -/
theorem places_asked_iff (htrim : ∀ path ∈ request.paths, Text.trim path = path)
    (htest : ∀ path ∈ request.paths, isTestTargetPath path = true) :
    op.Places host fs (fun path => ¬ Straight op fs path) (fun loc => op.isTestPlace loc = true) request ↔
      op.Places host fs (fun _ => True) (fun loc => op.isTestPlace loc = true) request := by
  have hmade : ∀ p, fs.MoreDirectories (withParent fs p) := fun p =>
    (createParent_makes fs p).more
  cases request with
  | writeFile path content =>
    have hmem : path ∈ (Request.writeFile path content).paths := List.mem_singleton_self path
    refine imp_congr_right fun _ => imp_congr_right fun hresolved => imp_congr_right fun _ =>
      and_congr_right fun _ => asked_iff fun hstraight _ loc hloc => ?_
    exact (hstraight.more (hmade _)).isTest (htrim path hmem) hresolved (htest path hmem)
      (.inr (.inl hloc))
  | applyPatch path content =>
    have hmem : path ∈ (Request.applyPatch path content).paths := List.mem_singleton_self path
    refine imp_congr_right fun hresolved => imp_congr_right fun _ => imp_congr_right fun _ =>
      forall_congr' fun loc => imp_congr_right fun hopen => ?_
    have hplace : ∀ {loc}, Straight op fs path → LeadsTo fs (op.named path) loc →
        op.isTestPlace loc = true := fun hstraight =>
      hstraight.isTest (htrim path hmem) hresolved (htest path hmem)
    split
    · rename_i hsame
      rw [hsame] at hopen
      exact asked_iff fun hstraight => hplace hstraight (.inr (.inl hopen))
    · exact and_congr_right fun _ => and_congr_right fun _ => asked_iff fun hstraight dir hdir =>
        hplace hstraight (.inl hdir)
  | editFile path oldStr newStr =>
    have hmem : path ∈ (Request.editFile path oldStr newStr).paths := List.mem_singleton_self path
    refine imp_congr_right fun hresolved => forall₂_congr fun old new => imp_congr_right fun _ =>
      imp_congr_right fun _ => asked_iff fun hstraight loc hloc => ?_
    exact hstraight.isTest (htrim path hmem) hresolved (htest path hmem) (.inr (.inr hloc))
  | renameFile oldPath newPath =>
    have hmem : oldPath ∈ (Request.renameFile oldPath newPath).paths := List.mem_cons_self
    have hmem' : newPath ∈ (Request.renameFile oldPath newPath).paths :=
      List.mem_cons_of_mem _ List.mem_cons_self
    refine imp_congr_right fun hresolved => imp_congr_right fun hresolved' => imp_congr_right fun _ =>
      imp_congr_right fun _ => and_congr_right fun _ => imp_congr_right fun _ =>
        forall₂_congr fun loc loc' => imp_congr_right fun hloc => imp_congr_right fun hloc' => ?_
    refine and_congr (asked_iff fun hstraight => ?_)
      (and_congr_left fun _ => asked_iff fun hstraight => ?_)
    · exact (hstraight.more (hmade _)).isTest (htrim oldPath hmem) hresolved (htest oldPath hmem)
        (.inl hloc)
    · exact (hstraight.more (hmade _)).isTest (htrim newPath hmem') hresolved' (htest newPath hmem')
        (.inl hloc')

/-- **Only tests are changed** exactly when the places that no path of the call names, and those that a
link leads to, are test places; the executor's paths are those that the check has read. -/
theorem tests_only_iff (op : ToolOperator) (host : MutationHost) (fs : FileSystem)
    (tool : MutationTool) (input : Value) :
    ((∀ request, toolRequest tool input = .ok request → ∀ path ∈ request.paths,
        ∃ target ∈ mutatingToolTargetPaths tool.name input, path = Text.trim target) ∧
      ∀ loc ∈ policyTouched .testsOnlyMutations op host fs tool input, op.isTestPlace loc = true) ↔
      OnTestPlaces op host fs tool input := by
  rw [and_iff_right fun request h => toolRequest_paths h, OnTestPlaces, policyTouched]
  cases haccepted : testsOnlyMutationConflictPrompt .testsOnlyMutations tool.name input with
  | some prompt => exact nothing_iff fun h => by cases h
  | none =>
    dsimp only
    rw [toolTouched]
    cases hrequest : toolRequest tool input with
    | error e => exact nothing_iff fun _ _ h => by cases h
    | ok request =>
      refine (touched_iff_places request).trans ?_
      rw [← places_asked_iff (request_paths_trimmed hrequest) (request_paths_test haccepted hrequest)]
      refine ⟨fun h _ _ heq => ?_, fun h => h rfl request rfl⟩
      cases heq
      exact h

/-! ### A patch that destroys what is no test -/

def patchFiles : FileSystem where
  entries := [(["ws"], .directory), (["ws", "foo_test.rs"], .file "old"),
    (["ws", "foo_test.tmp"], .file "notes")]
  current := ["ws"]
  tree := by decide +kernel

/-- The check lets the patch of a test through; the file next to it, which is no test, is gone. -/
theorem patch_destroys_other_file :
    let input : Value := .object [("content", .string "new"), ("path", .string "foo_test.rs")]
    let after := (callUnderPolicy .testsOnlyMutations sampleOperator sampleHost patchFiles .applyPatch
      input)
    after.2.isOk = true ∧ patchFiles.node ["ws", "foo_test.tmp"] = some (.file "notes") ∧
      after.1.node ["ws", "foo_test.tmp"] = none ∧
      ["ws", "foo_test.tmp"] ∈ policyTouched .testsOnlyMutations sampleOperator sampleHost patchFiles
        .applyPatch input ∧
      sampleOperator.isTestPlace ["ws", "foo_test.tmp"] = false := by
  decide +kernel

end Vexcoder.Tools
