import Vexcoder.Tools.IndexPaths
import Vexcoder.Tools.IndexViews

/-!
# Paths that the index can follow

Each path of the walk makes its contribution to the index, when it shows a file.  A path of a call that
is written plainly, passes no link and is ignored with the directories it lies in, makes the contribution
that `update_index_filtered` takes from it (`changedChunks_eq_contribution`).
-/

namespace Vexcoder.Tools

open Base
open Vexcoder.Configuration (SearchConfig)
open Lib.Files
open Lib.Files.FileSystem (Plain FilesChange Creates)
open Lib.Refresh FileSystem

def indexedPaths (host : IndexHost) (fs : FileSystem) (root : Plain) : List (List String) :=
  (ToolOperator.new fs root.components).walkWorkspaceFilesIgnoring fs root (loadIgnore host fs root)
    (walkFuel fs) []

def contribution (host : IndexHost) (config : SearchConfig) (fs : FileSystem) (root : Plain)
    (names : List String) : List IndexChunk :=
  share (indexedPaths host fs root) (walkedChunks host config fs root) names

variable {op : ToolOperator} {host : IndexHost} {config : SearchConfig} {fs fs' : FileSystem}
  {root : Plain} {base loc : Location} {names : List String} {path content : String}
  {changed : List Location} {ignore : String → Bool → Bool}

theorem buildIndexFiltered_eq (host : IndexHost) (config : SearchConfig) (fs : FileSystem)
    (root : Plain) : buildIndexFiltered host config fs root =
      (indexedPaths host fs root).flatMap (walkedChunks host config fs root) := rfl

theorem mem_indexedPaths_iff (hw : Workspace op fs root base) :
    names ∈ indexedPaths host fs root ↔
      Visited op fs root (loadIgnore host fs root) names ∧ fs.isDir (root.below names) = false := by
  rw [indexedPaths, hw.new_eq]
  exact mem_walk_iff le_rfl

theorem nodup_indexedPaths : (indexedPaths host fs root).Nodup := walk_nodup _ _

theorem walkedChunks_of_error {e : IoError} (h : readToString fs (root.below names) = .error e) :
    walkedChunks host config fs root names = [] := by
  rw [walkedChunks, sourceChunks_of_error (e := e)]
  · exact ite_self []
  · rw [ToolOperator.readAt_components, h]

theorem walkedChunks_of_language (h : detectSourceLanguage (root.below names).components = none) :
    walkedChunks host config fs root names = [] := by
  rw [walkedChunks, sourceChunks, h]
  exact ite_self []

theorem shown_of_walked (hw : Workspace op fs root base) (hmem : names ∈ indexedPaths host fs root)
    (hne : walkedChunks host config fs root names ≠ []) :
    ∃ content, Shown op fs root (loadIgnore host fs root) names content := by
  cases hread : readToString fs (root.below names) with
  | error e => exact absurd (walkedChunks_of_error hread) hne
  | ok content => exact ⟨content, ((mem_indexedPaths_iff hw).mp hmem).1, hread⟩

theorem Shown.mem_indexedPaths (hw : Workspace op fs root base)
    (h : Shown op fs root (loadIgnore host fs root) names content) :
    names ∈ indexedPaths host fs root := by
  obtain ⟨hvisited, hread⟩ := h
  obtain ⟨loc, hcanon, hnode⟩ := ToolOperator.readToString_eq_iff.mp hread
  refine (mem_indexedPaths_iff hw).mpr ⟨hvisited, ?_⟩
  rw [isDir_of_canonicalize hcanon, isDirectory, hnode]
  rfl

theorem contribution_of_not_shown (hw : Workspace op fs root base)
    (h : ∀ content, ¬ Shown op fs root (loadIgnore host fs root) names content) :
    contribution host config fs root names = [] := by
  rw [contribution, share]
  split
  · rename_i hmem
    by_contra hne
    obtain ⟨content, hshown⟩ := shown_of_walked hw hmem hne
    exact h content hshown
  · rfl

theorem contribution_of_shown (hw : Workspace op fs root base)
    (h : Shown op fs root (loadIgnore host fs root) names content) :
    contribution host config fs root names = walkedChunks host config fs root names := by
  rw [contribution, share, if_pos (h.mem_indexedPaths hw)]

theorem contribution_of_language (h : detectSourceLanguage (root.below names).components = none) :
    contribution host config fs root names = [] := by
  rw [contribution, share, walkedChunks_of_language h]
  exact ite_self []

/-- **A contribution stays** when the path shows what it did. -/
theorem contribution_congr {op' : ToolOperator} (hw : Workspace op fs root base)
    (hw' : Workspace op' fs' root base)
    (h : ∀ content, Shown op' fs' root (loadIgnore host fs' root) names content ↔
      Shown op fs root (loadIgnore host fs root) names content) :
    contribution host config fs' root names = contribution host config fs root names := by
  by_cases hshown : ∃ content, Shown op fs root (loadIgnore host fs root) names content
  · obtain ⟨content, hshown⟩ := hshown
    have hshown' := (h content).mpr hshown
    have hread : (fs'.readAt (root.below names).components).toOption =
        (fs.readAt (root.below names).components).toOption := by
      rw [ToolOperator.readAt_components, ToolOperator.readAt_components, hshown.2, hshown'.2]
    rw [contribution_of_shown hw' hshown', contribution_of_shown hw hshown, walkedChunks, walkedChunks,
      sourceChunks_congr hread]
  · have hnone : ∀ content, ¬ Shown op fs root (loadIgnore host fs root) names content :=
      fun content hcontent => hshown ⟨content, hcontent⟩
    rw [contribution_of_not_shown hw hnone, contribution_of_not_shown hw' fun content hcontent =>
      hnone content ((h content).mp hcontent)]

/-- **The contributions stay**, but for those of the changed places. -/
theorem contribution_eq (hw : Workspace op fs root base) (hlinks : fs.LinksArePaths)
    (hchange : FilesChange fs fs' changed) (hbelow : ∀ place ∈ changed, base <+: place)
    (hapart : LinksApart op fs root (loadIgnore host fs root) changed (Creates fs fs' changed))
    (hfile : base ++ [".gitignore"] ∉ changed) (hnames : base ++ names ∉ changed) :
    contribution host config fs' root names = contribution host config fs root names := by
  refine contribution_congr hw (workspace_after hw hlinks hchange) fun content => ?_
  rw [loadIgnore_eq hw hlinks hchange hbelow hapart host hfile]
  exact shown_iff hw hlinks hchange hbelow hapart hnames

/-! ### Paths as they are written -/

theorem filter_undot (path : List Component) :
    (FileSystem.undot path).filter (· != .curDir) = path.filter (· != .curDir) := by
  induction path with
  | nil => rfl
  | cons x path ih =>
    rw [undot]
    split
    · rename_i hdot
      rw [ih, hdot.1]
      rfl
    · rw [List.filter_cons, List.filter_cons, ih]

theorem sourceChunks_undot (rel : String) (path : List Component) :
    sourceChunks host config fs rel (FileSystem.undot path) =
      sourceChunks host config fs rel path := by
  rw [sourceChunks, sourceChunks, detectSourceLanguage, detectSourceLanguage, filter_undot,
    readAt_undot]

theorem isDirAt_undot (path : List Component) : isDirAt fs (FileSystem.undot path) = isDirAt fs path := by
  rw [isDirAt, isDirAt, lookupAt_undot]

theorem isDirAt_components (p : Plain) : isDirAt fs p.components = fs.isDir p := by
  rw [isDirAt, lookupAt_components, isDir, canonicalize]
  cases fs.lookup p with
  | error e => rfl
  | ok spot =>
    cases spot with
    | missing dir name => rfl
    | found loc => rfl

theorem workspaceRelative_nonempty (hplain : PlainlyWritten path) :
    Text.isEmpty (workspaceRelative path) = false := by
  obtain ⟨hne, hnames⟩ := hplain
  rw [workspaceRelative, writtenPieces_eq ⟨hne, hnames⟩, relativeText, Text.isEmpty, slashed,
    String.toList_ofList, List.isEmpty_map]
  generalize (splitOn '/' path.toList).dropWhile isSkipped = pieces at hne hnames
  cases pieces with
  | nil => exact absurd rfl hne
  | cons piece pieces =>
    have hname := hnames piece List.mem_cons_self
    have hpiece : piece ≠ [] := by
      rintro rfl
      cases hname
    rw [List.map_cons]
    by_cases hpieces : pieces.map String.ofList = []
    · rw [hpieces, Text.join, String.toList_ofList]
      exact List.isEmpty_eq_false_iff.mpr hpiece
    · rw [Text.join_cons hpieces, String.toList_append, String.toList_append]
      simp [hpiece]

/-! ### Paths that pass no link -/

theorem visited_direct (hw : Workspace op fs root base) (hdirect : fs.LinkFree base names)
    (hfronts : ∀ front, front <+: names → front ≠ [] → front ≠ names →
      (!Text.isEmpty (relativeText front) && ignore (relativeText front) true) = false)
    (hpassed : Passed fs root ignore names)
    (hcanon : fs.canonicalize (root.below names) = .ok loc) : Visited op fs root ignore names := by
  induction names using List.reverseRecOn generalizing loc with
  | nil => exact hw.visited_root
  | append_singleton up name ih =>
    obtain ⟨dir, hup, hdir, -⟩ := canonicalize_below hw.canonical hcanon
    have hfront : ∀ front, front <+: up → front <+: up ++ [name] :=
      fun front h => h.trans (List.prefix_append _ _)
    have hshort : ∀ front, front <+: up → front ≠ up ++ [name] := by
      rintro front hpre rfl
      have hlen := hpre.length_le
      rw [List.length_append, List.length_singleton] at hlen
      omega
    have hvisited : Visited op fs root ignore up := by
      refine ih (fun front h => hdirect front (hfront front h))
        (fun front h hne _ => hfronts front (hfront front h) hne (hshort front h)) ?_ hup
      by_cases hnil : up = []
      · rw [hnil]
        exact passed_nil
      · rw [Passed, isDir_of_canonicalize hup, hdir]
        exact hfronts up (List.prefix_append _ _) hnil (hshort up List.prefix_rfl)
    obtain rfl := canonicalize_plain hw.canonical hdirect hcanon
    exact hvisited.concat hup hcanon (hw.inside_base _) hpassed hw.canonical

/-- **What is read from a changed path is what it contributes.** -/
theorem changedChunks_eq_contribution (hw : Workspace op fs root base) (hplain : PlainlyWritten path)
    (hslash : path.toList.head? ≠ some '/') (hparent : .parentDir ∉ components path)
    (hdirect : fs.LinkFree base (writtenPieces path))
    (hwhole : ∀ front, front <+: writtenPieces path → front ≠ [] → front ≠ writtenPieces path →
      loadIgnore host fs root (relativeText front) true = true →
        loadIgnore host fs root (workspaceRelative path) false = true) :
    changedChunks host config fs root path = contribution host config fs root (writtenPieces path) := by
  have hpath := @undot_rawJoin root path hslash hparent hplain
  have hsource : sourceChunks host config fs (workspaceRelative path)
      (rawJoin root.components path) = sourceChunks host config fs (workspaceRelative path)
        (root.below (writtenPieces path)).components := by
    rw [← hpath, sourceChunks_undot]
  have hisDir : isDirAt fs (rawJoin root.components path) = fs.isDir (root.below (writtenPieces path)) := by
    rw [← isDirAt_undot, hpath, isDirAt_components]
  rw [changedChunks, hsource, hisDir]
  cases hread : readToString fs (root.below (writtenPieces path)) with
  | error e =>
    rw [sourceChunks_of_error (e := e) (by rw [ToolOperator.readAt_components, hread]),
      contribution_of_not_shown hw fun content hshown => ?_, ite_self, ite_self]
    rw [hshown.2] at hread
    cases hread
  | ok content =>
    obtain ⟨loc, hcanon, hnode⟩ := ToolOperator.readToString_eq_iff.mp hread
    have hfile : fs.isDir (root.below (writtenPieces path)) = false := by
      rw [isDir_of_canonicalize hcanon, isDirectory, hnode]
      rfl
    have hnonempty := workspaceRelative_nonempty hplain
    rw [hfile]
    cases hignored : loadIgnore host fs root (workspaceRelative path) false with
    | true =>
      rw [if_pos rfl, ite_self, contribution_of_not_shown hw fun content hshown => ?_]
      have hpassed := hshown.1.passed
      rw [Passed, hfile, ← workspaceRelative, hnonempty, hignored] at hpassed
      cases hpassed
    | false =>
      have hpassed : Passed fs root (loadIgnore host fs root) (writtenPieces path) := by
        rw [Passed, hfile, ← workspaceRelative, hignored, Bool.and_false]
      have hvisited : Visited op fs root (loadIgnore host fs root) (writtenPieces path) := by
        refine visited_direct hw hdirect (fun front hpre hne hproper => ?_) hpassed hcanon
        rw [Bool.and_eq_false_iff]
        right
        rw [Bool.eq_false_iff]
        intro htrue
        rw [hwhole front hpre hne hproper htrue] at hignored
        cases hignored
      rw [contribution_of_shown hw ⟨hvisited, hread⟩]
      rfl

end Vexcoder.Tools
