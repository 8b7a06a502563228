import Vexcoder.Tools.IndexTracking

/-!
# Directories that the index does not miss

A directory that is renamed is refreshed under neither of its paths, so the index follows it only when it
has no file below either.  Where the workspace holds no links, a path shows a file exactly when the file
stands there and nothing on the path is ignored (`shown_direct_iff`); so a directory whose files are shown
under neither path changes no contribution (`contribution_moved`).
-/

namespace Vexcoder.Tools

open Base
open Vexcoder.Configuration (SearchConfig)
open Lib.Files FileSystem
open Lib.Files.FileSystem (Plain DirectoryMoves)

/-- Neither the path nor a directory on it is ignored. -/
def Unignored (ignore : String → Bool → Bool) (names : List String) : Prop :=
  ∀ front, front <+: names →
    (!Text.isEmpty (relativeText front) && ignore (relativeText front) (decide (front ≠ names))) = false

/-- A file that stands there is in the index. -/
def IndexedAs (host : IndexHost) (fs : FileSystem) (root : Plain) (names : List String) : Prop :=
  detectSourceLanguage (root.below names).components ≠ none ∧
    Unignored (loadIgnore host fs root) names

/-- A directory of a workspace without links, with no indexed file below its path or the new one. -/
structure MovesUnseen (host : IndexHost) (fs : FileSystem) (root : Plain) (base : Location)
    (old new : List String) : Prop where
  plainRoot : root = ⟨base.reverse, true⟩
  noLinks : ∀ names, ¬ fs.IsLink (base ++ names)
  directory : fs.node (base ++ old) = some .directory
  unseen : ∀ rest content, fs.node (base ++ (old ++ rest)) = some (.file content) →
    ¬ IndexedAs host fs root (old ++ rest) ∧ ¬ IndexedAs host fs root (new ++ rest)

variable {op : ToolOperator} {host : IndexHost} {config : SearchConfig} {fs fs' : FileSystem}
  {root : Plain} {base loc : Location} {names front old new : List String} {content : String}
  {ignore : String → Bool → Bool}

/-! ### What a path without links shows -/

theorem Visited.of_prefix (h : Visited op fs root ignore names) (hpre : front <+: names) :
    Visited op fs root ignore front := by
  obtain ⟨rest, rfl⟩ := hpre
  induction rest using List.reverseRecOn with
  | nil =>
    rw [List.append_nil] at h
    exact h
  | append_singleton up name ih =>
    rw [← List.append_assoc] at h
    exact ih h.parent.1

theorem hasNul_front (hpre : front <+: names) (h : (root.below names).hasNul = false) :
    (root.below front).hasNul = false := by
  obtain ⟨rest, rfl⟩ := hpre
  simp only [Plain.hasNul, Plain.below, List.reverse_append, List.append_assoc, List.any_append,
    Bool.or_eq_false_iff] at h ⊢
  exact h.2

theorem readToString_direct (hroot : fs.canonicalize root = .ok base)
    (hlinks : fs.LinkFree base names) :
    readToString fs (root.below names) = .ok content ↔
      (root.below names).hasNul = false ∧ fs.node (base ++ names) = some (.file content) := by
  rw [ToolOperator.readToString_eq_iff]
  constructor
  · rintro ⟨loc, hcanon, hnode⟩
    rw [canonicalize_plain hroot hlinks hcanon] at hnode
    exact ⟨(canonicalize_ok_iff.mp hcanon).1, hnode⟩
  · rintro ⟨hnul, hnode⟩
    exact ⟨base ++ names, canonicalize_direct hroot hlinks hnul
      (by rw [hnode]; exact Option.some_ne_none _), hnode⟩

theorem isDir_front (hroot : fs.canonicalize root = .ok base) (hlinks : fs.LinkFree base names)
    (hnul : (root.below names).hasNul = false) (hfile : fs.node (base ++ names) = some (.file content))
    (hpre : front <+: names) : fs.isDir (root.below front) = decide (front ≠ names) := by
  obtain ⟨rest, rfl⟩ := hpre
  have hthere : fs.node (base ++ front ++ rest) ≠ none := by
    rw [List.append_assoc, hfile]
    exact Option.some_ne_none _
  have hfront : fs.node (base ++ front) = some (if rest = [] then .file content else .directory) := by
    by_cases hrest : rest = []
    · rw [if_pos hrest]
      rw [hrest, List.append_nil] at hfile
      exact hfile
    · rw [if_neg hrest]
      exact directory_of_below hrest hthere
  have hcanon := canonicalize_direct hroot
    (hlinks.of_prefix (List.prefix_append front rest))
    (hasNul_front (List.prefix_append front rest) hnul)
    (by rw [hfront]; exact Option.some_ne_none _)
  rw [isDir_of_canonicalize hcanon, isDirectory, hfront]
  by_cases hrest : rest = [] <;> simp [hrest]

/-- **What a path without links shows**: the file that stands there, when nothing on it is ignored. -/
theorem shown_direct_iff (hw : Workspace op fs root base) (hlinks : fs.LinkFree base names) :
    Shown op fs root ignore names content ↔
      (root.below names).hasNul = false ∧ fs.node (base ++ names) = some (.file content) ∧
        Unignored ignore names := by
  rw [Shown, readToString_direct hw.canonical hlinks]
  constructor
  · rintro ⟨hvisited, hnul, hfile⟩
    refine ⟨hnul, hfile, fun front hpre => ?_⟩
    have hpassed := (hvisited.of_prefix hpre).passed
    rw [Passed, isDir_front hw.canonical hlinks hnul hfile hpre] at hpassed
    exact hpassed
  · rintro ⟨hnul, hfile, hunignored⟩
    have hcanon := canonicalize_direct hw.canonical hlinks hnul
      (by rw [hfile]; exact Option.some_ne_none _)
    refine ⟨visited_direct hw hlinks ?_ ?_ hcanon, hnul, hfile⟩
    · intro front hpre _ hproper
      have hpassed := hunignored front hpre
      rw [decide_eq_true hproper] at hpassed
      exact hpassed
    · rw [Passed, isDir_front hw.canonical hlinks hnul hfile List.prefix_rfl]
      exact hunignored names List.prefix_rfl

/-! ### A directory that moves unseen -/

theorem prefix_singleton {name : String} (hne : names ≠ []) (h : names <+: [name]) : names = [name] := by
  cases names with
  | nil => exact absurd rfl hne
  | cons first rest =>
    obtain ⟨rfl, hrest⟩ := List.cons_prefix_cons.mp h
    rw [List.prefix_nil.mp hrest]

section Moves

variable (hw : Workspace op fs root base)
  (hmoves : DirectoryMoves fs fs' (base ++ old) (base ++ new))
  (hunseen : MovesUnseen host fs root base old new) (hold : old ≠ []) (hnew : new ≠ [])

include hmoves hunseen

theorem noLinks_moved (names : List String) : ¬ fs'.IsLink (base ++ names) := by
  intro hlink
  obtain hlink | ⟨rest, -, hlink⟩ := hmoves.links _ hlink
  · exact hunseen.noLinks names hlink
  · rw [List.append_assoc] at hlink
    exact hunseen.noLinks (old ++ rest) hlink

include hw hold hnew

theorem workspace_moved : Workspace op fs' root base := by
  -- what is above the workspace is above neither place
  have habove {names front : List String} (hne : names ≠ []) (hpre : front <+: base) :
      ¬ base ++ names <+: front := by
    intro h
    have hlen := (h.trans hpre).length_le
    have hpos := List.length_pos_of_ne_nil hne
    rw [List.length_append] at hlen
    omega
  have hdirs : ∀ front, front <+: base → fs'.isDirectory front = true := by
    intro front hpre
    refine hmoves.stays front (habove hold hpre) (habove hnew hpre) ?_
    have hbase := hw.directory
    obtain ⟨rest, rfl⟩ := hpre
    by_cases hrest : rest = []
    · rw [hrest, List.append_nil] at hbase
      exact hbase
    · rw [isDirectory, beq_iff_eq] at hbase ⊢
      exact directory_of_below hrest (by rw [hbase]; exact Option.some_ne_none _)
  have hbase := hdirs base List.prefix_rfl
  have hroot : (⟨[], true⟩ : Plain).below base = root := by
    rw [hunseen.plainRoot, Plain.below, List.append_nil]
  have hcanon := @canonicalize_direct fs' ⟨[], true⟩ [] base rfl
    (fun front hpre => not_isLink_of_directory (hdirs front hpre))
    (by rw [hroot]; exact (canonicalize_ok_iff.mp hw.canonical).1)
    (by
      rw [isDirectory, beq_iff_eq] at hbase
      rw [List.nil_append, hbase]
      exact Option.some_ne_none _)
  rw [hroot] at hcanon
  exact ⟨hcanon, hbase, hw.workingDir, hw.canonicalWorkingDir⟩

theorem loadIgnore_moved (hapart : old ≠ [".gitignore"]) (hapart' : new ≠ [".gitignore"]) :
    loadIgnore host fs' root = loadIgnore host fs root := by
  have hw' := workspace_moved hw hmoves hunseen hold hnew
  refine loadIgnore_congr fun content => ?_
  rw [readToString_direct hw'.canonical fun _ _ => noLinks_moved hmoves hunseen _,
    readToString_direct hw.canonical fun _ _ => hunseen.noLinks _,
    hmoves.elsewhere (base ++ [".gitignore"]) content
      (fun h => hapart (prefix_singleton hold ((List.prefix_append_right_inj base).mp h)))
      (fun h => hapart' (prefix_singleton hnew ((List.prefix_append_right_inj base).mp h)))]

/-- **A source file is shown as before**: below the two paths none is. -/
theorem shown_moved (hlanguage : detectSourceLanguage (root.below names).components ≠ none) :
    Shown op fs' root (loadIgnore host fs root) names content ↔
      Shown op fs root (loadIgnore host fs root) names content := by
  rw [shown_direct_iff (workspace_moved hw hmoves hunseen hold hnew)
      fun _ _ => noLinks_moved hmoves hunseen _,
    shown_direct_iff hw fun _ _ => hunseen.noLinks _]
  refine and_congr_right fun _ => ?_
  by_cases hbelow : new <+: names
  · obtain ⟨rest, rfl⟩ := hbelow
    refine iff_of_false ?_ ?_
    · rintro ⟨hfile, hunignored⟩
      rw [← List.append_assoc] at hfile
      have hsource := hmoves.arrived rest content hfile
      rw [List.append_assoc] at hsource
      exact (hunseen.unseen rest content hsource).2 ⟨hlanguage, hunignored⟩
    · rintro ⟨hfile, -⟩
      rw [← List.append_assoc] at hfile
      exact hmoves.empty rest content hfile
  have htarget : ¬ base ++ new <+: base ++ names :=
    fun h => hbelow ((List.prefix_append_right_inj base).mp h)
  by_cases hsource : old <+: names
  · obtain ⟨rest, rfl⟩ := hsource
    refine iff_of_false ?_ ?_
    · rintro ⟨hfile, -⟩
      rw [← List.append_assoc] at hfile htarget
      exact hmoves.left rest content htarget hfile
    · rintro ⟨hfile, hunignored⟩
      exact (hunseen.unseen rest content hfile).1 ⟨hlanguage, hunignored⟩
  · rw [hmoves.elsewhere _ _ (fun h => hsource ((List.prefix_append_right_inj base).mp h)) htarget]

/-- **No contribution changes.** -/
theorem contribution_moved (hapart : old ≠ [".gitignore"]) (hapart' : new ≠ [".gitignore"])
    (names : List String) :
    contribution host config fs' root names = contribution host config fs root names := by
  by_cases hlanguage : detectSourceLanguage (root.below names).components = none
  · rw [contribution_of_language hlanguage, contribution_of_language hlanguage]
  · refine contribution_congr hw (workspace_moved hw hmoves hunseen hold hnew) fun content => ?_
    rw [loadIgnore_moved hw hmoves hunseen hold hnew hapart hapart']
    exact shown_moved hw hmoves hunseen hold hnew hlanguage

end Moves

end Vexcoder.Tools
