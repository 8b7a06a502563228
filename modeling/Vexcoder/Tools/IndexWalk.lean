import Mathlib.Data.List.Dedup
import Vexcoder.Tools.CodeIndex

/-!
# What the walk of the index comes to

A path is `Visited` when the walk goes down to it: it lies in a visited directory, inside the workspace,
and is not ignored.  The walk lists the visited paths that are no directories, each of them once
(`mem_walk_iff`, `walk_nodup`); its steps are enough because no path that leads to a directory is longer
than the links and the depth of the tree allow.
-/

namespace Vexcoder.Tools

open Base
open Lib.Files
open Lib.Files.FileSystem (Plain)

variable {op : ToolOperator} {fs : FileSystem} {root : Plain} {ignore : String → Bool → Bool}
  {names up : List String} {name : String} {loc dir : Location}

/-! ### Directories -/

theorem isDir_iff {p : Plain} :
    fs.isDir p = true ↔ ∃ dir, fs.canonicalize p = .ok dir ∧ fs.isDirectory dir = true := by
  rw [FileSystem.isDir]
  cases fs.canonicalize p with
  | error e | ok dir => simp

theorem mem_readDir_iff {p : Plain} (h : fs.canonicalize p = .ok dir) :
    name ∈ readDir fs p ↔ fs.node (dir ++ [name]) ≠ none := by
  rw [readDir, h]
  rw [List.mem_insertionSort, List.mem_dedup, List.mem_filterMap, FileSystem.node, nodeAt,
    if_neg (by simp), Ne, Lib.Assoc.find?_eq_none_iff, not_not]
  constructor
  · rintro ⟨key, hkey, hlast⟩
    split at hlast
    · rename_i hdir
      obtain ⟨front, rfl⟩ := List.getLast?_eq_some_iff.mp hlast
      rw [List.dropLast_concat] at hdir
      rw [← hdir]
      exact hkey
    · cases hlast
  · intro hkey
    exact ⟨dir ++ [name], hkey, by simp⟩

theorem nodup_readDir (fs : FileSystem) (p : Plain) : (readDir fs p).Nodup := by
  rw [readDir]
  split
  · exact List.nodup_nil
  · exact (List.perm_insertionSort _ _).nodup_iff.mpr (List.nodup_dedup _)

/-! ### Visited paths -/

/-- The walk does not skip the path. -/
def Passed (fs : FileSystem) (root : Plain) (ignore : String → Bool → Bool) (names : List String) :
    Prop :=
  (!Text.isEmpty (relativeText names) && ignore (relativeText names) (fs.isDir (root.below names))) = false

inductive Visited (op : ToolOperator) (fs : FileSystem) (root : Plain)
    (ignore : String → Bool → Bool) : List String → Prop
  | root : op.ensurePathIsWithinWorkspace fs root = .ok () → Visited op fs root ignore []
  | entry {up : List String} {name : String} :
    Visited op fs root ignore up → fs.isDir (root.below up) = true →
    name ∈ readDir fs (root.below up) →
    op.ensurePathIsWithinWorkspace fs (root.below (up ++ [name])) = .ok () →
    Passed fs root ignore (up ++ [name]) → Visited op fs root ignore (up ++ [name])

theorem passed_nil : Passed fs root ignore [] := rfl

theorem Visited.passed (h : Visited op fs root ignore names) : Passed fs root ignore names := by
  cases h with
  | root => exact passed_nil
  | entry _ _ _ _ hpassed => exact hpassed

theorem Visited.inside (h : Visited op fs root ignore names) :
    op.ensurePathIsWithinWorkspace fs (root.below names) = .ok () := by
  cases h with
  | root hinside | entry _ _ _ hinside _ => exact hinside

theorem walk_succ (fuel : ℕ) (names : List String) :
    op.walkWorkspaceFilesIgnoring fs root ignore (fuel + 1) names =
      match op.ensurePathIsWithinWorkspace fs (root.below names) with
      | .error _ => []
      | .ok () =>
        if !Text.isEmpty (relativeText names) &&
            ignore (relativeText names) (fs.isDir (root.below names)) then []
        else if fs.isDir (root.below names) then
          ((readDir fs (root.below names)).filter fun name =>
            (op.ensurePathIsWithinWorkspace fs (root.below (names ++ [name]))).isOk).reverse.flatMap
              fun name => op.walkWorkspaceFilesIgnoring fs root ignore fuel (names ++ [name])
        else [names] := rfl

theorem visited_of_mem {fuel : ℕ} {listed : List String}
    (hnames : op.ensurePathIsWithinWorkspace fs (root.below names) = .ok () →
      Passed fs root ignore names → Visited op fs root ignore names)
    (h : listed ∈ op.walkWorkspaceFilesIgnoring fs root ignore fuel names) :
    Visited op fs root ignore listed ∧ fs.isDir (root.below listed) = false := by
  induction fuel generalizing names with
  | zero => cases h
  | succ fuel ih =>
    rw [walk_succ] at h
    split at h
    · cases h
    rename_i hinside
    split at h
    · cases h
    rename_i hpassed
    have hvisited := hnames hinside (Bool.eq_false_iff.mpr hpassed)
    split at h
    · rename_i hdir
      obtain ⟨name, hname, hlisted⟩ := List.mem_flatMap.mp h
      rw [List.mem_reverse] at hname
      exact ih (fun hinside hpassed =>
        .entry hvisited hdir (List.mem_filter.mp hname).1 hinside hpassed) hlisted
    · rename_i hdir
      rw [List.mem_singleton.mp h]
      exact ⟨hvisited, Bool.eq_false_iff.mpr hdir⟩

theorem length_lt_of_isDir {fuel : ℕ} (hfuel : walkFuel fs ≤ fuel)
    (hdir : fs.isDir (root.below up) = true) : up.length + 1 < fuel := by
  obtain ⟨dir, hcanon, -⟩ := isDir_iff.mp hdir
  have hlen := FileSystem.length_le_of_canonicalize hcanon
  have hsize : walkFuel fs = FileSystem.maxLinks * (fs.depth + 1) + (fs.depth + 1) + 1 := by
    rw [walkFuel, Nat.add_mul, Nat.one_mul]
  omega

theorem mem_walk_of_visited {fuel : ℕ} {listed : List String} (hfuel : walkFuel fs ≤ fuel)
    (hvisited : Visited op fs root ignore names)
    (h : listed ∈ op.walkWorkspaceFilesIgnoring fs root ignore (fuel - names.length) names) :
    listed ∈ op.walkWorkspaceFilesIgnoring fs root ignore fuel [] := by
  induction hvisited with
  | root => exact h
  | @entry up name hup hdir hname hinside hpassed ih =>
    have hlen := length_lt_of_isDir hfuel hdir
    refine ih ?_
    obtain ⟨steps, hsteps⟩ : ∃ steps, fuel - up.length = steps + 1 :=
      ⟨fuel - up.length - 1, by omega⟩
    have hrest : fuel - (up ++ [name]).length = steps := by
      rw [List.length_append, List.length_singleton]
      omega
    rw [hrest] at h
    have hnot : (!Text.isEmpty (relativeText up) &&
        ignore (relativeText up) (fs.isDir (root.below up))) = false := hup.passed
    rw [hsteps, walk_succ, hup.inside, hnot, hdir]
    show listed ∈ List.flatMap _ _
    refine List.mem_flatMap.mpr ⟨name, List.mem_reverse.mpr (List.mem_filter.mpr ⟨hname, ?_⟩), h⟩
    rw [hinside]
    rfl

/-- **The walk lists the visited paths that are no directories**, with all the steps that it takes. -/
theorem mem_walk_iff {fuel : ℕ} (hfuel : walkFuel fs ≤ fuel) :
    names ∈ op.walkWorkspaceFilesIgnoring fs root ignore fuel [] ↔
      Visited op fs root ignore names ∧ fs.isDir (root.below names) = false := by
  constructor
  · exact visited_of_mem fun hinside _ => .root hinside
  · rintro ⟨hvisited, hfile⟩
    refine mem_walk_of_visited hfuel hvisited ?_
    have hpos : names.length < fuel := by
      cases hvisited with
      | root => exact Nat.lt_of_lt_of_le (Nat.succ_pos _) hfuel
      | @entry up name hup hdir =>
        rw [List.length_append]
        exact length_lt_of_isDir hfuel hdir
    obtain ⟨steps, hsteps⟩ : ∃ steps, fuel - names.length = steps + 1 :=
      ⟨fuel - names.length - 1, by omega⟩
    have hnot : (!Text.isEmpty (relativeText names) &&
        ignore (relativeText names) (fs.isDir (root.below names))) = false := hvisited.passed
    rw [hsteps, walk_succ, hvisited.inside, hnot, hfile]
    exact List.mem_singleton_self names

theorem prefix_of_mem_walk {fuel : ℕ} {listed : List String}
    (h : listed ∈ op.walkWorkspaceFilesIgnoring fs root ignore fuel names) : names <+: listed := by
  induction fuel generalizing names with
  | zero => cases h
  | succ fuel ih =>
    rw [walk_succ] at h
    split at h
    · cases h
    split at h
    · cases h
    split at h
    · obtain ⟨name, -, hlisted⟩ := List.mem_flatMap.mp h
      exact (List.prefix_append names [name]).trans (ih hlisted)
    · exact List.mem_singleton.mp h ▸ List.prefix_rfl

/-- **Each path is listed once.** -/
theorem walk_nodup (fuel : ℕ) (names : List String) :
    (op.walkWorkspaceFilesIgnoring fs root ignore fuel names).Nodup := by
  induction fuel generalizing names with
  | zero => exact List.nodup_nil
  | succ fuel ih =>
    rw [walk_succ]
    split
    · exact List.nodup_nil
    split
    · exact List.nodup_nil
    split
    · refine List.nodup_flatMap.mpr ⟨fun name _ => ih (names ++ [name]), ?_⟩
      have hentries := ((nodup_readDir fs (root.below names)).filter fun name =>
        (op.ensurePathIsWithinWorkspace fs (root.below (names ++ [name]))).isOk)
      refine (List.nodup_reverse.mpr hentries).imp fun {first second} hne listed hfirst hsecond => ?_
      obtain ⟨rest, hrest⟩ := prefix_of_mem_walk hfirst
      obtain ⟨rest', hrest'⟩ := prefix_of_mem_walk hsecond
      rw [← hrest, List.append_assoc, List.append_assoc] at hrest'
      have hheads := List.append_cancel_left hrest'
      exact hne (List.cons.inj hheads).1.symm
    · exact List.nodup_singleton names

end Vexcoder.Tools
