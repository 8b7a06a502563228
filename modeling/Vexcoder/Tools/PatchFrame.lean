import Vexcoder.Tools.FileEffects

/-!
# What a patch leaves alone

`apply_patch` writes the new text to a path next to its target, the one with the extension `tmp`, and
renames that to the target.  What stood at that path is overwritten and then gone, and it stays there
when the rename fails: `patch_frames_iff` says which patches change nothing but their target.
-/

namespace Vexcoder.Tools

open Base
open Lib.Files FileSystem
open Lib.Files.FileSystem (Plain)

/-- What the calls of the system can meet in a patch. -/
structure PatchFaults where
  write : Option WriteFault := none
  renameRefused : Bool := false

/-- Nothing can be renamed to the path: it is no entry, or a directory stands there. -/
def RenameFails (fs : FileSystem) (p : Plain) : Prop :=
  match fs.entryAt p with
  | none => True
  | some loc => fs.isDirectory loc = true

instance (fs : FileSystem) (p : Plain) : Decidable (RenameFails fs p) :=
  match h : fs.entryAt p with
  | none => isTrue (by rw [RenameFails, h]; trivial)
  | some loc => decidable_of_iff (fs.isDirectory loc = true) (by rw [RenameFails, h])

/-- Neither a file nor a link stands at the path. -/
def Vacant (fs : FileSystem) (p : Plain) : Prop :=
  ∀ loc, fs.entryAt p = some loc → fs.node loc = none

namespace ToolOperator

variable {op : ToolOperator} {fs fs₁ : FileSystem} {loc : Location} {p : Plain} {content : String}

/-! ### The rename after the write -/

theorem entry_of_hasNul (fs : FileSystem) (h : p.hasNul = true) : fs.entry p = .error .invalidInput := by
  rw [entry, if_pos h]

/-- The paths of a patch lie in one directory. -/
theorem entry_sibling {dir : Location} {tempName : String}
    (htemp : fs.entry (withExtension p "tmp") = .ok (dir, tempName)) :
    p.hasNul = true ∨ ∃ name, fs.entry p = .ok (dir, name) ∧
      (withExtension p "tmp" = p ↔ tempName = name) := by
  obtain ⟨names, absolute⟩ := p
  cases names with
  | nil => cases absolute <;> cases htemp
  | cons name up =>
    obtain ⟨tempName', hsibling⟩ := withExtension_cons name up absolute "tmp"
    rw [hsibling] at htemp ⊢
    obtain ⟨-, rfl, hup, hdir⟩ := entry_ok_iff.mp htemp
    cases hnul : (Plain.mk (name :: up) absolute).hasNul with
    | true => exact .inl rfl
    | false =>
      refine .inr ⟨name, entry_ok_iff.mpr ⟨hnul, rfl, hup, hdir⟩, ?_⟩
      simp

/-- **The rename of a patch**, once its text is written. -/
theorem renameTo_sibling (hwrite : fs.write (withExtension p "tmp") content = .ok (fs₁, loc)) :
    (RenameFails fs p ∧ ∃ e, fs₁.renameTo (withExtension p "tmp") p = .error e) ∨
      ¬ RenameFails fs p ∧ ∃ temp target fs',
        fs.entryAt (withExtension p "tmp") = some temp ∧ fs.entryAt p = some target ∧
        fs₁.renameTo (withExtension p "tmp") p = .ok fs' ∧
        (withExtension p "tmp" = p ∧ fs' = fs₁ ∨
          withExtension p "tmp" ≠ p ∧ temp ≠ target ∧ ∃ node, fs₁.node temp = some node ∧
            ∀ other, fs'.node other = if other = target then some node
              else if other = temp then none else fs₁.node other) := by
  obtain ⟨hput, hext⟩ := write_spec hwrite
  obtain ⟨dir, tempName, htemp⟩ := opensAt_entry (write_ok_iff.mp ⟨fs₁, hwrite⟩)
  have htemp₁ := entry_extend htemp hext
  obtain ⟨node, hnode, hplain⟩ :=
    write_entry hwrite htemp (entry_isDirectory htemp)
  rcases entry_sibling htemp with hnul | ⟨name, hentry, hsame⟩
  · left
    refine ⟨?_, .invalidInput, ?_⟩
    · rw [RenameFails, entryAt, entry_of_hasNul fs hnul]
      trivial
    · rw [renameTo, htemp₁, entry_of_hasNul fs₁ hnul]
  have hentry₁ := entry_extend hentry hext
  have hfails : RenameFails fs p ↔ fs.isDirectory (dir ++ [name]) = true := by
    rw [RenameFails, entryAt, hentry]
  have hdirectory : fs₁.isDirectory (dir ++ [name]) = fs.isDirectory (dir ++ [name]) := by
    rw [Bool.eq_iff_iff]
    constructor
    · intro h
      rw [hput] at h
      exact isDirectory_put_file h
    · exact hext.isDirectory
  by_cases hname : tempName = name
  · right
    have hrename : fs₁.renameTo (withExtension p "tmp") p = .ok fs₁ := by
      rw [renameTo, htemp₁, hentry₁, hname]
      dsimp only
      rw [hname] at hnode
      rw [renameEntry, hnode]
      dsimp only
      rw [if_pos rfl, move, dif_neg fun hmove => hmove.2.2.1 (List.prefix_refl _)]
    refine ⟨?_, dir ++ [tempName], dir ++ [name], fs₁, ?_, ?_, hrename, .inl ⟨hsame.mpr hname, rfl⟩⟩
    · intro hdir
      rw [hfails, ← hdirectory, ← hname, isDirectory, hnode, beq_iff_eq] at hdir
      exact hplain (Option.some.inj hdir)
    · rw [entryAt, htemp]
    · rw [entryAt, hentry]
  have hlocation : dir ++ [tempName] ≠ dir ++ [name] := fun heq =>
    hname (List.singleton_inj.mp (List.append_cancel_left heq))
  have hrename := renameEntry_file hnode hplain hlocation
  rw [hdirectory] at hrename
  cases hdir : fs.isDirectory (dir ++ [name]) with
  | true =>
    left
    rw [hdir, if_pos rfl] at hrename
    refine ⟨hfails.mpr hdir, .isDirectory, ?_⟩
    rw [renameTo, htemp₁, hentry₁]
    dsimp only
    rw [hrename]
  | false =>
    right
    rw [hdir, if_neg Bool.false_ne_true] at hrename
    have hdone : fs₁.renameTo (withExtension p "tmp") p =
        .ok (fs₁.move (dir ++ [tempName]) (dir ++ [name])) := by
      rw [renameTo, htemp₁, hentry₁]
      dsimp only
      rw [hrename]
    have hmove : fs₁.CanMove (dir ++ [tempName]) (dir ++ [name]) := by
      have hparent : fs₁.node (dir ++ [name]).dropLast = some .directory := by
        rw [List.dropLast_concat]
        exact beq_iff_eq.mp (entry_isDirectory hentry₁)
      exact canMove_of_renameEntry (by simp) (by simp) hlocation hparent hrename
    refine ⟨fun h => ?_, dir ++ [tempName], dir ++ [name], _, ?_, ?_, hdone,
      .inr ⟨fun h => hname (hsame.mp h), hlocation, node, hnode, ?_⟩⟩
    · rw [hfails, hdir] at h
      cases h
    · rw [entryAt, htemp]
    · rw [entryAt, hentry]
    · exact node_move_file hmove hnode hplain

/-! ### The patch -/

/-- `apply_patch` with calls of the system that may fail. -/
def applyPatchWith (op : ToolOperator) (fs : FileSystem) (faults : PatchFaults)
    (pending : PendingPatch) : FileSystem × Except ToolError Unit :=
  match op.ensurePathIsWithinWorkspace fs pending.path with
  | .error e => (fs, .error e)
  | .ok () =>
    let tempPath := withExtension pending.path "tmp"
    match fs.writeWith faults.write tempPath pending.newContent with
    | (fs, .error (some e)) =>
      (fs, .error (.context ("Failed to write temp file: " ++ display tempPath) e))
    | (fs, .error none) => (fs, .error (.message ("Failed to write temp file: " ++ display tempPath)))
    | (fs, .ok ()) =>
      if faults.renameRefused then
        (fs, .error (.message ("Failed to apply patch to: " ++ display pending.path)))
      else
        match fs.renameTo tempPath pending.path with
        | .error e =>
          (fs, .error (.context ("Failed to apply patch to: " ++ display pending.path) e))
        | .ok fs => (fs, .ok ())

/-- Where the calls meet nothing, it is `apply_patch`. -/
theorem applyPatchWith_none (op : ToolOperator) (fs : FileSystem) (pending : PendingPatch) :
    op.applyPatchWith fs {} pending = op.applyPatchIn fs pending := by
  rw [applyPatchWith, applyPatchIn]
  cases op.ensurePathIsWithinWorkspace fs pending.path with
  | error e => rfl
  | ok _ =>
    dsimp only
    rw [writeWith]
    cases fs.write (withExtension pending.path "tmp") pending.newContent with
    | error e => rfl
    | ok written =>
      obtain ⟨fs', loc⟩ := written
      dsimp only
      refine (if_neg Bool.false_ne_true).trans ?_
      cases fs'.renameTo (withExtension pending.path "tmp") pending.path with
      | error e | ok fs'' => rfl

/-- Only the entry of the target may change, and nothing when the patch fails. -/
def ChangesOnlyTarget (op : ToolOperator) (fs : FileSystem) (faults : PatchFaults)
    (pending : PendingPatch) : Prop :=
  match op.applyPatchWith fs faults pending with
  | (fs', .error _) => ∀ other, fs'.node other = fs.node other
  | (fs', .ok ()) => ∀ other, fs.entryAt pending.path ≠ some other → fs'.node other = fs.node other

/-- What is there where the temporary file is opened, for each way that a patch may end. -/
def LeavesRest (fs : FileSystem) (faults : PatchFaults) (pending : PendingPatch) (loc : Location) :
    Prop :=
  let tempPath := withExtension pending.path "tmp"
  match faults.write with
  | some .refused => True
  | some (.cut written) =>
    fs.node loc = some (.file (String.ofList (pending.newContent.toList.take written)))
  | none =>
    if faults.renameRefused = true ∨ RenameFails fs pending.path then
      fs.node loc = some (.file pending.newContent)
    else if tempPath = pending.path then
      fs.entryAt pending.path = some loc ∨ fs.node loc = some (.file pending.newContent)
    else Vacant fs tempPath

theorem write_unchanged_iff (hwrite : fs.write p content = .ok (fs₁, loc)) :
    (∀ other, fs₁.node other = fs.node other) ↔ fs.node loc = some (.file content) := by
  have hnode := write_node hwrite
  constructor
  · intro h
    rw [← h loc, hnode, if_pos rfl]
  · intro h other
    rw [hnode]
    split
    · rename_i heq
      rw [heq, h]
    · rfl

theorem write_target_iff {target : Location} (hwrite : fs.write p content = .ok (fs₁, loc)) :
    (∀ other, some target ≠ some other → fs₁.node other = fs.node other) ↔
      some target = some loc ∨ fs.node loc = some (.file content) := by
  have hnode := write_node hwrite
  constructor
  · intro h
    by_cases hloc : some target = some loc
    · exact .inl hloc
    · right
      rw [← h loc hloc, hnode, if_pos rfl]
  · intro h other hother
    rcases h with htarget | hsame
    · have hne : other ≠ loc := by
        intro heq
        exact hother (heq ▸ htarget)
      rw [hnode, if_neg hne]
    · exact (write_unchanged_iff hwrite).mpr hsame other

theorem moved_target_iff {temp target : Location} {fs' : FileSystem} {node : Node}
    (hwrite : fs.write (withExtension p "tmp") content = .ok (fs₁, loc))
    (htemp : fs.entryAt (withExtension p "tmp") = some temp) (hne : temp ≠ target)
    (hnode : ∀ other, fs'.node other = if other = target then some node
      else if other = temp then none else fs₁.node other) :
    (∀ other, some target ≠ some other → fs'.node other = fs.node other) ↔
      Vacant fs (withExtension p "tmp") := by
  have hwritten := write_node hwrite
  constructor
  · intro h found hfound
    rw [htemp] at hfound
    obtain rfl := Option.some.inj hfound
    rw [← h temp fun heq => hne (Option.some.inj heq).symm, hnode, if_neg hne, if_pos rfl]
  · intro h other hother
    have hnone := h temp htemp
    have hlink : fs.isSymlink (withExtension p "tmp") = false := by
      rw [Bool.eq_false_iff]
      intro hlink
      obtain ⟨dir, name, link, hentry, hfound⟩ := isSymlink_entry hlink
      rw [h (dir ++ [name]) (by rw [entryAt, hentry])] at hfound
      cases hfound
    obtain ⟨dir, name, hentry, rfl⟩ := write_at_entry hwrite hlink
    rw [entryAt, hentry] at htemp
    obtain rfl := Option.some.inj htemp
    rw [hnode, if_neg fun heq => hother (congrArg some heq.symm)]
    by_cases hother' : other = dir ++ [name]
    · rw [if_pos hother', hother', hnone]
    · rw [if_neg hother', hwritten, if_neg hother']

/-- A write that reaches no place to open leaves an error, whatever it meets. -/
theorem writeWith_of_not_opensAt (fault : Option WriteFault) (content : String)
    (hopen : fs.opensAt p = none) : ∃ e, fs.writeWith fault p content = (fs, .error e) := by
  have herror : ∀ content, ∃ e, fs.write p content = .error e := by
    intro content
    cases hwrite : fs.write p content with
    | error e => exact ⟨e, rfl⟩
    | ok written =>
      obtain ⟨fs', loc⟩ := written
      rw [write_ok_iff.mp ⟨fs', hwrite⟩] at hopen
      cases hopen
  cases fault with
  | none =>
    obtain ⟨e, he⟩ := herror content
    exact ⟨some e, by rw [writeWith, he]⟩
  | some fault =>
    cases fault with
    | refused => exact ⟨none, rfl⟩
    | cut written =>
      obtain ⟨e, he⟩ := herror (String.ofList (content.toList.take written))
      exact ⟨some e, by rw [writeWith, he]⟩

/-- **`apply_patch` changes only its target** exactly when nothing stands at the path of its temporary
file, or that is the target, or what is left there was there before. -/
theorem patch_frames_iff (op : ToolOperator) (fs : FileSystem) (faults : PatchFaults)
    (pending : PendingPatch) :
    op.ChangesOnlyTarget fs faults pending ↔
      (op.ensurePathIsWithinWorkspace fs pending.path = .ok () → ∀ loc,
        fs.opensAt (withExtension pending.path "tmp") = some loc →
          LeavesRest fs faults pending loc) := by
  rw [ChangesOnlyTarget, applyPatchWith]
  cases hinside : op.ensurePathIsWithinWorkspace fs pending.path with
  | error e => exact iff_of_true (fun _ => rfl) fun h => nomatch h
  | ok done =>
    simp only [forall_const]
    cases hopen : fs.opensAt (withExtension pending.path "tmp") with
    | none =>
      obtain ⟨e, he⟩ := writeWith_of_not_opensAt faults.write pending.newContent hopen
      rw [he]
      refine iff_of_true ?_ fun _ h => nomatch h
      cases e with
      | none => exact fun _ => rfl
      | some e => exact fun _ => rfl
    | some loc =>
      have hwrites := fun content => (@write_ok_iff fs loc
        (withExtension pending.path "tmp") content).mpr hopen
      simp only [Option.some.injEq, forall_eq']
      rw [LeavesRest]
      cases faults.write with
      | some fault =>
        cases fault with
        | refused => exact iff_of_true (fun _ => rfl) trivial
        | cut written =>
          obtain ⟨fs₁, hwrite⟩ := hwrites (String.ofList (pending.newContent.toList.take written))
          dsimp only [writeWith]
          rw [hwrite]
          exact write_unchanged_iff hwrite
      | none =>
        obtain ⟨fs₁, hwrite⟩ := hwrites pending.newContent
        dsimp only [writeWith]
        rw [hwrite]
        dsimp only
        by_cases hrefused : faults.renameRefused = true
        · rw [if_pos hrefused, if_pos (.inl hrefused)]
          exact write_unchanged_iff hwrite
        rw [if_neg hrefused]
        rcases renameTo_sibling hwrite with ⟨hfails, e, herror⟩ |
          ⟨hfails, temp, target, fs', htemp, htarget, hrename, ⟨hsame, rfl⟩ | ⟨hne, hapart, node, -, hnode⟩⟩
        · rw [herror, if_pos (.inr hfails)]
          exact write_unchanged_iff hwrite
        · rw [hrename, if_neg (not_or.mpr ⟨hrefused, hfails⟩), if_pos hsame, htarget]
          exact write_target_iff hwrite
        · rw [hrename, if_neg (not_or.mpr ⟨hrefused, hfails⟩), if_neg hne, htarget]
          exact moved_target_iff hwrite htemp hapart hnode

/-! ### A file that a patch takes away -/

def siblingFiles : FileSystem where
  entries := [(["ws"], .directory), (["ws", "a.rs"], .file "old"), (["ws", "a.tmp"], .file "notes")]
  current := ["ws"]
  tree := by decide +kernel

def siblingPatch : PendingPatch where
  diff := ""
  newContent := "new"
  path := ⟨["a.rs", "ws"], true⟩

def siblingOperator : ToolOperator := .new siblingFiles [.rootDir, .normal "ws"]

/-- The file `a.tmp` is gone after a patch of `a.rs`. -/
theorem patch_takes_sibling_away :
    ¬ siblingOperator.ChangesOnlyTarget siblingFiles {} siblingPatch := by
  intro h
  have hdone : (siblingOperator.applyPatchWith siblingFiles {} siblingPatch).2.isOk = true := by
    decide +kernel
  have hgone : (siblingOperator.applyPatchWith siblingFiles {} siblingPatch).1.node ["ws", "a.tmp"] =
      none := by
    decide +kernel
  have hthere : siblingFiles.node ["ws", "a.tmp"] = some (.file "notes") := by decide +kernel
  rw [ChangesOnlyTarget] at h
  generalize siblingOperator.applyPatchWith siblingFiles {} siblingPatch = run at h hdone hgone
  obtain ⟨fs', e | done⟩ := run
  · cases hdone
  · have hsame := h ["ws", "a.tmp"] (by decide +kernel)
    rw [hgone, hthere] at hsame
    cases hsame

end ToolOperator

end Vexcoder.Tools
