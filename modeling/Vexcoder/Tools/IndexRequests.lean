import Vexcoder.Tools.IndexMoves

/-!
# Calls that the index can follow

`IndexFollows` is about the state before a call and the paths of the call.  Under it a call that succeeds
changes files at the places that its paths name, and at the place of the temporary file of a patch, or it
moves a directory with no indexed file (`changes_filesChange`).
-/

namespace Vexcoder.Tools

open Base
open Lib.Files FileSystem ToolOperator
open Lib.Files.FileSystem (Plain FilesChange Creates DirectoryMoves)
open Tools.ToolOperator (createParent Changes)

def tempPieces (path : String) : List String :=
  (withExtension ⟨(writtenPieces path).reverse, false⟩ "tmp").names.reverse

/-- Where a request changes files. -/
def changedPlaces (base : Location) : Request → List Location
  | .writeFile path _ | .editFile path .. => [base ++ writtenPieces path]
  | .applyPatch path _ => [base ++ tempPieces path, base ++ writtenPieces path]
  | .renameFile oldPath newPath => [base ++ writtenPieces oldPath, base ++ writtenPieces newPath]

/-- The path that a request may create. -/
def Request.target : Request → String
  | .writeFile path _ | .applyPatch path _ | .editFile path .. => path
  | .renameFile _ newPath => newPath

/-- A path that is written plainly, passes no link, is not `.gitignore`, is ignored with the directories
on it, and shares its text with no other file. -/
structure Trackable (host : IndexHost) (fs : FileSystem) (root : Plain) (base : Location)
    (path : String) : Prop where
  written : PlainlyWritten path
  direct : fs.LinkFree base (writtenPieces path)
  notIgnoreFile : writtenPieces path ≠ [".gitignore"]
  ignoredWhole : ∀ front, front <+: writtenPieces path → front ≠ [] → front ≠ writtenPieces path →
    loadIgnore host fs root (relativeText front) true = true →
      loadIgnore host fs root (workspaceRelative path) false = true
  alone : ∀ names ∈ indexedPaths host fs root, relativeText names = workspaceRelative path →
    names = writtenPieces path

/-- What a request has to meet for the index to follow it. -/
structure IndexFollows (op : ToolOperator) (host : IndexHost) (fs : FileSystem) (root : Plain)
    (base : Location) (request : Request) : Prop where
  trackable : ∀ path ∈ request.paths, Trackable host fs root base path
  apart : LinksApart op fs root (loadIgnore host fs root) (changedPlaces base request)
    (fs.node (base ++ writtenPieces request.target) = none)
  plainTemp : ∀ path content, request = .applyPatch path content → ¬ fs.IsLink (base ++ tempPieces path)
  /-- What is renamed is a file, or a directory with no indexed file below either path. -/
  source : ∀ oldPath newPath, request = .renameFile oldPath newPath →
    writtenPieces oldPath = writtenPieces newPath ∨
      (∃ content, fs.node (base ++ writtenPieces oldPath) = some (.file content)) ∨
      MovesUnseen host fs root base (writtenPieces oldPath) (writtenPieces newPath)

variable {op : ToolOperator} {host : EditHost} {indexHost : IndexHost} {fs fs₁ fs' : FileSystem}
  {root : Plain} {base loc dir : Location} {names up : List String} {name path content : String}
  {request : Request}

/-! ### Places of paths -/

theorem withExtension_below (hne : names ≠ []) :
    withExtension (root.below names) "tmp" =
      root.below (withExtension ⟨names.reverse, false⟩ "tmp").names.reverse := by
  obtain ⟨up, name, rfl⟩ : ∃ up name, names = up ++ [name] :=
    ⟨names.dropLast, names.getLast hne, (List.dropLast_append_getLast hne).symm⟩
  simp [Plain.below, withExtension]

theorem entry_place (hw : Workspace op fs root base)
    (hdirect : fs.LinkFree base names) (hne : names ≠ [])
    (hentry : fs.entry (root.below names) = .ok (dir, name)) :
    dir ++ [name] = base ++ names ∧ fs.Reaches (root.below names.dropLast) dir := by
  obtain ⟨up, last, rfl⟩ : ∃ up last, names = up ++ [last] :=
    ⟨names.dropLast, names.getLast hne, (List.dropLast_append_getLast hne).symm⟩
  rw [below_concat] at hentry
  obtain ⟨hnul, rfl, hup, -⟩ := entry_ok_iff.mp hentry
  obtain ⟨-, hempty, -⟩ := canonicalize_ok_iff.mp hw.canonical
  have hcanon : fs.canonicalize (root.below up) = .ok dir :=
    canonicalize_ok_iff.mpr ⟨hasNul_cons hnul, nonempty_below hempty up, hup⟩
  obtain rfl := canonicalize_plain hw.canonical
    (hdirect.of_prefix (List.prefix_append _ _)) hcanon
  rw [List.dropLast_concat]
  exact ⟨List.append_assoc base up [name], hup⟩

theorem not_isSymlink (hw : Workspace op fs root base)
    (hdirect : fs.LinkFree base names) (hne : names ≠ []) :
    fs.isSymlink (root.below names) = false := by
  rw [Bool.eq_false_iff]
  intro hlink
  obtain ⟨dir, name, target, hentry, hnode⟩ := isSymlink_entry hlink
  obtain ⟨hplace, -⟩ := entry_place hw hdirect hne hentry
  rw [hplace] at hnode
  exact hdirect names List.prefix_rfl ⟨target, hnode⟩

theorem file_or_nothing (hlink : ¬ fs.IsLink loc) (hdir : fs.node loc ≠ some .directory) :
    fs.node loc = none ∨ ∃ old, fs.node loc = some (.file old) := by
  cases hnode : fs.node loc with
  | none => exact .inl rfl
  | some node =>
    cases node with
    | directory => exact absurd hnode hdir
    | link target => exact absurd ⟨target, hnode⟩ hlink
    | file old => exact .inr ⟨old, rfl⟩

/-! ### Directories in front of a path -/

theorem workspace_made (hw : Workspace op fs root base) (hmore : fs.MoreDirectories fs₁) :
    Workspace op fs₁ root base where
  canonical := FileSystem.canonicalize_extend hw.canonical hmore.extends
  directory := hmore.extends.isDirectory hw.directory
  workingDir := hw.workingDir
  canonicalWorkingDir := hw.canonicalWorkingDir

theorem direct_made (hmore : fs.MoreDirectories fs₁) (hdirect : fs.LinkFree base names) :
    fs₁.LinkFree base names := by
  rintro front hfront ⟨target, hnode⟩
  rcases hmore.2 (base ++ front) with hsame | ⟨-, hnew⟩
  · rw [hsame] at hnode
    exact hdirect front hfront ⟨target, hnode⟩
  · rw [hnew] at hnode
    cases hnode

theorem createParent_on_way {absolute : Bool} {guarded : Location} {made : List Location}
    (hguard : fs.guard absolute (name :: up) = some guarded)
    (hmade : createParent fs ⟨name :: up, absolute⟩ = (fs₁, made, .ok ()))
    (hreach : fs₁.Reaches ⟨up, absolute⟩ dir) (loc : Location) :
    fs₁.node loc = fs.node loc ∨ fs.node loc = none ∧ fs₁.node loc = some .directory ∧ loc <+: dir := by
  have hcall : fs.createDirAll absolute up = (fs₁, made, .ok ()) := hmade
  by_cases hthere : ∃ found, fs.Reaches ⟨up, absolute⟩ found
  · obtain ⟨found, hfound⟩ := hthere
    obtain ⟨result, hsame⟩ := createDirAll_reaches hfound
    rw [hsame] at hcall
    cases hcall
    exact .inl rfl
  · have hguard' := guard_of_not_reaches hguard fun found hfound => by
      obtain ⟨front, hfront, -⟩ := hfound.parent
      exact hthere ⟨front, hfront⟩
    rcases createDirAll_new up hguard' fun found hfound => hthere ⟨found, hfound⟩ with
      ⟨e, hfailed⟩ | ⟨_, _, place, hway, hmadeWay⟩
    · rw [hfailed] at hcall
      cases hcall
    rw [hway] at hcall
    cases hcall
    obtain rfl := hmadeWay.reaches.inj hreach
    have hmakes := createDirAll_makes fs absolute up
    rw [hway] at hmakes
    by_cases hmem : loc ∈ made
    · obtain ⟨hnone, hthere⟩ := hmakes.new loc hmem
      exact .inr ⟨hnone, hthere, (hmadeWay.way loc hmem).2⟩
    · exact .inl (hmakes.old loc hmem)

/-! ### What a call that succeeds changes -/

theorem resolved_below (hw : Workspace op fs root base) (htrim : Text.trim path = path)
    (hplain : PlainlyWritten path) {fs₀ : FileSystem}
    (hresolved : op.resolvePath fs₀ path = .ok (op.named path)) :
    op.named path = root.below (writtenPieces path) := by
  obtain ⟨hslash, -, hparent⟩ := resolvePath_written htrim hresolved
  rw [← pathNames_eq hplain]
  exact named_names hw.workingDir hw.components_ne_nil htrim hslash hparent

theorem edited_filesChange (hw : Workspace op fs root base)
    (hdirect : fs.LinkFree base names) (hne : names ≠ [])
    (hwrite : fs.write (root.below names) content = .ok (fs', loc)) :
    FilesChange fs fs' [base ++ names] := by
  obtain ⟨dir, name, hentry, rfl⟩ := write_at_entry hwrite (not_isSymlink hw hdirect hne)
  obtain ⟨hplace, -⟩ := entry_place hw hdirect hne hentry
  rw [← hplace]
  exact .of_write hwrite

theorem written_filesChange (hw : Workspace op fs root base)
    (hdirect : fs.LinkFree base names) (hne : names ≠ [])
    {guarded : Location} {made : List Location}
    (hguard : fs.guard (root.below names).absolute (root.below names).names = some guarded)
    (hmade : createParent fs (root.below names) = (fs₁, made, .ok ()))
    (hwrite : fs₁.write (root.below names) content = .ok (fs', loc)) :
    FilesChange fs fs' [base ++ names] := by
  have hmore := createParent_more hmade
  have hw₁ := workspace_made hw hmore
  have hdirect₁ := direct_made hmore hdirect
  have hchange := edited_filesChange hw₁ hdirect₁ hne hwrite
  obtain ⟨dir, name, hentry, rfl⟩ := write_at_entry hwrite (not_isSymlink hw₁ hdirect₁ hne)
  obtain ⟨hplace, hreach⟩ := entry_place hw₁ hdirect₁ hne hentry
  obtain ⟨up, last, rfl⟩ : ∃ up last, names = up ++ [last] :=
    ⟨names.dropLast, names.getLast hne, (List.dropLast_append_getLast hne).symm⟩
  rw [List.dropLast_concat] at hreach
  rw [below_concat] at hguard hmade
  refine .of_made hmore.1 (createParent_on_way hguard hmade hreach) hchange
    (List.mem_singleton_self _) (hplace ▸ List.prefix_append dir [name]) ?_
  rw [← hplace, write_node hwrite, if_pos rfl]
  exact Option.some_ne_none _

theorem patched_filesChange (hw : Workspace op fs root base)
    (hdirect : fs.LinkFree base names) (hne : names ≠ [])
    {temp : List String} (htemp : withExtension (root.below names) "tmp" = root.below temp)
    (hfronts : temp.dropLast = names.dropLast) (htempNe : temp ≠ [])
    (htempLink : ¬ fs.IsLink (base ++ temp)) (hdir : fs.isDir (root.below names) = false)
    (hwrite : fs.write (root.below temp) content = .ok (fs₁, loc))
    (hrename : fs₁.renameTo (root.below temp) (root.below names) = .ok fs') :
    FilesChange fs fs' [base ++ temp, base ++ names] ∧ (fs'.node (base ++ temp) ≠ none → temp = names) := by
  have hdirectTemp : fs.LinkFree base temp := by
    intro front hfront
    rw [← List.dropLast_append_getLast htempNe] at hfront
    rcases List.prefix_concat_iff.mp hfront with rfl | hfront
    · rw [List.dropLast_append_getLast htempNe]
      exact htempLink
    · rw [hfronts] at hfront
      exact hdirect front (hfront.trans (List.dropLast_prefix names))
  by_cases hsame : temp = names
  · subst hsame
    obtain rfl := renameTo_self hrename
    have hchange := edited_filesChange hw hdirect hne hwrite
    exact ⟨⟨hchange.current, by simpa using hchange.elsewhere, by simpa using hchange.before,
      by simpa using hchange.after⟩, fun _ => rfl⟩
  · have hne' : withExtension (root.below names) "tmp" ≠ root.below names := by
      rw [htemp]
      exact fun heq => hsame (below_inj.mp heq)
    rw [← htemp] at hwrite hrename
    have hlink : fs.isSymlink (withExtension (root.below names) "tmp") = false := by
      rw [htemp]
      exact not_isSymlink hw hdirectTemp htempNe
    obtain ⟨dir, name, tempName, hentry, htempEntry, rfl, hcurrent, hnode⟩ :=
      patched_node hlink hne' hwrite hrename
    rw [htemp] at htempEntry
    obtain ⟨hplace, -⟩ := entry_place hw hdirect hne hentry
    obtain ⟨htempPlace, -⟩ := entry_place hw hdirectTemp htempNe htempEntry
    have hnone : fs'.node (base ++ temp) = none := by
      rw [hnode, if_neg, if_pos htempPlace.symm]
      rw [hplace]
      exact fun heq => hsame (List.append_cancel_left heq)
    refine ⟨?_, fun hthere => absurd hnone hthere⟩
    rw [← hplace, ← htempPlace]
    refine .of_taken hcurrent hnode (write_old hwrite) (file_or_nothing ?_ ?_)
    · rw [hplace]
      exact hdirect names List.prefix_rfl
    · exact node_not_directory hdir hentry

theorem moved_filesChange {names' : List String} (hw : Workspace op fs root base)
    (hdirect : fs.LinkFree base names) (hne : names ≠ [])
    (hdirect' : fs.LinkFree base names') (hne' : names' ≠ [])
    (hapart : names ≠ names') (hfile : fs.node (base ++ names) = some (.file content))
    {guarded : Location} {made : List Location}
    (hguard : fs.guard (root.below names').absolute (root.below names').names = some guarded)
    (hmade : createParent fs (root.below names') = (fs₁, made, .ok ()))
    (hrename : fs₁.renameTo (root.below names) (root.below names') = .ok fs') :
    FilesChange fs fs' [base ++ names, base ++ names'] := by
  have hmore := createParent_more hmade
  have hw₁ := workspace_made hw hmore
  have hfile₁ := hmore.node hfile
  obtain ⟨dir, name, dir', name', hentry, hentry', hfs', node, -, hmoves⟩ :=
    renameTo_spec hrename
  obtain ⟨hplace, -⟩ := entry_place hw₁ (direct_made hmore hdirect) hne hentry
  obtain ⟨hplace', hreach⟩ := entry_place hw₁ (direct_made hmore hdirect') hne' hentry'
  rw [hplace, hplace'] at hmoves hfs'
  have hlocations : base ++ names ≠ base ++ names' := fun heq => hapart (List.append_cancel_left heq)
  have hmove := (hmoves.resolve_left fun h => hlocations h.1)
  have hnode := node_move_file hmove hfile₁ (fun h => nomatch h)
  rw [← hfs'] at hnode
  have htarget : fs₁.node (base ++ names') ≠ some .directory := by
    intro hdir
    have hrenamed := renameEntry_file hfile₁ (fun h => nomatch h) hlocations
    rw [isDirectory, hdir, beq_self_eq_true, if_pos rfl] at hrenamed
    rw [renameTo, hentry, hentry'] at hrename
    dsimp only at hrename
    rw [hplace, hplace', hrenamed] at hrename
    cases hrename
  have hchange : FilesChange fs₁ fs' [base ++ names, base ++ names'] := by
    refine .of_taken ?_ hnode (.inr ⟨content, hfile₁⟩) (file_or_nothing ?_ htarget)
    · rw [hfs', move_current]
    · exact direct_made hmore hdirect' names' List.prefix_rfl
  obtain ⟨up, last, rfl⟩ : ∃ up last, names' = up ++ [last] :=
    ⟨names'.dropLast, names'.getLast hne', (List.dropLast_append_getLast hne').symm⟩
  rw [List.dropLast_concat] at hreach
  rw [below_concat] at hguard hmade
  refine .of_made hmore.1 (createParent_on_way hguard hmade hreach) hchange
    (List.mem_cons_of_mem _ (List.mem_singleton_self _))
    (hplace' ▸ List.prefix_append dir' [name']) ?_
  rw [hnode, if_pos rfl]
  exact Option.some_ne_none _

/-- A directory whose paths pass no link takes its new place with what it holds. -/
theorem moved_directory {names' : List String} (hw : Workspace op fs root base)
    (hdirect : fs.LinkFree base names) (hne : names ≠ [])
    (hdirect' : fs.LinkFree base names') (hne' : names' ≠ [])
    (hapart : names ≠ names') (hdir : fs.node (base ++ names) = some .directory) {made : List Location}
    (hmade : createParent fs (root.below names') = (fs₁, made, .ok ()))
    (hrename : fs₁.renameTo (root.below names) (root.below names') = .ok fs') :
    DirectoryMoves fs fs' (base ++ names) (base ++ names') := by
  have hmore := createParent_more hmade
  have hw₁ := workspace_made hw hmore
  obtain ⟨dir, name, dir', name', hentry, hentry', hfs', node, -, hmoves⟩ :=
    renameTo_spec hrename
  obtain ⟨hplace, -⟩ := entry_place hw₁ (direct_made hmore hdirect) hne hentry
  obtain ⟨hplace', -⟩ := entry_place hw₁ (direct_made hmore hdirect') hne' hentry'
  have hlocations : dir ++ [name] ≠ dir' ++ [name'] := by
    rw [hplace, hplace']
    exact fun heq => hapart (List.append_cancel_left heq)
  have htarget := renameTo_directory hrename hentry hentry'
    (by rw [hplace]; exact hmore.node hdir) hlocations
  have hmove := hmoves.resolve_left fun h => hlocations h.1
  rw [hplace, hplace'] at hmove hfs'
  rw [hplace'] at htarget
  rw [hfs']
  exact .of_move hmore hmove htarget

/-- A call changes files at the places of its paths, and creates one only where its target names nothing. -/
def ChangesFiles (base : Location) (request : Request) (fs fs' : FileSystem) : Prop :=
  ∃ changed, changed ⊆ changedPlaces base request ∧ FilesChange fs fs' changed ∧
    (Creates fs fs' changed → fs.node (base ++ writtenPieces request.target) = none)

/-- **A call that succeeds changes files at the places of its paths**, or moves a directory with no
indexed file. -/
theorem changes_filesChange (hw : Workspace op fs root base)
    (hfollows : IndexFollows op indexHost fs root base request)
    (htrim : ∀ path ∈ request.paths, Text.trim path = path) (h : op.Changes host fs request fs') :
    ChangesFiles base request fs fs' ∨
      ∃ oldPath newPath, request = .renameFile oldPath newPath ∧
        MovesUnseen indexHost fs root base (writtenPieces oldPath) (writtenPieces newPath) ∧
        DirectoryMoves fs fs' (base ++ writtenPieces oldPath) (base ++ writtenPieces newPath) := by
  have hplain := fun path hmem => (hfollows.trackable path hmem).written
  have hdirect := fun path hmem => (hfollows.trackable path hmem).direct
  have hne := fun path hmem => writtenPieces_ne_nil (hplain path hmem)
  have hone : ∀ {place : Location}, Creates fs fs' [place] → fs.node place = none := by
    rintro place ⟨other, hmem, hnone, -⟩
    rw [← List.mem_singleton.mp hmem]
    exact hnone
  cases h with
  | proposed | stayed =>
    exact .inl ⟨[], List.nil_subset _, .refl fs, fun ⟨_, hmem, _⟩ => absurd hmem List.not_mem_nil⟩
  | @written path content _ _ _ _ hresolved _ hmade hwrite =>
    have hmem : path ∈ (Request.writeFile path content).paths := List.mem_singleton_self path
    obtain ⟨guarded, hguard, -⟩ := resolvePath_guard hresolved
    rw [resolved_below hw (htrim path hmem) (hplain path hmem) hresolved] at hguard hmade hwrite
    exact .inl ⟨_, List.Subset.refl _, written_filesChange hw (hdirect path hmem) (hne path hmem) hguard hmade
      hwrite, hone⟩
  | @edited path oldStr newStr _ _ _ _ hresolved _ _ hwrite =>
    have hmem : path ∈ (Request.editFile path oldStr newStr).paths := List.mem_singleton_self path
    rw [resolved_below hw (htrim path hmem) (hplain path hmem) hresolved] at hwrite
    exact .inl ⟨_, List.Subset.refl _, edited_filesChange hw (hdirect path hmem) (hne path hmem) hwrite,
      hone⟩
  | @patched path content _ _ _ hresolved hdir hwrite hrename =>
    have hmem : path ∈ (Request.applyPatch path content).paths := List.mem_singleton_self path
    have hnames := hne path hmem
    have htemp : withExtension (root.below (writtenPieces path)) "tmp" =
        root.below (tempPieces path) := withExtension_below hnames
    rw [resolved_below hw (htrim path hmem) (hplain path hmem) hresolved] at hdir hwrite hrename
    rw [htemp] at hwrite hrename
    obtain ⟨up, name, hpieces⟩ : ∃ up name, writtenPieces path = up ++ [name] :=
      ⟨_, _, (List.dropLast_append_getLast hnames).symm⟩
    have htempPieces : ∃ name', tempPieces path = up ++ [name'] := by
      rw [tempPieces, hpieces]
      simp [withExtension]
    obtain ⟨name', htempPieces⟩ := htempPieces
    obtain ⟨hchange, hgone⟩ := patched_filesChange hw (hdirect path hmem) hnames htemp
      (by rw [htempPieces, hpieces, List.dropLast_concat, List.dropLast_concat])
      (by rw [htempPieces]; simp) (hfollows.plainTemp path content rfl) hdir hwrite hrename
    refine .inl ⟨_, List.Subset.refl _, hchange, fun ⟨place, hplace, hnone, hthere⟩ => ?_⟩
    rcases List.mem_pair.mp hplace with rfl | rfl
    · rw [hgone hthere] at hnone
      exact hnone
    · exact hnone
  | @moved oldPath newPath _ _ _ hresolved hresolved' _ hapart hmade hrename =>
    have hmem : oldPath ∈ (Request.renameFile oldPath newPath).paths := List.mem_cons_self
    have hmem' : newPath ∈ (Request.renameFile oldPath newPath).paths :=
      List.mem_cons_of_mem _ List.mem_cons_self
    obtain ⟨guarded, hguard, -⟩ := resolvePath_guard hresolved'
    have hold := resolved_below hw (htrim oldPath hmem) (hplain oldPath hmem) hresolved
    have hnew := resolved_below hw (htrim newPath hmem') (hplain newPath hmem') hresolved'
    rw [hold, hnew] at hapart hrename
    rw [hnew] at hguard hmade
    have hnames : writtenPieces oldPath ≠ writtenPieces newPath := fun heq => hapart (by rw [heq])
    obtain ⟨content, hfile⟩ | hunseen := (hfollows.source oldPath newPath rfl).resolve_left hnames
    case inr =>
      exact .inr ⟨oldPath, newPath, rfl, hunseen, moved_directory hw (hdirect oldPath hmem)
        (hne oldPath hmem) (hdirect newPath hmem') (hne newPath hmem') hnames hunseen.directory hmade
        hrename⟩
    refine .inl ⟨_, List.Subset.refl _, moved_filesChange hw (hdirect oldPath hmem) (hne oldPath hmem)
      (hdirect newPath hmem') (hne newPath hmem') hnames hfile hguard hmade hrename, ?_⟩
    rintro ⟨place, hplace, hnone, -⟩
    rcases List.mem_pair.mp hplace with rfl | rfl
    · rw [hfile] at hnone
      cases hnone
    · exact hnone

end Vexcoder.Tools
