import Vexcoder.Tools.Mutations

/-!
# What a call that succeeds does to the files

`Changes` lists what the four tools do when they succeed: a file that is there is only proposed to be
written, a patch goes through a file next to the target, an edit writes the file it has read, and a
rename makes directories before it moves its source.
-/

namespace Vexcoder.Tools

open Base
open Lib.Files FileSystem
open Lib.Files.FileSystem (Plain)

namespace ToolOperator

def named (op : ToolOperator) (path : String) : Plain :=
  op.normalizePath (join op.workingDir (components (Text.trim path)))

variable {op : ToolOperator} {host : EditHost} {fs fs' fs₁ : FileSystem} {path : String}

theorem resolvePath_named {resolved : Plain} (h : op.resolvePath fs path = .ok resolved) :
    resolved = op.named path := by
  rw [resolvePath] at h
  dsimp only at h
  split at h
  · cases h
  split at h
  · cases h
  split at h
  · cases h
  split at h
  · cases h
  · cases h
    rfl

/-- What a call that succeeds has done. -/
inductive Changes (op : ToolOperator) (host : EditHost) (fs : FileSystem) :
    Request → FileSystem → Prop
  | proposed {path content : String} :
    op.resolvePath fs path = .ok (op.named path) →
    fs.isDir (op.named path) = false → fs.exists? (op.named path) = true →
    Changes op host fs (.writeFile path content) fs
  | written {path content : String} {fs₁ fs' : FileSystem} {made : List Location} {loc : Location} :
    op.resolvePath fs path = .ok (op.named path) →
    fs.exists? (op.named path) = false →
    createParent fs (op.named path) = (fs₁, made, .ok ()) →
    fs₁.write (op.named path) content = .ok (fs', loc) →
    Changes op host fs (.writeFile path content) fs'
  | patched {path content : String} {fs₁ fs' : FileSystem} {loc : Location} :
    op.resolvePath fs path = .ok (op.named path) →
    fs.isDir (op.named path) = false →
    fs.write (withExtension (op.named path) "tmp") content = .ok (fs₁, loc) →
    fs₁.renameTo (withExtension (op.named path) "tmp") (op.named path) = .ok fs' →
    Changes op host fs (.applyPatch path content) fs'
  | edited {path oldStr newStr old new : String} {fs' : FileSystem} {loc : Location} :
    op.resolvePath fs path = .ok (op.named path) →
    readToString fs (op.named path) = .ok old →
    editedContent host fs (op.named path) old oldStr newStr = .ok new →
    fs.write (op.named path) new = .ok (fs', loc) →
    Changes op host fs (.editFile path oldStr newStr) fs'
  | stayed {oldPath newPath : String} :
    op.resolvePath fs oldPath = .ok (op.named oldPath) →
    fs.exists? (op.named oldPath) = true →
    op.named oldPath = op.named newPath →
    Changes op host fs (.renameFile oldPath newPath) fs
  | moved {oldPath newPath : String} {fs₁ fs' : FileSystem} {made : List Location} :
    op.resolvePath fs oldPath = .ok (op.named oldPath) →
    op.resolvePath fs newPath = .ok (op.named newPath) →
    fs.exists? (op.named oldPath) = true →
    op.named oldPath ≠ op.named newPath →
    createParent fs (op.named newPath) = (fs₁, made, .ok ()) →
    fs₁.renameTo (op.named oldPath) (op.named newPath) = .ok fs' →
    Changes op host fs (.renameFile oldPath newPath) fs'

variable {content : String} {p : Plain} {made : List Location}

theorem writeFileIn_changes {outcome : WriteFileOutcome}
    (h : op.writeFileIn host fs path content = (fs', .ok outcome)) :
    op.Changes host fs (.writeFile path content) fs' := by
  rw [writeFileIn] at h
  split at h
  · cases h
  rename_i resolved hresolved
  obtain rfl := resolvePath_named hresolved
  split at h
  · cases h
  rename_i hdir
  split at h
  · rename_i hexists
    obtain ⟨rfl, -⟩ := Prod.mk.inj h
    exact .proposed hresolved (Bool.eq_false_iff.mpr hdir) hexists
  rename_i hexists
  split at h
  · cases h
  rename_i fs₁ made hmade
  split at h
  · cases h
  rename_i loc hwrite
  cases h
  exact .written hresolved (Bool.eq_false_iff.mpr hexists) hmade hwrite

theorem editFileIn_changes {oldStr newStr : String}
    (h : op.editFileIn host fs path oldStr newStr = (fs', .ok ())) :
    op.Changes host fs (.editFile path oldStr newStr) fs' := by
  rw [editFileIn] at h
  split at h
  · cases h
  rename_i resolved hresolved
  obtain rfl := resolvePath_named hresolved
  split at h
  · cases h
  split at h
  · cases h
  rename_i old hread
  split at h
  · cases h
  rename_i new hedited
  split at h
  · cases h
  rename_i loc hwrite
  cases h
  exact .edited hresolved hread hedited hwrite

theorem renameFileIn_changes {oldPath newPath text : String}
    (h : op.renameFileIn fs oldPath newPath = (fs', .ok text)) :
    op.Changes host fs (.renameFile oldPath newPath) fs' := by
  rw [renameFileIn] at h
  split at h
  · cases h
  rename_i source hsource
  split at h
  · cases h
  rename_i target htarget
  obtain rfl := resolvePath_named hsource
  obtain rfl := resolvePath_named htarget
  split at h
  · cases h
  rename_i hexists
  rw [Bool.not_eq_true', Bool.not_eq_false] at hexists
  split at h
  · rename_i hsame
    cases h
    exact .stayed hsource hexists hsame
  rename_i hne
  split at h
  · cases h
  rename_i fs₁ made hmade
  split at h
  · cases h
  rename_i hrename
  cases h
  exact .moved hsource htarget hexists hne hmade hrename

theorem applyPatchIn_changes {pending : PendingPatch} (hresolved : op.resolvePath fs path = .ok pending.path)
    (hdir : fs.isDir pending.path = false) (h : op.applyPatchIn fs pending = (fs', .ok ())) :
    op.Changes host fs (.applyPatch path pending.newContent) fs' := by
  have hnamed := resolvePath_named hresolved
  rw [applyPatchIn] at h
  split at h
  · cases h
  dsimp only at h
  split at h
  · cases h
  rename_i fs₁ loc hwrite
  split at h
  · cases h
  rename_i hrename
  cases h
  rw [hnamed] at hresolved hdir hwrite hrename
  exact .patched hresolved hdir hwrite hrename

/-- **A request that succeeds** has done what `Changes` says. -/
theorem executeRequest_changes {host : MutationHost} {request : Request} {text : String}
    (h : executeRequest op host fs request = (fs', .ok text)) :
    op.Changes host.toEditHost fs request fs' := by
  cases request with
  | writeFile path content =>
    rw [executeRequest] at h
    split at h
    · cases h
    split at h
    · cases h
    · rename_i outcome hwrite
      obtain ⟨rfl, -⟩ := Prod.mk.inj h
      exact writeFileIn_changes hwrite
  | applyPatch path content =>
    rw [executeRequest] at h
    split at h
    · cases h
    rename_i resolved hresolved
    split at h
    · cases h
    rename_i hdir
    split at h
    · cases h
    rw [proposePatch, hresolved] at h
    dsimp only at h
    rw [if_neg hdir] at h
    dsimp only at h
    split at h
    · cases h
    · rename_i happly
      obtain ⟨rfl, -⟩ := Prod.mk.inj h
      exact @applyPatchIn_changes op host.toEditHost fs _ path _ hresolved (Bool.eq_false_iff.mpr hdir) happly
  | editFile path oldStr newStr =>
    rw [executeRequest] at h
    split at h
    · cases h
    · rename_i hedit
      obtain ⟨rfl, -⟩ := Prod.mk.inj h
      exact editFileIn_changes hedit
  | renameFile oldPath newPath =>
    exact renameFileIn_changes h

/-! ### Directories in front of a path -/

theorem createParent_makes (fs : FileSystem) (p : Plain) :
    fs.Makes (createParent fs p).1 (createParent fs p).2.1 := by
  rw [createParent]
  cases p.parent with
  | none => exact .refl fs
  | some parent => exact createDirAll_makes fs parent.absolute parent.names

theorem createParent_more {result : Except IoError Unit}
    (h : createParent fs p = (fs₁, made, result)) : fs.MoreDirectories fs₁ := by
  have hmakes := createParent_makes fs p
  rw [h] at hmakes
  exact hmakes.more

/-- Directories are made where there is nothing, and nothing is in the last one. -/
theorem createParent_cases {loc dir : Location} {name : String}
    (hguard : fs.guard p.absolute p.names = some loc) (h : createParent fs p = (fs₁, made, .ok ()))
    (hentry : fs₁.entry p = .ok (dir, name)) : fs₁ = fs ∨ fs₁.node (dir ++ [name]) = none := by
  obtain ⟨up, absolute, rfl, hnul, hup, hdir⟩ := entry_inv hentry
  have hcall : fs.createDirAll absolute up = (fs₁, made, .ok ()) := h
  rcases createDirAll_way hguard hcall with ⟨rfl, -⟩ | ⟨-, dir', hmadeWay⟩
  · exact .inl rfl
  · obtain rfl := hmadeWay.reaches.inj hup
    exact .inr (hmadeWay.empty name)

theorem Changes.linksFrom {request : Request} (h : op.Changes host fs request fs') :
    fs.LinksFrom fs' := by
  cases h with
  | proposed | stayed => exact .refl fs
  | written _ _ hmade hwrite =>
    exact (createParent_more hmade).linksFrom.trans (write_linksFrom hwrite)
  | patched _ _ hwrite hrename =>
    exact (write_linksFrom hwrite).trans (renameTo_linksFrom hrename)
  | edited _ _ _ hwrite => exact write_linksFrom hwrite
  | moved _ _ _ _ hmade hrename =>
    exact (createParent_more hmade).linksFrom.trans (renameTo_linksFrom hrename)

/-! ### One node for each call -/

theorem written_node {loc guard : Location} (hguard : fs.guard p.absolute p.names = some guard)
    (hnew : fs.exists? p = false) (hlink : fs.isSymlink p = false)
    (hmade : createParent fs p = (fs₁, made, .ok ())) (hwrite : fs₁.write p content = .ok (fs', loc)) :
    ∃ dir name, fs₁.entry p = .ok (dir, name) ∧ loc = dir ++ [name] ∧ fs₁.node loc = none := by
  have hlink₁ : fs₁.isSymlink p = false := by
    by_contra h
    obtain ⟨dir, name, target, hentry, hnode⟩ :=
      isSymlink_entry (Bool.not_eq_false _ ▸ h)
    rcases createParent_cases hguard hmade hentry with rfl | hnone
    · exact h hlink
    · rw [hnode] at hnone
      cases hnone
  obtain ⟨dir, name, hentry, rfl⟩ := write_at_entry hwrite hlink₁
  refine ⟨dir, name, hentry, rfl, ?_⟩
  rcases createParent_cases hguard hmade hentry with rfl | hnone
  · exact node_of_not_exists hnew hlink hentry
  · exact hnone

theorem withExtension_cons (name : String) (up : List String) (absolute : Bool) (extension : String) :
    ∃ name', withExtension ⟨name :: up, absolute⟩ extension = ⟨name' :: up, absolute⟩ := ⟨_, rfl⟩

theorem node_not_directory {dir : Location} {name : String} (h : fs.isDir p = false)
    (hentry : fs.entry p = .ok (dir, name)) : fs.node (dir ++ [name]) ≠ some .directory := by
  intro hnode
  have hlookup := lookup_of_entry hentry fun target hlink => by
    rw [hnode] at hlink
    cases hlink
  rw [hnode] at hlookup
  have hcanon : fs.canonicalize p = .ok (dir ++ [name]) := by
    rw [canonicalize, hlookup]
    rfl
  rw [isDir, hcanon] at h
  dsimp only at h
  rw [isDirectory, hnode] at h
  cases h

/-- A patch takes the place of its target, and the file it went through is gone. -/
theorem patched_node {tempLoc : Location} (hlink : fs.isSymlink (withExtension p "tmp") = false)
    (hne : withExtension p "tmp" ≠ p) (hwrite : fs.write (withExtension p "tmp") content = .ok (fs₁, tempLoc))
    (hrename : fs₁.renameTo (withExtension p "tmp") p = .ok fs') :
    ∃ dir name tempName, fs.entry p = .ok (dir, name) ∧
      fs.entry (withExtension p "tmp") = .ok (dir, tempName) ∧ tempLoc = dir ++ [tempName] ∧
      fs'.current = fs.current ∧
      ∀ other, fs'.node other = if other = dir ++ [name] then some (.file content)
        else if other = tempLoc then none else fs.node other := by
  obtain ⟨dir, tempName, htemp, rfl⟩ := write_at_entry hwrite hlink
  obtain ⟨-, hext⟩ := write_spec hwrite
  have hnode := write_node hwrite
  obtain ⟨dir₁, name₁, dir', name', hentry₁, hentry', hfs', node, hfile, hmoves⟩ :=
    renameTo_spec hrename
  rw [entry_extend htemp hext] at hentry₁
  cases hentry₁
  rw [hnode, if_pos rfl] at hfile
  cases hfile
  obtain ⟨names, absolute⟩ := p
  cases names with
  | nil => exact absurd rfl hne
  | cons name up =>
    obtain ⟨tempName', htempName⟩ := withExtension_cons name up absolute "tmp"
    rw [htempName] at hne htemp
    obtain ⟨-, rfl, hup, hdir⟩ := entry_ok_iff.mp htemp
    obtain ⟨hnul', rfl, hup', -⟩ := entry_ok_iff.mp hentry'
    obtain rfl := FileSystem.Reaches.inj hup' (FileSystem.Reaches.extend hup hext)
    have hentry : fs.entry ⟨name' :: up, absolute⟩ = .ok (dir', name') :=
      entry_ok_iff.mpr ⟨hnul', rfl, hup, hdir⟩
    rw [htempName]
    refine ⟨dir', name', tempName, hentry, htemp, rfl, ?_, fun other => ?_⟩
    · rw [hfs', move_current, hext.1]
    rcases hmoves with ⟨hsame, -⟩ | hmove
    · obtain rfl := List.singleton_inj.mp (List.append_cancel_left hsame)
      exact absurd rfl hne
    have hmoved : fs₁.node (dir' ++ [tempName]) = some (.file content) := by
      rw [hnode, if_pos rfl]
    rw [hfs', node_move_file hmove hmoved (fun h => nomatch h), hnode]
    split
    · rfl
    · split
      all_goals rfl

end ToolOperator

end Vexcoder.Tools
