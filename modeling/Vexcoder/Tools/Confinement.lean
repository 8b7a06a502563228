import Vexcoder.Tools.FileOps

/-!
# Confinement of the file tools

A file tool only touches what lies in the workspace, as long as the links at the ends of its paths do
not lead it out.  `StaysInside` says of the state before a call which links these are: one that dangles
out of the workspace for `write_file`, one at the temporary file of `apply_patch`, one that is renamed
or replaced by `rename_file` and lies outside.  `edit_file` needs nothing.
-/

namespace Vexcoder.Tools.ToolOperator

open Lib.Files
open Lib.Files.FileSystem

inductive FileCall where
  | writeFile (path content : String)
  | editFile (path oldStr newStr : String)
  | applyPatch (pending : PendingPatch)
  | renameFile (oldPath newPath : String)

variable (op : ToolOperator) (host : EditHost) (fs : FileSystem)

/-- What a call creates, overwrites or removes. -/
def touched : FileCall → List Location
  | .writeFile path content => (op.writeFile host fs path content).touched
  | .editFile path oldStr newStr => (op.editFile host fs path oldStr newStr).touched
  | .applyPatch pending => (op.applyPatch fs pending).touched
  | .renameFile oldPath newPath => (op.renameFile fs oldPath newPath).touched

/-- The entry of a path lies inside, when there is one. -/
def EntryInside (path : Plain) : Prop :=
  ∀ loc, fs.entryAt path = some loc → op.inside loc = true

/-- The path itself is a directory, not a link to one. -/
def isRealDirectory (path : Plain) : Bool :=
  match fs.entryAt path with
  | some loc => fs.isDirectory loc
  | none => false

/-- The system can move the one path to the other, with the directories in front of it made. -/
def canRename (source target : Plain) : Bool :=
  match createParent fs target with
  | (fs, _, .ok ()) =>
    match fs.rename source target with
    | .ok locations => !locations.isEmpty
    | .error _ => false
  | (_, _, .error _) => false

def StaysInside : FileCall → Prop
  | .writeFile path _ =>
    ∀ resolved, op.resolvePath fs path = .ok resolved → fs.exists? resolved = false →
      fs.isSymlink resolved = true → ∀ loc, fs.opensAt resolved = some loc → op.inside loc = true
  | .editFile .. => True
  | .applyPatch pending =>
    op.ensurePathIsWithinWorkspace fs pending.path = .ok () →
      let tempPath := withExtension pending.path "tmp"
      ∀ loc, fs.opensAt tempPath = some loc →
        (fs.isSymlink tempPath = true → op.inside loc = true) ∧
          (tempPath = pending.path ∨
            (fs.isSymlink tempPath = true ∧ isRealDirectory fs pending.path = true) ∨
            ∀ parent, pending.path.parent = some parent → ∀ dir, fs.Reaches parent dir → op.inside dir = true)
  | .renameFile oldPath newPath =>
    ∀ source target, op.resolvePath fs oldPath = .ok source →
      op.resolvePath fs newPath = .ok target → fs.exists? source = true → source ≠ target →
      canRename fs source target = true →
        (fs.isSymlink source = true → EntryInside op fs source) ∧
          (fs.isSymlink target = true → fs.exists? target = true → EntryInside op fs target)

variable {op host fs} {path : Plain} {loc dir : Location} {name : String}

/-! ### Directories for a path -/

theorem createParent_made (hguard : fs.guard path.absolute path.names = some loc)
    (hinside : op.inside loc = true) :
    ∀ made ∈ (createParent fs path).2.1, op.inside made = true := by
  obtain ⟨names, absolute⟩ := path
  cases names with
  | nil => exact nofun
  | cons name up =>
    show ∀ made ∈ (fs.createDirAll absolute up).2.1, op.inside made = true
    cases hcanon : fs.canonicalize ⟨name :: up, absolute⟩ with
    | ok found =>
      obtain ⟨hnul, -, hreach⟩ := canonicalize_ok_iff.mp hcanon
      obtain ⟨dir, hup, hdir⟩ := hreach.parent
      rw [createDirAll_directory (hasNul_cons hnul) hup hdir]
      exact nofun
    | error e =>
      have hparent : fs.guard absolute up = some loc := by
        rw [FileSystem.guard, hcanon] at hguard
        exact hguard
      intro made hmade
      obtain ⟨rest, rfl⟩ := createDirAll_behind hparent made hmade
      exact inside_append hinside rest

theorem createParent_of_entry (hentry : fs.entry path = .ok (dir, name)) :
    createParent fs path = (fs, [], .ok ()) := by
  obtain ⟨names, absolute⟩ := path
  cases names with
  | nil => rfl
  | cons name' up =>
    obtain ⟨hnul, -, hup, hdir⟩ := entry_ok_iff.mp hentry
    exact createDirAll_directory (hasNul_cons hnul) hup hdir

variable {fs' : FileSystem} {made : List Location} {content : String}

/-- The entry of a path behind the directories that were made: an old one, or a new name inside. -/
theorem createParent_entry (hguard : fs.guard path.absolute path.names = some loc)
    (hinside : op.inside loc = true) (hmade : createParent fs path = (fs', made, .ok ()))
    (hentry : fs'.entry path = .ok (dir, name)) :
    fs.entry path = .ok (dir, name) ∧ fs' = fs ∧ made = [] ∨
      fs.isSymlink path = false ∧ fs'.isSymlink path = false ∧ op.inside (dir ++ [name]) = true := by
  obtain ⟨up, absolute, rfl, hnul, hup, hdir⟩ := entry_inv hentry
  have hcall : fs.createDirAll absolute up = (fs', made, .ok ()) := hmade
  rcases createDirAll_way hguard hcall with ⟨rfl, rfl⟩ | ⟨hnone, dir', hmadeWay⟩
  · exact .inl ⟨hentry, rfl, rfl⟩
  · obtain rfl := hmadeWay.reaches.inj hup
    obtain ⟨rest, hrest⟩ := (hmadeWay.way dir' hmadeWay.last).1
    refine .inr ⟨?_, ?_, ?_⟩
    · rw [Bool.eq_false_iff]
      intro hlink
      obtain ⟨dir, name', _, hentry', -⟩ := isSymlink_entry hlink
      exact hnone dir (entry_ok_iff.mp hentry').2.2.1
    · rw [isSymlink, hentry]
      dsimp only
      rw [hmadeWay.empty name]
    · rw [← hrest]
      exact inside_append (inside_append hinside rest) [name]

/-! ### The tools -/

theorem entry_inside (hguard : fs.guard path.absolute path.names = some loc) (hinside : op.inside loc = true)
    (hentry : fs.entry path = .ok (dir, name)) (hlink : fs.isSymlink path = true → fs.exists? path = false) :
    op.inside (dir ++ [name]) = true := by
  rcases entry_guarded hguard hentry hlink with heq | heq
  · rw [heq]
    exact hinside
  · rw [heq]
    exact inside_append hinside _

theorem writeResolved_touched {α : Type} {text : String} {done : α}
    (hmade : ∀ loc ∈ made, op.inside loc = true) :
    (∀ loc ∈ (writeResolved fs made path content text done).touched, op.inside loc = true) ↔
      ∀ loc, fs.opensAt path = some loc → op.inside loc = true := by
  rw [writeResolved]
  cases hwrite : fs.write path content with
  | error e =>
    refine ⟨fun _ loc hopen => ?_, fun _ => hmade⟩
    obtain ⟨fs', h⟩ := write_ok_iff.mpr hopen
    rw [hwrite] at h
    cases h
  | ok written =>
    obtain ⟨fs', found⟩ := written
    have hopen : fs.opensAt path = some found := write_ok_iff.mp ⟨fs', hwrite⟩
    constructor
    · intro hall loc hloc
      rw [hopen] at hloc
      cases hloc
      exact hall found (List.mem_append_right _ (List.mem_singleton.mpr rfl))
    · intro hall loc hmem
      rcases List.mem_append.mp hmem with hmem | hmem
      · exact hmade loc hmem
      · rw [List.mem_singleton.mp hmem]
        exact hall found hopen

theorem isDir_exists? (h : fs.isDir path = true) : fs.exists? path = true := by
  rw [isDir] at h
  rw [exists?]
  cases hcanon : fs.canonicalize path with
  | error e =>
    rw [hcanon] at h
    cases h
  | ok found => rfl

theorem readToString_exists? (h : readToString fs path = .ok content) : fs.exists? path = true := by
  rw [readToString] at h
  rw [exists?]
  cases hcanon : fs.canonicalize path with
  | error e =>
    rw [hcanon] at h
    cases h
  | ok found => rfl

theorem editFile_inside (path oldStr newStr : String) :
    ∀ loc ∈ (op.editFile host fs path oldStr newStr).touched, op.inside loc = true := by
  have hnothing : ∀ loc ∈ ([] : List Location), op.inside loc = true :=
    nofun
  rw [editFile]
  cases hresolve : op.resolvePath fs path with
  | error e => exact hnothing
  | ok resolved =>
    obtain ⟨found, hguard, hinside⟩ := resolvePath_guard hresolve
    dsimp only
    split
    · exact hnothing
    cases hread : readToString fs resolved with
    | error e => exact hnothing
    | ok content =>
      dsimp only
      split
      · exact hnothing
      · rw [writeResolved_touched hnothing]
        intro loc hopen
        rw [opensAt_exists hguard (readToString_exists? hread) hopen]
        exact hinside

/-- A file that is written behind new directories is inside unless a link leads it out. -/
theorem write_new_inside (hguard : fs.guard path.absolute path.names = some loc)
    (hinside : op.inside loc = true) (hexists : fs.exists? path = false)
    (hmade : createParent fs path = (fs', made, .ok ()))
    (hlink : fs.isSymlink path = true → ∀ loc, fs.opensAt path = some loc → op.inside loc = true)
    {found : Location} (hopen : fs'.opensAt path = some found) : op.inside found = true := by
  obtain ⟨dir, name, hentry⟩ := opensAt_entry hopen
  rcases createParent_entry hguard hinside hmade hentry with ⟨-, rfl, rfl⟩ | ⟨-, hlink', hnew⟩
  · rcases opensAt_cases hopen with hsymlink | ⟨dir', name', hentry', rfl, -⟩
    · exact hlink hsymlink found hopen
    · exact entry_inside hguard hinside hentry' fun _ => hexists
  · rcases opensAt_cases hopen with hsymlink | ⟨dir', name', hentry', rfl, -⟩
    · rw [hlink'] at hsymlink
      cases hsymlink
    · rw [hentry] at hentry'
      cases hentry'
      exact hnew

theorem writeFile_inside_iff (path content : String) :
    (∀ loc ∈ (op.writeFile host fs path content).touched, op.inside loc = true) ↔
      StaysInside op fs (.writeFile path content) := by
  have hnothing : ∀ loc ∈ ([] : List Location), op.inside loc = true :=
    nofun
  rw [writeFile]
  cases hresolve : op.resolvePath fs path with
  | error e =>
    refine iff_of_true hnothing fun resolved h => ?_
    rw [hresolve] at h
    cases h
  | ok resolved =>
    have hcondition : StaysInside op fs (.writeFile path content) ↔
        (fs.exists? resolved = false → fs.isSymlink resolved = true →
          ∀ loc, fs.opensAt resolved = some loc → op.inside loc = true) := by
      constructor
      · exact fun h => h resolved hresolve
      · intro h resolved' hresolve'
        rw [hresolve] at hresolve'
        cases hresolve'
        exact h
    rw [hcondition]
    obtain ⟨loc, hguard, hinside⟩ := resolvePath_guard hresolve
    dsimp only
    cases hexists : fs.exists? resolved with
    | true =>
      split
      all_goals exact iff_of_true hnothing (by simp)
    | false =>
      have hdir : ¬ fs.isDir resolved = true := fun h => by
        rw [isDir_exists? h] at hexists
        cases hexists
      rw [if_neg hdir]
      have hmade := createParent_made hguard hinside
      cases hparent : createParent fs resolved with
      | mk fs' rest =>
      obtain ⟨made, result⟩ := rest
      rw [hparent] at hmade
      constructor
      · intro hall _ hlink loc hopen
        obtain ⟨dir, name, _, hentry, -⟩ := isSymlink_entry hlink
        rw [createParent_of_entry hentry] at hparent
        cases hparent
        exact (writeResolved_touched hmade).mp hall loc hopen
      · intro hcond
        cases result with
        | error e => exact hmade
        | ok _ =>
          refine (writeResolved_touched hmade).mpr fun found hopen => ?_
          exact write_new_inside hguard hinside hexists hparent (hcond rfl) hopen

theorem entryInside_iff (hentry : fs.entry path = .ok (dir, name)) :
    EntryInside op fs path ↔ op.inside (dir ++ [name]) = true := by
  rw [EntryInside, entryAt, hentry]
  exact ⟨fun h => h _ rfl, fun h loc hloc => Option.some.inj hloc ▸ h⟩

theorem createParent_extends (fs : FileSystem) (path : Plain) : fs.Extends (createParent fs path).1 := by
  obtain ⟨names, absolute⟩ := path
  cases names with
  | nil => exact Extends.refl fs
  | cons name up => exact createDirAll_extends fs absolute up

/-- The entry of a source that exists is inside, unless it is a link that is not. -/
theorem source_inside_iff (hguard : fs.guard path.absolute path.names = some loc)
    (hinside : op.inside loc = true) (hexists : fs.exists? path = true) {target : Plain}
    (hmade : createParent fs target = (fs', made, .ok ())) (hentry : fs'.entry path = .ok (dir, name)) :
    (fs.isSymlink path = true → EntryInside op fs path) ↔ op.inside (dir ++ [name]) = true := by
  have hext : fs.Extends fs' := by
    have h := createParent_extends fs target
    rw [hmade] at h
    exact h
  have hold : fs.entry path = .ok (dir, name) := by
    obtain ⟨up, absolute, rfl, hnul, hup, -⟩ := entry_inv hentry
    obtain ⟨found, hreach⟩ := exists?_reaches hexists
    obtain ⟨dir', hup', hdir'⟩ := hreach.parent
    obtain rfl := (Reaches.extend hup' hext).inj hup
    exact entry_ok_iff.mpr ⟨hnul, rfl, hup', hdir'⟩
  rw [entryInside_iff hold]
  refine ⟨fun h => ?_, fun h _ => h⟩
  cases hlink : fs.isSymlink path with
  | true => exact h hlink
  | false =>
    refine entry_inside hguard hinside hold fun hlink' => ?_
    rw [hlink] at hlink'
    cases hlink'

/-- The entry of a target is inside, unless it is a link to something that is not. -/
theorem target_inside_iff (hguard : fs.guard path.absolute path.names = some loc)
    (hinside : op.inside loc = true) (hmade : createParent fs path = (fs', made, .ok ()))
    (hentry : fs'.entry path = .ok (dir, name)) :
    (fs.isSymlink path = true → fs.exists? path = true → EntryInside op fs path) ↔
      op.inside (dir ++ [name]) = true := by
  rcases createParent_entry hguard hinside hmade hentry with ⟨hold, rfl, -⟩ | ⟨hlink, -, hnew⟩
  · rw [entryInside_iff hold]
    refine ⟨fun h => ?_, fun h _ _ => h⟩
    by_cases hleads : fs'.isSymlink path = true ∧ fs'.exists? path = true
    · exact h hleads.1 hleads.2
    · refine entry_inside hguard hinside hold fun hlink => ?_
      exact Bool.eq_false_iff.mpr fun hexists => hleads ⟨hlink, hexists⟩
  · refine iff_of_true (fun h => ?_) hnew
    rw [hlink] at h
    cases h

theorem renameFile_inside_iff (oldPath newPath : String) :
    (∀ loc ∈ (op.renameFile fs oldPath newPath).touched, op.inside loc = true) ↔
      StaysInside op fs (.renameFile oldPath newPath) := by
  have hnothing : ∀ loc ∈ ([] : List Location), op.inside loc = true :=
    nofun
  rw [renameFile]
  cases hsource : op.resolvePath fs oldPath with
  | error e =>
    refine iff_of_true hnothing fun source target h => ?_
    rw [hsource] at h
    cases h
  | ok source =>
  cases htarget : op.resolvePath fs newPath with
  | error e =>
    refine iff_of_true hnothing fun source' target _ h => ?_
    rw [htarget] at h
    cases h
  | ok target =>
  have hcondition : StaysInside op fs (.renameFile oldPath newPath) ↔
      (fs.exists? source = true → source ≠ target → canRename fs source target = true →
        (fs.isSymlink source = true → EntryInside op fs source) ∧
          (fs.isSymlink target = true → fs.exists? target = true → EntryInside op fs target)) := by
    constructor
    · exact fun h => h source target hsource htarget
    · intro h source' target' hsource' htarget'
      rw [hsource] at hsource'
      rw [htarget] at htarget'
      cases hsource'
      cases htarget'
      exact h
  rw [hcondition]
  obtain ⟨loc, hguard, hinside⟩ := resolvePath_guard hsource
  obtain ⟨loc', hguard', hinside'⟩ := resolvePath_guard htarget
  dsimp only
  cases hexists : fs.exists? source with
  | false => exact iff_of_true hnothing (by simp)
  | true =>
  by_cases hsame : source = target
  · rw [if_pos hsame]
    exact iff_of_true hnothing fun _ h => absurd hsame h
  rw [if_neg hsame]
  have hmade := createParent_made hguard' hinside'
  cases hparent : createParent fs target with
  | mk fs' rest =>
  obtain ⟨made, result⟩ := rest
  rw [hparent] at hmade
  rw [canRename, hparent]
  cases result with
  | error e => exact iff_of_true hmade (by simp)
  | ok _ =>
  dsimp only
  cases hrename : fs'.rename source target with
  | error e => exact iff_of_true hmade (by simp)
  | ok locations =>
  have happend : ∀ loc rest, op.inside loc = true → op.inside (loc ++ rest) = true :=
    fun _ rest h => inside_append h rest
  obtain ⟨dir, name, dir', name', hentry, hentry', hmoved⟩ := rename_inside happend hrename
  have hall : (∀ loc ∈ made ++ locations, op.inside loc = true) ↔
      ∀ loc ∈ locations, op.inside loc = true := by
    rw [List.forall_mem_append]
    exact and_iff_right hmade
  show (∀ loc ∈ made ++ locations, op.inside loc = true) ↔ _
  rw [hall, hmoved, ← source_inside_iff hguard hinside hexists hparent hentry,
    ← target_inside_iff hguard' hinside' hparent hentry']
  cases locations with
  | nil => exact iff_of_true (fun h => absurd rfl h) (by simp)
  | cons location locations => exact ⟨fun h _ _ _ => h (List.cons_ne_nil _ _), fun h _ => h rfl hsame rfl⟩

theorem inside_child (h : op.inside dir = true) (name : String) :
    op.inside (dir ++ [name]) = true := inside_append h [name]

/-- What a patch touches, by the entries of the temporary file and of the target in one directory. -/
theorem patch_inside_iff {up : List String} {name' : String} {absolute : Bool}
    (hguard : fs.guard absolute (name :: up) = some loc) (hinside : op.inside loc = true)
    {found : Location} (hwrite : fs.write ⟨name' :: up, absolute⟩ content = .ok (fs', found))
    {locations : List Location} (hlocations : locations =
      match fs'.rename ⟨name' :: up, absolute⟩ ⟨name :: up, absolute⟩ with
      | .ok locations => locations
      | .error _ => []) (hup : fs.Reaches ⟨up, absolute⟩ dir) :
    (op.inside found = true ∧ ∀ loc ∈ locations, op.inside loc = true) ↔
      (fs.isSymlink ⟨name' :: up, absolute⟩ = true → op.inside found = true) ∧
        (Plain.mk (name' :: up) absolute = ⟨name :: up, absolute⟩ ∨
          (fs.isSymlink ⟨name' :: up, absolute⟩ = true ∧ isRealDirectory fs ⟨name :: up, absolute⟩ = true) ∨
          op.inside dir = true) := by
  have hopen : fs.opensAt ⟨name' :: up, absolute⟩ = some found := write_ok_iff.mp ⟨fs', hwrite⟩
  obtain ⟨hput, hext⟩ := write_spec hwrite
  obtain ⟨dir', name', hentry'⟩ := opensAt_entry hopen
  obtain ⟨-, rfl, hup', hdir⟩ := entry_ok_iff.mp hentry'
  obtain rfl := Reaches.inj hup' hup
  -- without a link at the temporary file its entry is what is written
  have hplain : fs.isSymlink ⟨name' :: up, absolute⟩ = false → found = dir' ++ [name'] := by
    intro hlink
    rcases opensAt_cases hopen with hlink' | ⟨dir, name, hentry, rfl, -⟩
    · rw [hlink] at hlink'
      cases hlink'
    · rw [hentry'] at hentry
      cases hentry
      rfl
  have hnothing : ∀ loc ∈ ([] : List Location), op.inside loc = true :=
    nofun
  have hfound : op.inside dir' = true →
      (fs.isSymlink ⟨name' :: up, absolute⟩ = true → op.inside found = true) → op.inside found = true := by
    intro hdirInside hlink
    cases hsymlink : fs.isSymlink ⟨name' :: up, absolute⟩ with
    | true => exact hlink hsymlink
    | false =>
      rw [hplain hsymlink]
      exact inside_child hdirInside name'
  cases hnul : (Plain.mk (name :: up) absolute).hasNul with
  | true =>
    -- no call takes the target: the file stays where it was written
    have hentry : ∀ fs : FileSystem, fs.entry ⟨name :: up, absolute⟩ = .error .invalidInput :=
      fun fs => by rw [entry, hnul, if_pos rfl]
    have hrename : locations = [] := by
      rw [hlocations, rename, hentry fs']
      cases fs'.entry ⟨name' :: up, absolute⟩ <;> rfl
    have hcanon : fs.canonicalize ⟨name :: up, absolute⟩ = .error .invalidInput := by
      rw [canonicalize, lookup, hnul, if_pos rfl]
    have hdirInside : op.inside dir' = true := by
      rw [FileSystem.guard, hcanon] at hguard
      rw [guard_of_reaches hguard hup (hasNul_cons (entry_ok_iff.mp hentry').1)]
      exact hinside
    rw [hrename, and_iff_left hnothing]
    exact ⟨fun h => ⟨fun _ => h, .inr (.inr hdirInside)⟩, fun h => hfound hdirInside h.1⟩
  | false =>
    have hentry : fs.entry ⟨name :: up, absolute⟩ = .ok (dir', name) :=
      entry_ok_iff.mpr ⟨hnul, rfl, hup, hdir⟩
    obtain ⟨node, hnode, hfile⟩ := write_entry hwrite hentry' hdir
    have hrename : fs'.rename ⟨name' :: up, absolute⟩ ⟨name :: up, absolute⟩ =
        fs'.renameEntry (dir' ++ [name']) (dir' ++ [name]) := by
      rw [rename, entry_extend hentry' hext, entry_extend hentry hext]
    rw [hrename] at hlocations
    by_cases hname : name' = name
    · subst hname
      have hsame : fs'.renameEntry (dir' ++ [name']) (dir' ++ [name']) = .ok [] := by
        rw [renameEntry, hnode]
        exact if_pos rfl
      rw [hsame] at hlocations
      rw [hlocations, and_iff_left hnothing]
      refine ⟨fun h => ⟨fun _ => h, .inl rfl⟩, fun h => ?_⟩
      cases hsymlink : fs.isSymlink ⟨name' :: up, absolute⟩ with
      | true => exact h.1 hsymlink
      | false =>
        rw [hplain hsymlink]
        refine entry_inside hguard hinside hentry fun hlink => ?_
        rw [hsymlink] at hlink
        cases hlink
    · have hne : Plain.mk (name' :: up) absolute ≠ ⟨name :: up, absolute⟩ := by
        intro heq
        cases heq
        exact hname rfl
      have hlocation : dir' ++ [name'] ≠ dir' ++ [name] := fun heq =>
        hname (List.singleton_inj.mp (List.append_cancel_left heq))
      rw [renameEntry_file hnode hfile hlocation] at hlocations
      have hreal : isRealDirectory fs ⟨name :: up, absolute⟩ = fs.isDirectory (dir' ++ [name]) := by
        rw [isRealDirectory, entryAt, hentry]
      rw [hreal, or_iff_right hne]
      cases hdirectory : fs'.isDirectory (dir' ++ [name]) with
      | true =>
        -- the rename is refused
        rw [hdirectory, if_pos rfl] at hlocations
        rw [hlocations, and_iff_left hnothing]
        have hold : fs.isDirectory (dir' ++ [name]) = true :=
          isDirectory_put_file (hput ▸ hdirectory)
        have hlink : fs.isSymlink ⟨name :: up, absolute⟩ = true →
            fs.exists? ⟨name :: up, absolute⟩ = false := by
          intro hlink
          obtain ⟨dir, name, target, hentry₂, hnode₂⟩ := isSymlink_entry hlink
          rw [hentry] at hentry₂
          cases hentry₂
          exact absurd ⟨target, hnode₂⟩ (not_isLink_of_directory hold)
        have htarget := entry_inside hguard hinside hentry hlink
        rw [hold]
        constructor
        · intro h
          refine ⟨fun _ => h, ?_⟩
          cases hsymlink : fs.isSymlink ⟨name' :: up, absolute⟩ with
          | true => exact .inl ⟨rfl, rfl⟩
          | false =>
            rw [hplain hsymlink] at h
            exact .inr (inside_dir hname h htarget)
        · rintro ⟨hlink, ⟨hsymlink, -⟩ | hdirInside⟩
          · exact hlink hsymlink
          · exact hfound hdirInside hlink
      | false =>
        rw [hdirectory] at hlocations
        have hold : fs.isDirectory (dir' ++ [name]) = false := by
          rw [Bool.eq_false_iff] at hdirectory ⊢
          exact fun h => hdirectory (hext.isDirectory h)
        obtain ⟨hmem, hmem', hbelow⟩ := moved_spec fs' (dir' ++ [name']) (dir' ++ [name])
        rw [hlocations, hold]
        constructor
        · rintro ⟨h, hall⟩
          exact ⟨fun _ => h, .inr (inside_dir hname (hall _ hmem) (hall _ hmem'))⟩
        · rintro ⟨hlink, ⟨-, hfalse⟩ | hdirInside⟩
          · cases hfalse
          · refine ⟨hfound hdirInside hlink, fun loc hloc => ?_⟩
            rcases hbelow loc hloc with ⟨rest, rfl⟩ | ⟨rest, rfl⟩
            · exact inside_append (inside_child hdirInside name') rest
            · exact inside_append (inside_child hdirInside name) rest

theorem applyPatch_inside_iff (pending : PendingPatch) :
    (∀ loc ∈ (op.applyPatch fs pending).touched, op.inside loc = true) ↔
      StaysInside op fs (.applyPatch pending) := by
  have hnothing : ∀ loc ∈ ([] : List Location), op.inside loc = true :=
    nofun
  obtain ⟨diff, newContent, path⟩ := pending
  rw [applyPatch, StaysInside]
  cases hensure : op.ensurePathIsWithinWorkspace fs path with
  | error e =>
    refine iff_of_true hnothing fun h => ?_
    cases h
  | ok _ =>
  dsimp only
  cases hwrite : fs.write (withExtension path "tmp") newContent with
  | error e =>
    refine iff_of_true hnothing fun _ loc hopen => ?_
    obtain ⟨fs', h⟩ := write_ok_iff.mpr hopen
    rw [hwrite] at h
    cases h
  | ok written =>
  obtain ⟨fs', found⟩ := written
  have hopen : fs.opensAt (withExtension path "tmp") = some found := write_ok_iff.mp ⟨fs', hwrite⟩
  obtain ⟨loc, hguard, hinside⟩ := ensure_ok_iff.mp hensure
  obtain ⟨dir, _, hentry⟩ := opensAt_entry hopen
  obtain ⟨names, absolute⟩ := path
  cases names with
  | nil => cases absolute <;> cases hentry
  | cons name up =>
  obtain ⟨-, rfl, hup, -⟩ := entry_ok_iff.mp hentry
  have hparent : (∀ parent, (Plain.mk (name :: up) absolute).parent = some parent →
      ∀ dir, fs.Reaches parent dir → op.inside dir = true) ↔ op.inside dir = true := by
    constructor
    · exact fun h => h _ rfl dir hup
    · intro h parent hparent dir' hreach
      cases hparent
      exact Reaches.inj hup hreach ▸ h
  rw [hparent]
  have hcondition : ∀ locations : List Location,
      (locations = match fs'.rename (withExtension ⟨name :: up, absolute⟩ "tmp")
          ⟨name :: up, absolute⟩ with
        | .ok locations => locations
        | .error _ => []) →
      ((∀ loc ∈ found :: locations, op.inside loc = true) ↔ _) :=
    fun locations hlocations =>
      List.forall_mem_cons.trans (patch_inside_iff hguard hinside hwrite hlocations hup)
  refine Iff.trans ?_ ⟨fun h _ loc hloc => ?_, fun h => h rfl found hopen⟩
  swap
  · obtain rfl := Option.some.inj (hopen.symm.trans hloc)
    exact h
  dsimp only
  cases hrename : fs'.rename (withExtension ⟨name :: up, absolute⟩ "tmp") ⟨name :: up, absolute⟩ with
  | error e => exact hcondition [] (by rw [hrename])
  | ok locations => exact hcondition locations (by rw [hrename])

/-- **Confinement**: a call only touches what lies in the workspace exactly when the links at the ends
of its paths stay inside. -/
theorem touched_inside_iff (op : ToolOperator) (host : EditHost) (fs : FileSystem)
    (call : FileCall) :
    (∀ loc ∈ op.touched host fs call, op.inside loc = true) ↔ StaysInside op fs call := by
  cases call with
  | writeFile path content => exact writeFile_inside_iff path content
  | editFile path oldStr newStr => exact iff_of_true (editFile_inside path oldStr newStr) trivial
  | applyPatch pending => exact applyPatch_inside_iff pending
  | renameFile oldPath newPath => exact renameFile_inside_iff oldPath newPath

/-! ### A link that dangles out of the workspace -/

def danglingFiles : FileSystem where
  entries := [(["ws"], .directory), (["tmp"], .directory),
    (["ws", "out"], .link [.rootDir, .normal "tmp", .normal "new"])]
  current := ["ws"]
  tree := by decide +kernel

def danglingOperator : ToolOperator := new danglingFiles [.rootDir, .normal "ws"]

def plainHost : EditHost where
  formatEditHunks _ newStr _ _ := newStr
  findPulseRead _ _ := none

theorem dangling_write_escapes :
    (danglingOperator.resolvePath danglingFiles "out").isOk = true ∧
      danglingOperator.touched plainHost danglingFiles (.writeFile "out" "text") =
        [["tmp", "new"]] ∧
      danglingOperator.inside ["tmp", "new"] = false := by
  decide +kernel

end Vexcoder.Tools.ToolOperator
