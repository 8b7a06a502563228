import Vexcoder.Lib.Assoc

/-!
# A file system with symbolic links

A file or directory has one location, the names from the root, and a path is walked to it component by
component: a link on the way is replaced by its target, at most `maxLinks` times.  Walks compose
(`walk_append`), and what is added to a file system changes no walk that has found something
(`walk_extend`).  A path that programs handle is `Plain`: names behind an optional root, the innermost
one first, so that its parent is its tail.

A file holds a text.  Bytes that are not UTF-8, on which `read_to_string` fails, are outside of the model.
-/

namespace Vexcoder.Lib.Files

open Lib.Assoc

inductive Component where
  | rootDir
  | curDir
  | parentDir
  | normal (name : String)
  deriving DecidableEq

inductive Node where
  | directory
  | file (content : String)
  | link (target : List Component)
  deriving DecidableEq

/-- A node up to what a file holds. -/
def Node.shape : Node → Node
  | .file _ => .file ""
  | node => node

/-- The names from the root, none of them a link. -/
abbrev Location := List String

def nodeAt (entries : List (Location × Node)) (loc : Location) : Option Node :=
  if loc = [] then some .directory else find? loc entries

structure FileSystem where
  entries : List (Location × Node) := []
  /-- The directory that relative paths start from. -/
  current : Location := []
  /-- What there is lies in a directory. -/
  tree : ∀ entry ∈ entries, nodeAt entries entry.1.dropLast = some .directory

inductive IoError where
  | notFound
  | notDirectory
  | alreadyExists
  | isDirectory
  | directoryNotEmpty
  | tooManyLinks
  | invalidInput
  deriving DecidableEq

/-- Where a walk ends: at a node, or at a directory that lacks the last name. -/
inductive Spot where
  | found (loc : Location)
  | missing (dir : Location) (name : String)

namespace FileSystem

def node (fs : FileSystem) (loc : Location) : Option Node := nodeAt fs.entries loc

def isDirectory (fs : FileSystem) (loc : Location) : Bool := fs.node loc == some .directory

def maxLinks : ℕ := 40

/-- Walk on to the next link, which `follow` takes over; the walk says how many links it may still
meet. -/
def walkWith (follow : Location → List Component → Except IoError (Spot × ℕ)) (fs : FileSystem)
    (left : ℕ) (loc : Location) : List Component → Except IoError (Spot × ℕ)
  | [] => .ok (.found loc, left)
  | .rootDir :: rest => walkWith follow fs left [] rest
  | .curDir :: rest =>
    if fs.isDirectory loc then walkWith follow fs left loc rest else .error .notDirectory
  | .parentDir :: rest =>
    if fs.isDirectory loc then walkWith follow fs left loc.dropLast rest else .error .notDirectory
  | .normal name :: rest =>
    if fs.isDirectory loc then
      match fs.node (loc ++ [name]) with
      | none => if rest.isEmpty then .ok (.missing loc name, left) else .error .notFound
      | some (.link target) => follow loc (target ++ rest)
      | some _ => walkWith follow fs left (loc ++ [name]) rest
    else .error .notDirectory

/-- `left` is the number of links that may still be met. -/
def walk (fs : FileSystem) : ℕ → Location → List Component → Except IoError (Spot × ℕ)
  | 0 => walkWith (fun _ _ => .error .tooManyLinks) fs 0
  | left + 1 => walkWith (fs.walk left) fs (left + 1)

def walkFrom (fs : FileSystem) (rest : List Component) : Except IoError (Spot × ℕ) → Except IoError (Spot × ℕ)
  | .error e => .error e
  | .ok (.found loc, left) => fs.walk left loc rest
  | .ok (.missing dir name, left) =>
    if rest.isEmpty then .ok (.missing dir name, left) else .error .notFound

variable {follow : Location → List Component → Except IoError (Spot × ℕ)} {fs fs' : FileSystem}
  {left rest : ℕ} {node : Node} {loc : Location} {xs : List Component} {spot : Spot}

theorem walkWith_append (hwalk : fs.walk left = walkWith follow fs left) {ys : List Component}
    (hfollow : ∀ loc xs, follow loc (xs ++ ys) = fs.walkFrom ys (follow loc xs)) (loc : Location)
    (xs : List Component) :
    walkWith follow fs left loc (xs ++ ys) = fs.walkFrom ys (walkWith follow fs left loc xs) := by
  induction xs generalizing loc with
  | nil =>
    show walkWith follow fs left loc ys = fs.walk left loc ys
    rw [hwalk]
  | cons x xs ih =>
    rw [List.cons_append]
    cases x with
    | rootDir => exact ih []
    | curDir =>
      rw [walkWith, walkWith]
      split
      · exact ih loc
      · rfl
    | parentDir =>
      rw [walkWith, walkWith]
      split
      · exact ih loc.dropLast
      · rfl
    | normal name =>
      rw [walkWith, walkWith]
      split
      · split
        · cases xs with
          | nil => rfl
          | cons x xs => rfl
        · rw [← List.append_assoc]
          exact hfollow loc _
        · exact ih _
      · rfl

/-- **Walks compose.** -/
theorem walk_append (fs : FileSystem) (left : ℕ) (loc : Location) (xs ys : List Component) :
    fs.walk left loc (xs ++ ys) = fs.walkFrom ys (fs.walk left loc xs) := by
  induction left generalizing loc xs with
  | zero => exact walkWith_append rfl (fun _ _ => rfl) loc xs
  | succ left ih => exact walkWith_append rfl (fun loc xs => ih loc xs) loc xs

/-- The steps of a walk that ends at the spot with `rest` links to go. -/
inductive Walks (fs : FileSystem) (spot : Spot) (rest : ℕ) : ℕ → Location → List Component → Prop
  | done {loc : Location} (hspot : spot = .found loc) : Walks fs spot rest rest loc []
  | rootDir {left : ℕ} {loc : Location} {xs : List Component} :
      Walks fs spot rest left [] xs → Walks fs spot rest left loc (.rootDir :: xs)
  | curDir {left : ℕ} {loc : Location} {xs : List Component} (hdir : fs.isDirectory loc = true) :
      Walks fs spot rest left loc xs → Walks fs spot rest left loc (.curDir :: xs)
  | parentDir {left : ℕ} {loc : Location} {xs : List Component} (hdir : fs.isDirectory loc = true) :
      Walks fs spot rest left loc.dropLast xs → Walks fs spot rest left loc (.parentDir :: xs)
  | missing {loc : Location} {name : String} (hdir : fs.isDirectory loc = true)
      (hnode : fs.node (loc ++ [name]) = none) (hspot : spot = .missing loc name) :
      Walks fs spot rest rest loc [.normal name]
  | link {left : ℕ} {loc : Location} {name : String} {target xs : List Component}
      (hdir : fs.isDirectory loc = true) (hnode : fs.node (loc ++ [name]) = some (.link target)) :
      Walks fs spot rest left loc (target ++ xs) →
      Walks fs spot rest (left + 1) loc (.normal name :: xs)
  | normal {left : ℕ} {loc : Location} {name : String} {node : Node} {xs : List Component}
      (hdir : fs.isDirectory loc = true) (hnode : fs.node (loc ++ [name]) = some node)
      (hlink : ∀ target, node ≠ .link target) : Walks fs spot rest left (loc ++ [name]) xs →
      Walks fs spot rest left loc (.normal name :: xs)

theorem Walks.of_walkWith (hfollow : ∀ loc xs, follow loc xs = .ok (spot, rest) →
      ∃ less, left = less + 1 ∧ fs.Walks spot rest less loc xs)
    (hwalk : walkWith follow fs left loc xs = .ok (spot, rest)) : fs.Walks spot rest left loc xs := by
  induction xs generalizing loc with
  | nil =>
    cases hwalk
    exact .done rfl
  | cons x xs ih =>
    cases x with
    | rootDir => exact .rootDir (ih hwalk)
    | curDir =>
      rw [walkWith] at hwalk
      split at hwalk
      · exact .curDir ‹_› (ih hwalk)
      · cases hwalk
    | parentDir =>
      rw [walkWith] at hwalk
      split at hwalk
      · exact .parentDir ‹_› (ih hwalk)
      · cases hwalk
    | normal name =>
      rw [walkWith] at hwalk
      split at hwalk
      · rename_i hdir
        split at hwalk
        · rename_i hnode
          split at hwalk
          · rename_i hlast
            cases hwalk
            rw [List.isEmpty_iff.mp hlast]
            exact .missing hdir hnode rfl
          · cases hwalk
        · rename_i target hnode
          obtain ⟨less, rfl, hwalks⟩ := hfollow loc _ hwalk
          exact .link hdir hnode hwalks
        · rename_i node hlink hnode
          exact .normal hdir hnode (fun target => hlink target) (ih hwalk)
      · cases hwalk

theorem Walks.of_walk (hwalk : fs.walk left loc xs = .ok (spot, rest)) :
    fs.Walks spot rest left loc xs := by
  induction left generalizing loc xs with
  | zero => exact Walks.of_walkWith (fun _ _ h => by cases h) hwalk
  | succ left ih => exact Walks.of_walkWith (fun _ _ h => ⟨left, rfl, ih h⟩) hwalk

theorem Walks.walk (h : fs.Walks spot rest left loc xs) : fs.walk left loc xs = .ok (spot, rest) := by
  have hwith : ∀ left, ∃ follow, fs.walk left = walkWith follow fs left := by
    intro left
    cases left with
    | zero | succ left => exact ⟨_, rfl⟩
  induction h with
  | @done loc hspot =>
    obtain ⟨follow, heq⟩ := hwith rest
    rw [heq, walkWith, hspot]
  | @rootDir left loc xs _ ih =>
    obtain ⟨follow, heq⟩ := hwith left
    rw [heq] at ih ⊢
    exact ih
  | @curDir left loc xs hdir _ ih | @parentDir left loc xs hdir _ ih =>
    obtain ⟨follow, heq⟩ := hwith left
    rw [heq] at ih ⊢
    rw [walkWith, if_pos hdir]
    exact ih
  | @missing loc name hdir hnode hspot =>
    obtain ⟨follow, heq⟩ := hwith rest
    rw [heq, walkWith, if_pos hdir, hnode, hspot]
    rfl
  | link hdir hnode _ ih =>
    rw [FileSystem.walk, walkWith, if_pos hdir, hnode]
    exact ih
  | @normal left loc name node xs hdir hnode hlink _ ih =>
    obtain ⟨follow, heq⟩ := hwith left
    rw [heq] at ih ⊢
    rw [walkWith, if_pos hdir, hnode]
    cases node with
    | link target => exact absurd rfl (hlink target)
    | directory | file content => exact ih

/-! ### More files -/

/-- Everything is where it was; a file may hold something else. -/
def Extends (fs fs' : FileSystem) : Prop :=
  fs'.current = fs.current ∧
    ∀ loc node, fs.node loc = some node → ∃ node', fs'.node loc = some node' ∧ node'.shape = node.shape

theorem Extends.refl (fs : FileSystem) : fs.Extends fs := ⟨rfl, fun _ node h => ⟨node, h, rfl⟩⟩

theorem Extends.trans {fs'' : FileSystem} (h : fs.Extends fs') (h' : fs'.Extends fs'') :
    fs.Extends fs'' := by
  refine ⟨h'.1.trans h.1, fun loc node hnode => ?_⟩
  obtain ⟨node', hnode', hshape⟩ := h.2 loc node hnode
  obtain ⟨node'', hnode'', hshape'⟩ := h'.2 loc node' hnode'
  exact ⟨node'', hnode'', hshape'.trans hshape⟩

theorem shape_directory (h : node.shape = .directory) : node = .directory := by
  cases node with
  | file content => cases h
  | _ => exact h

theorem shape_link {target : List Component} (h : node.shape = .link target) : node = .link target := by
  cases node with
  | file content => cases h
  | _ => exact h

theorem Extends.isDirectory (h : fs.Extends fs') (hdir : fs.isDirectory loc = true) :
    fs'.isDirectory loc = true := by
  simp only [FileSystem.isDirectory, beq_iff_eq] at hdir ⊢
  obtain ⟨node', hnode', hshape⟩ := h.2 loc _ hdir
  rw [hnode', shape_directory hshape]

theorem Walks.extend (h : fs.Extends fs') {spot' : Spot}
    (hdone : ∀ loc, spot = .found loc → spot' = .found loc)
    (hmissing : ∀ loc name, spot = .missing loc name → fs.isDirectory loc = true →
      fs'.Walks spot' rest rest loc [.normal name])
    (hwalks : fs.Walks spot rest left loc xs) : fs'.Walks spot' rest left loc xs := by
  induction hwalks with
  | done hspot => exact .done (hdone _ hspot)
  | rootDir _ ih => exact .rootDir ih
  | curDir hdir _ ih => exact .curDir (h.isDirectory hdir) ih
  | parentDir hdir _ ih => exact .parentDir (h.isDirectory hdir) ih
  | missing hdir _ hspot => exact hmissing _ _ hspot hdir
  | link hdir hnode _ ih =>
    obtain ⟨node', hnode', hshape⟩ := h.2 _ _ hnode
    obtain rfl := shape_link hshape
    exact .link (h.isDirectory hdir) hnode' ih
  | normal hdir hnode hlink _ ih =>
    obtain ⟨node', hnode', hshape⟩ := h.2 _ _ hnode
    refine .normal (h.isDirectory hdir) hnode' (fun target htarget => ?_) ih
    subst htarget
    exact hlink target (shape_link hshape.symm)

/-- **Walks stay**: what a walk has found it finds in every extension. -/
theorem walk_extend (h : fs.Extends fs') {found : Location}
    (hwalk : fs.walk left loc xs = .ok (.found found, rest)) :
    fs'.walk left loc xs = .ok (.found found, rest) :=
  (Walks.extend h (fun _ => id) (fun _ _ hspot => by cases hspot) (.of_walk hwalk)).walk

/-! ### Ends of walks -/

def IsLink (fs : FileSystem) (loc : Location) : Prop := ∃ target, fs.node loc = some (.link target)

theorem not_isLink_of_directory (h : fs.isDirectory loc = true) : ¬ fs.IsLink loc := by
  rintro ⟨target, hlink⟩
  rw [isDirectory, hlink] at h
  cases h

theorem isDirectory_dropLast (h : fs.isDirectory loc = true) : fs.isDirectory loc.dropLast = true := by
  by_cases hloc : loc = []
  · subst hloc
    exact h
  rw [isDirectory, beq_iff_eq, node, nodeAt, if_neg hloc] at h
  have hkey : loc ∈ keys fs.entries := by
    rw [mem_keys_iff_find?, h]
    rfl
  obtain ⟨entry, hmem, heq⟩ := List.mem_map.mp hkey
  have htree := fs.tree entry hmem
  rw [heq] at htree
  rw [isDirectory, beq_iff_eq]
  exact htree

/-- Where a walk may end: at no link, or at a name that is new. -/
def Ends (fs : FileSystem) : Spot → Prop
  | .found loc => ¬ fs.IsLink loc
  | .missing dir name => fs.isDirectory dir = true ∧ fs.node (dir ++ [name]) = none

theorem walk_ends (hstart : xs = [] → ¬ fs.IsLink loc)
    (hwalk : fs.walk left loc xs = .ok (spot, rest)) : fs.Ends spot := by
  have hwalks := Walks.of_walk hwalk
  clear hwalk
  induction hwalks with
  | done hspot =>
    subst hspot
    exact hstart rfl
  | rootDir _ ih => exact ih (fun _ => not_isLink_of_directory rfl)
  | curDir hdir _ ih | link hdir _ _ ih => exact ih (fun _ => not_isLink_of_directory hdir)
  | parentDir hdir _ ih => exact ih (fun _ => not_isLink_of_directory (isDirectory_dropLast hdir))
  | missing hdir hnode hspot =>
    subst hspot
    exact ⟨hdir, hnode⟩
  | normal hdir hnode hlink _ ih =>
    refine ih (fun _ => ?_)
    rintro ⟨target, htarget⟩
    exact hlink target (Option.some.inj (hnode.symm.trans htarget))

/-! ### Paths of programs -/

/-- Names behind an optional root, the innermost one first. -/
structure Plain where
  names : List String
  absolute : Bool
  deriving DecidableEq

namespace Plain

def components (p : Plain) : List Component :=
  (if p.absolute then [.rootDir] else []) ++ p.names.reverse.map .normal

/-- `Path::parent` -/
def parent (p : Plain) : Option Plain :=
  match p.names with
  | [] => none
  | _ :: up => some { p with names := up }

/-- No call of the system takes a path with a zero byte. -/
def hasNul (p : Plain) : Bool := p.names.any fun name => name.toList.any (· == '\x00')

end Plain

/-- The walk along a path as the directory of something. -/
def walkPath (fs : FileSystem) (p : Plain) : Except IoError (Spot × ℕ) :=
  fs.walk maxLinks fs.current p.components

/-- The node of a path, links followed; the empty path has none. -/
def lookup (fs : FileSystem) (p : Plain) : Except IoError Spot :=
  if p.hasNul then .error .invalidInput
  else if p.names.isEmpty && !p.absolute then .error .notFound
  else (fs.walkPath p).map Prod.fst

/-- `fs::canonicalize` -/
def canonicalize (fs : FileSystem) (p : Plain) : Except IoError Location :=
  match fs.lookup p with
  | .ok (.found loc) => .ok loc
  | .ok (.missing ..) => .error .notFound
  | .error e => .error e

/-- `Path::exists` -/
def exists? (fs : FileSystem) (p : Plain) : Bool := (fs.canonicalize p).isOk

/-- `Path::is_dir` -/
def isDir (fs : FileSystem) (p : Plain) : Bool :=
  match fs.canonicalize p with
  | .ok loc => fs.isDirectory loc
  | .error _ => false

/-- The directory and the name of a path, the last name not followed. -/
def entry (fs : FileSystem) (p : Plain) : Except IoError (Location × String) :=
  if p.hasNul then .error .invalidInput
  else
    match p.names with
    | [] => if p.absolute then .error .alreadyExists else .error .notFound
    | name :: up =>
      match fs.walkPath { p with names := up } with
      | .error e => .error e
      | .ok (.missing .., _) => .error .notFound
      | .ok (.found dir, _) =>
        if fs.isDirectory dir then .ok (dir, name) else .error .notDirectory

/-! ### Calls of the system -/

theorem nodeAt_insertLast {entries : List (Location × Node)} (hloc : loc ≠ []) (node : Node)
    (other : Location) :
    nodeAt (insertLast loc node entries) other =
      if other = loc then some node else nodeAt entries other := by
  rw [nodeAt, nodeAt, find?_insertLast]
  by_cases h : other = []
  · subst h
    rw [if_pos rfl, if_pos rfl, if_neg (Ne.symm hloc)]
  · rw [if_neg h, if_neg h]

theorem tree_insertLast (hloc : loc ≠ []) (hparent : fs.node loc.dropLast = some .directory)
    (hnew : fs.node loc ≠ some .directory) :
    ∀ entry ∈ insertLast loc node fs.entries,
      nodeAt (insertLast loc node fs.entries) entry.1.dropLast = some .directory := by
  have hne : loc.dropLast ≠ loc := fun h => by
    have := congrArg List.length h
    rw [List.length_dropLast] at this
    have := List.length_pos_iff.mpr hloc
    omega
  intro entry hmem
  rw [nodeAt_insertLast hloc]
  have hkey : entry.1 ∈ keys (insertLast loc node fs.entries) := List.mem_map_of_mem hmem
  rw [mem_keys_iff_find?, find?_insertLast] at hkey
  by_cases h : entry.1 = loc
  · rw [h, if_neg hne]
    exact hparent
  rw [if_neg h, ← mem_keys_iff_find?] at hkey
  obtain ⟨old, hold, heq⟩ := List.mem_map.mp hkey
  have htree := fs.tree old hold
  rw [heq] at htree
  have hother : entry.1.dropLast ≠ loc := fun heq' => hnew (heq' ▸ htree)
  rw [if_neg hother]
  exact htree

/-- A node in a directory, where there is none or a file. -/
def put (fs : FileSystem) (loc : Location) (node : Node) : FileSystem :=
  if h : loc ≠ [] ∧ fs.node loc.dropLast = some .directory ∧ fs.node loc ≠ some .directory then
    { fs with entries := insertLast loc node fs.entries, tree := tree_insertLast h.1 h.2.1 h.2.2 }
  else fs

/-- `mkdir`: the location of the new directory. -/
def mkdir (fs : FileSystem) (p : Plain) : Except IoError (FileSystem × Location) :=
  match fs.entry p with
  | .error e => .error e
  | .ok (dir, name) =>
    match fs.node (dir ++ [name]) with
    | some _ => .error .alreadyExists
    | none => .ok (fs.put (dir ++ [name]) .directory, dir ++ [name])

/-- `fs::write`: the location of the file, which a link at the end of the path may lead to. -/
def write (fs : FileSystem) (p : Plain) (content : String) : Except IoError (FileSystem × Location) :=
  match fs.lookup p with
  | .error e => .error e
  | .ok (.missing dir name) => .ok (fs.put (dir ++ [name]) (.file content), dir ++ [name])
  | .ok (.found loc) =>
    if fs.isDirectory loc then .error .isDirectory
    else .ok (fs.put loc (.file content), loc)

/-- Where `write` puts its file. -/
def opensAt (fs : FileSystem) (p : Plain) : Option Location :=
  match fs.lookup p with
  | .error _ => none
  | .ok (.missing dir name) => some (dir ++ [name])
  | .ok (.found loc) => if fs.isDirectory loc then none else some loc

/-- Where a path ends when its last name is not followed. -/
def entryAt (fs : FileSystem) (p : Plain) : Option Location :=
  match fs.entry p with
  | .error _ => none
  | .ok (dir, name) => some (dir ++ [name])

/-- `Path::is_symlink` -/
def isSymlink (fs : FileSystem) (p : Plain) : Bool :=
  match fs.entry p with
  | .error _ => false
  | .ok (dir, name) =>
    match fs.node (dir ++ [name]) with
    | some (.link _) => true
    | _ => false

def below (fs : FileSystem) (loc : Location) : List Location :=
  loc :: (keys fs.entries).filter fun other => loc.isPrefixOf other && other != loc

/-- The locations that lose and that get something when a location becomes another. -/
def moved (fs : FileSystem) (loc loc' : Location) : List Location :=
  fs.below loc ++ (fs.below loc).map fun other => loc' ++ other.drop loc.length

def renameEntry (fs : FileSystem) (loc loc' : Location) : Except IoError (List Location) :=
  match fs.node loc with
  | none => .error .notFound
  | some node =>
    if loc = loc' then .ok []
    else if node = .directory && loc.isPrefixOf loc' then .error .invalidInput
    else
      match fs.node loc' with
      | none => .ok (fs.moved loc loc')
      | some .directory =>
        if node != .directory then .error .isDirectory
        else if (fs.below loc').length != 1 then .error .directoryNotEmpty
        else .ok (fs.moved loc loc')
      | some _ => if node = .directory then .error .notDirectory else .ok (fs.moved loc loc')

/-- `rename`: neither path is followed at its end.  The locations that are touched. -/
def rename (fs : FileSystem) (p p' : Plain) : Except IoError (List Location) :=
  match fs.entry p, fs.entry p' with
  | .error e, _ => .error e
  | .ok _, .error e => .error e
  | .ok (dir, name), .ok (dir', name') => fs.renameEntry (dir ++ [name]) (dir' ++ [name'])

/-- `fs::create_dir_all`: the locations of the new directories; `names` are those of the path. -/
def createDirAll (fs : FileSystem) (absolute : Bool) :
    List String → FileSystem × List Location × Except IoError Unit
  | [] => (fs, [], .ok ())
  | name :: up =>
    match fs.mkdir { names := name :: up, absolute } with
    | .ok (fs', loc) => (fs', [loc], .ok ())
    | .error .notFound =>
      match fs.createDirAll absolute up with
      | (fs', locs, .error e) => (fs', locs, .error e)
      | (fs', locs, .ok ()) =>
        match fs'.mkdir { names := name :: up, absolute } with
        | .ok (fs'', loc) => (fs'', locs ++ [loc], .ok ())
        | .error e =>
          (fs', locs, if fs'.isDir { names := name :: up, absolute } then .ok () else .error e)
    | .error e => (fs, [], if fs.isDir { names := name :: up, absolute } then .ok () else .error e)

theorem lookup_ends {p : Plain} (h : fs.lookup p = .ok spot) : fs.Ends spot := by
  rw [lookup] at h
  split at h
  · cases h
  split at h
  · cases h
  rename_i hempty
  cases hwalk : fs.walkPath p with
  | error e =>
    rw [hwalk] at h
    cases h
  | ok result =>
    obtain ⟨spot', left⟩ := result
    rw [hwalk] at h
    cases h
    refine walk_ends (fun hnil => ?_) hwalk
    obtain ⟨names, absolute⟩ := p
    rw [Plain.components, List.append_eq_nil_iff, List.map_eq_nil_iff, List.reverse_eq_nil_iff] at hnil
    obtain ⟨hroot, hnames⟩ := hnil
    cases absolute with
    | true => cases hroot
    | false =>
      subst hnames
      exact absurd rfl hempty

/-! ### Entries and nodes -/

variable {fs fs' : FileSystem} {names up : List String} {name : String} {absolute : Bool} {loc dir : Location}

theorem components_cons :
    (Plain.mk (name :: up) absolute).components = (Plain.mk up absolute).components ++ [.normal name] := by
  rw [Plain.components, Plain.components, List.reverse_cons, List.map_append, List.append_assoc]
  rfl

theorem walkPath_cons :
    fs.walkPath ⟨name :: up, absolute⟩ = fs.walkFrom [.normal name] (fs.walkPath ⟨up, absolute⟩) := by
  rw [walkPath, components_cons, walk_append]
  rfl

theorem walk_single (left : ℕ) :
    fs.walk left dir [.normal name] =
      if fs.isDirectory dir then
        match fs.node (dir ++ [name]) with
        | none => .ok (.missing dir name, left)
        | some (.link target) =>
          match left with
          | 0 => .error .tooManyLinks
          | left + 1 => fs.walk left dir target
        | some _ => .ok (.found (dir ++ [name]), left)
      else .error .notDirectory := by
  cases left with
  | zero => rfl
  | succ left =>
    rw [walk, walkWith]
    split
    · split
      · rfl
      · rw [List.append_nil]
      · rfl
    · rfl

theorem write_ok_iff {p : Plain} {content : String} :
    (∃ fs', fs.write p content = .ok (fs', loc)) ↔ fs.opensAt p = some loc := by
  rw [write, opensAt]
  cases fs.lookup p with
  | error e => simp
  | ok spot =>
    cases spot with
    | missing dir name => simp
    | found loc =>
      dsimp only
      split <;> simp

theorem hasNul_cons (h : (Plain.mk (name :: up) absolute).hasNul = false) :
    (Plain.mk up absolute).hasNul = false := by
  rw [Plain.hasNul, List.any_cons, Bool.or_eq_false_iff] at h
  exact h.2

theorem entry_ok_iff {name' : String} :
    fs.entry ⟨name :: up, absolute⟩ = .ok (dir, name') ↔
      (Plain.mk (name :: up) absolute).hasNul = false ∧ name' = name ∧
        (∃ left, fs.walkPath ⟨up, absolute⟩ = .ok (.found dir, left)) ∧
        fs.isDirectory dir = true := by
  rw [entry]
  cases (Plain.mk (name :: up) absolute).hasNul with
  | true => simp
  | false =>
    rw [if_neg Bool.false_ne_true]
    dsimp only
    cases fs.walkPath ⟨up, absolute⟩ with
    | error e => simp
    | ok spot =>
      obtain ⟨spot, left⟩ := spot
      cases spot with
      | missing dir' name'' => simp
      | found dir' =>
        dsimp only
        split
        · rename_i hdir
          simp only [Except.ok.injEq, Prod.mk.injEq, true_and, Spot.found.injEq]
          constructor
          · rintro ⟨rfl, rfl⟩
            exact ⟨rfl, ⟨left, rfl, rfl⟩, hdir⟩
          · rintro ⟨rfl, ⟨_, rfl, _⟩, _⟩
            exact ⟨rfl, rfl⟩
        · rename_i hdir
          simp only [reduceCtorEq, Except.ok.injEq, Prod.mk.injEq, true_and, Spot.found.injEq, false_iff]
          rintro ⟨_, ⟨_, rfl, _⟩, h⟩
          exact hdir h

theorem entry_inv {p : Plain} (h : fs.entry p = .ok (dir, name)) : ∃ up absolute, p = ⟨name :: up, absolute⟩ ∧
    p.hasNul = false ∧ (∃ left, fs.walkPath ⟨up, absolute⟩ = .ok (.found dir, left)) ∧
    fs.isDirectory dir = true := by
  obtain ⟨names, absolute⟩ := p
  cases names with
  | nil => cases absolute <;> cases h
  | cons name' up =>
    obtain ⟨hnul, rfl, hup, hdir⟩ := entry_ok_iff.mp h
    exact ⟨up, absolute, rfl, hnul, hup, hdir⟩

end FileSystem

end Vexcoder.Lib.Files
