import Vexcoder.Lib.FileMoves

/-!
# Ways through a file system

Paths as they are written, with their dots and slashes, and the system calls on them.  A walk to a
directory depends on the directories and links it passes only; what was written to a path is read from it.
A write can also fail on the way (`writeWith`).
-/

namespace Vexcoder.Lib.Files.FileSystem

open Lib.Assoc

variable {fs fs' : FileSystem} {loc loc' dir : Location} {name : String}

/-! ### Paths as they are written -/

def hasNulComponent : Component → Bool
  | .normal name => name.toList.any (· == '\x00')
  | _ => false

def lookupAt (fs : FileSystem) (path : List Component) : Except IoError Spot :=
  if path.any hasNulComponent then .error .invalidInput
  else if path.isEmpty then .error .notFound
  else (fs.walk maxLinks fs.current path).map Prod.fst

/-- `fs::read` -/
def readAt (fs : FileSystem) (path : List Component) : Except IoError String :=
  match fs.lookupAt path with
  | .error e => .error e
  | .ok (.missing ..) => .error .notFound
  | .ok (.found loc) =>
    match fs.node loc with
    | some (.file content) => .ok content
    | _ => .error .isDirectory

/-- `Path::exists` -/
def existsAt (fs : FileSystem) (path : List Component) : Bool :=
  match fs.lookupAt path with
  | .ok (.found _) => true
  | _ => false

/-- `fs::write` -/
def writeAt (fs : FileSystem) (path : List Component) (content : String) :
    Except IoError FileSystem :=
  match fs.lookupAt path with
  | .error e => .error e
  | .ok (.missing dir name) => .ok (fs.put (dir ++ [name]) (.file content))
  | .ok (.found loc) =>
    if fs.isDirectory loc then .error .isDirectory else .ok (fs.put loc (.file content))

/-- `fs::remove_file`: the last name is not followed, and what is in front of it is a directory. -/
def removeAt (fs : FileSystem) (path : List Component) : Except IoError FileSystem :=
  if path.any hasNulComponent then .error .invalidInput
  else
    match path.getLast? with
    | some (.normal name) =>
      match fs.walk maxLinks fs.current (path.dropLast ++ [.curDir]) with
      | .error e => .error e
      | .ok (.missing .., _) => .error .notFound
      | .ok (.found dir, _) =>
        match fs.node (dir ++ [name]) with
        | none => .error .notFound
        | some .directory => .error .isDirectory
        | some _ => .ok (fs.removeEntry (dir ++ [name]))
    | _ => .error .isDirectory

theorem any_hasNulComponent (p : Plain) : p.components.any hasNulComponent = p.hasNul := by
  have hroot : ((if p.absolute then [Component.rootDir] else []).any hasNulComponent) = false := by
    cases p.absolute <;> rfl
  rw [Plain.components, List.any_append, hroot, List.any_map, List.any_reverse]
  rfl

theorem lookupAt_components (fs : FileSystem) (p : Plain) : fs.lookupAt p.components = fs.lookup p := by
  have hempty : p.components.isEmpty = (p.names.isEmpty && !p.absolute) := by
    rw [Plain.components]
    cases p.absolute with
    | true | false => simp
  rw [lookupAt, any_hasNulComponent, hempty]
  rfl

/-! ### Dots on a way -/

/-- The path without the dots that something follows. -/
def undot : List Component → List Component
  | [] => []
  | x :: xs =>
    if x = .curDir ∧ xs ≠ [] ∧ xs.head? ≠ some .rootDir then undot xs else x :: undot xs

variable (xs : List Component)

theorem undot_isEmpty : (undot xs).isEmpty = xs.isEmpty := by
  induction xs with
  | nil => rfl
  | cons x xs ih =>
    rw [undot]
    split
    · rename_i hdot
      rw [ih, List.isEmpty_eq_false_iff.mpr hdot.2.1]
      rfl
    · rfl

theorem undot_getLast? : (undot xs).getLast? = xs.getLast? := by
  induction xs with
  | nil => rfl
  | cons x xs ih =>
    have hempty := undot_isEmpty xs
    rw [undot]
    cases xs with
    | nil =>
      rw [if_neg fun h => h.2.1 rfl]
      rfl
    | cons y ys =>
      split
      · rw [ih, List.getLast?_cons_cons]
      obtain ⟨z, zs, hz⟩ : ∃ z zs, undot (y :: ys) = z :: zs := by
        cases h : undot (y :: ys) with
        | nil =>
          rw [h] at hempty
          cases hempty
        | cons z zs => exact ⟨z, zs, rfl⟩
      rw [hz] at ih ⊢
      rw [List.getLast?_cons_cons, List.getLast?_cons_cons, ih]

theorem undot_concat : ∃ kept, ∀ y, y ≠ .rootDir → undot (xs ++ [y]) = kept ++ [y] := by
  induction xs with
  | nil =>
    refine ⟨[], fun y _ => ?_⟩
    rw [List.nil_append, undot, if_neg fun h => h.2.1 rfl]
    rfl
  | cons x xs ih =>
    obtain ⟨kept, hkept⟩ := ih
    by_cases hx : x = .curDir ∧ xs.head? ≠ some .rootDir
    · refine ⟨kept, fun y hy => ?_⟩
      rw [List.cons_append, undot, if_pos, hkept y hy]
      refine ⟨hx.1, by simp, ?_⟩
      cases xs with
      | nil => exact fun h => hy (Option.some.inj h)
      | cons z zs => exact hx.2
    · refine ⟨x :: kept, fun y hy => ?_⟩
      rw [List.cons_append, undot, if_neg, hkept y hy, List.cons_append]
      rintro ⟨rfl, -, hhead⟩
      refine hx ⟨rfl, ?_⟩
      cases xs with
      | nil => exact fun h => nomatch h
      | cons z zs => exact hhead

theorem undot_hasNul : (undot xs).any hasNulComponent = xs.any hasNulComponent := by
  induction xs with
  | nil => rfl
  | cons x xs ih =>
    rw [undot]
    split
    · rename_i hdot
      rw [ih, hdot.1]
      rfl
    · rw [List.any_cons, List.any_cons, ih]

variable {follow : Location → List Component → Except IoError (Spot × ℕ)} {left rest : ℕ}
  {xs : List Component} {found : Location} {p : Plain} {content : String}

theorem walkWith_cons_congr {ys : List Component} (hempty : ys.isEmpty = xs.isEmpty)
    (hrest : ∀ loc, walkWith follow fs left loc ys = walkWith follow fs left loc xs)
    (hfollow : ∀ loc target, follow loc (target ++ ys) = follow loc (target ++ xs)) (loc : Location)
    (x : Component) :
    walkWith follow fs left loc (x :: ys) = walkWith follow fs left loc (x :: xs) := by
  cases x with
  | rootDir => exact hrest []
  | curDir | parentDir => rw [walkWith, walkWith, hrest]
  | normal name =>
    rw [walkWith, walkWith]
    split
    · cases hnode : fs.node (loc ++ [name]) with
      | none =>
        rw [hempty]
      | some node =>
        cases node with
        | link target => exact hfollow loc target
        | _ => exact hrest _
    · rfl

theorem walkWith_undot (hfollow : ∀ loc front xs, follow loc (front ++ undot xs) = follow loc (front ++ xs))
    (loc : Location) (front xs : List Component) :
    walkWith follow fs left loc (front ++ undot xs) = walkWith follow fs left loc (front ++ xs) := by
  have plain : ∀ (xs : List Component) (loc : Location),
      walkWith follow fs left loc (undot xs) = walkWith follow fs left loc xs := by
    intro xs
    induction xs with
    | nil => exact fun _ => rfl
    | cons x xs ih =>
      intro loc
      rw [undot]
      split
      · rename_i hdot
        obtain ⟨rfl, hne, hhead⟩ := hdot
        rw [ih, walkWith]
        split
        · rfl
        rename_i hdir
        -- A dot and the name behind it are refused alike where there is no directory.
        cases xs with
        | nil => exact absurd rfl hne
        | cons y ys =>
          cases y with
          | rootDir => exact absurd rfl hhead
          | _ => rw [walkWith, if_neg hdir]
      · exact walkWith_cons_congr (undot_isEmpty xs) ih (fun loc target => hfollow loc target xs) loc x
  induction front generalizing loc with
  | nil => exact plain xs loc
  | cons x front ih =>
    refine walkWith_cons_congr ?_ ih (fun loc target => ?_) loc x
    · cases front with
      | nil => exact undot_isEmpty xs
      | cons y front => rfl
    · rw [← List.append_assoc, ← List.append_assoc]
      exact hfollow loc _ xs

/-- **Dots on a way do not matter** as long as something follows them. -/
theorem walk_undot (left : ℕ) (loc : Location) (front xs : List Component) :
    fs.walk left loc (front ++ undot xs) = fs.walk left loc (front ++ xs) := by
  induction left generalizing loc front xs with
  | zero => exact walkWith_undot (fun _ _ _ => rfl) loc front xs
  | succ left ih => exact walkWith_undot ih loc front xs

variable (path : List Component)

theorem lookupAt_undot : fs.lookupAt (undot path) = fs.lookupAt path := by
  have hwalk := @walk_undot fs maxLinks fs.current [] path
  rw [List.nil_append, List.nil_append] at hwalk
  rw [lookupAt, lookupAt, undot_hasNul, undot_isEmpty, hwalk]

theorem readAt_undot : fs.readAt (undot path) = fs.readAt path := by
  rw [readAt, readAt, lookupAt_undot]

theorem existsAt_undot : fs.existsAt (undot path) = fs.existsAt path := by
  rw [existsAt, existsAt, lookupAt_undot]

theorem writeAt_undot (content : String) : fs.writeAt (undot path) content = fs.writeAt path content := by
  rw [writeAt, writeAt, lookupAt_undot]

theorem removeAt_undot : fs.removeAt (undot path) = fs.removeAt path := by
  rw [removeAt, removeAt, undot_hasNul, undot_getLast?]
  cases hlast : path.getLast? with
  | none => rfl
  | some y =>
    cases y with
    | normal name =>
      obtain ⟨front, rfl⟩ := List.getLast?_eq_some_iff.mp hlast
      obtain ⟨kept, hkept⟩ := undot_concat front
      have hwalk := @walk_undot fs maxLinks fs.current [] (front ++ [.curDir])
      rw [List.nil_append, List.nil_append, hkept _ (by simp)] at hwalk
      rw [hkept _ (by simp), List.dropLast_concat, List.dropLast_concat, hwalk]
    | _ => rfl

/-! ### Walks to directories -/

/-- The root stands in front of a link's target only. -/
def LinksArePaths (fs : FileSystem) : Prop :=
  ∀ loc target, fs.node loc = some (.link target) → .rootDir ∉ target.tail

theorem linksArePaths_of_entries (h : (fs.entries.all fun entry => match entry.2 with
      | .link target => !target.tail.contains .rootDir
      | _ => true) = true) : fs.LinksArePaths := by
  intro loc target hnode mem
  rw [node, nodeAt] at hnode
  split at hnode
  · cases hnode
  · have hentry := List.all_eq_true.mp h _ (mem_of_find? hnode)
    dsimp only at hentry
    rw [List.contains_iff_mem.mpr mem] at hentry
    cases hentry

/-- Every link has the target of a link that was there. -/
def LinksFrom (fs fs' : FileSystem) : Prop :=
  ∀ loc target, fs'.node loc = some (.link target) → ∃ loc', fs.node loc' = some (.link target)

theorem LinksFrom.refl (fs : FileSystem) : fs.LinksFrom fs := fun loc _ h => ⟨loc, h⟩

theorem LinksFrom.trans {fs'' : FileSystem} (h : fs.LinksFrom fs') (h' : fs'.LinksFrom fs'') :
    fs.LinksFrom fs'' := by
  intro loc target hnode
  obtain ⟨loc', hnode'⟩ := h' loc target hnode
  exact h loc' target hnode'

theorem LinksFrom.linksArePaths (h : fs.LinksFrom fs') (hlinks : fs.LinksArePaths) :
    fs'.LinksArePaths := by
  intro loc target hnode
  obtain ⟨loc', hnode'⟩ := h loc target hnode
  exact hlinks loc' target hnode'

def KeepsWays (fs fs' : FileSystem) : Prop :=
  fs'.current = fs.current ∧ ∀ loc node, fs.node loc = some node →
    (∀ content, node ≠ .file content) → fs'.node loc = some node

theorem KeepsWays.isDirectory (h : fs.KeepsWays fs') (hdir : fs.isDirectory loc = true) :
    fs'.isDirectory loc = true := by
  rw [FileSystem.isDirectory, beq_iff_eq] at hdir ⊢
  exact h.2 loc _ hdir fun _ hfile => by cases hfile

/-- **Walks stay** as long as directories and links do and something is left where they end. -/
theorem walk_kept (h : fs.KeepsWays fs') (hlinks : fs.LinksArePaths)
    (hthere : fs'.node found ≠ none) (hplain : ¬ fs'.IsLink found) (hpath : .rootDir ∉ xs.tail)
    (hwalk : fs.walk left loc xs = .ok (.found found, rest)) :
    fs'.walk left loc xs = .ok (.found found, rest) := by
  have hwalks := Walks.of_walk hwalk
  clear hwalk
  refine Walks.walk ?_
  have behind : ∀ {x : Component} {xs : List Component}, .rootDir ∉ (x :: xs).tail → .rootDir ∉ xs.tail :=
    fun hpath mem => hpath (List.mem_of_mem_tail mem)
  induction hwalks with
  | done hspot => exact .done hspot
  | rootDir _ ih => exact .rootDir (ih (behind hpath))
  | curDir hdir _ ih => exact .curDir (h.isDirectory hdir) (ih (behind hpath))
  | parentDir hdir _ ih => exact .parentDir (h.isDirectory hdir) (ih (behind hpath))
  | missing _ _ hspot => cases hspot
  | @link left loc name target xs hdir hnode _ ih =>
    refine .link (h.isDirectory hdir) (h.2 _ _ hnode fun _ hfile => nomatch hfile) (ih fun mem => ?_)
    cases target with
    | nil => exact behind hpath mem
    | cons y target =>
      rcases List.mem_append.mp mem with mem | mem
      · exact hlinks _ _ hnode mem
      · exact hpath mem
  | @normal left loc name node xs hdir hnode hlink hwalks ih =>
    cases node with
    | link target => exact absurd rfl (hlink target)
    | directory =>
      exact .normal (h.isDirectory hdir) (h.2 _ _ hnode fun _ hfile => nomatch hfile) nofun
        (ih (behind hpath))
    | file content =>
      -- Nothing goes on behind a file, so the walk ends here.
      have hfile : fs.isDirectory (loc ++ [name]) ≠ true := by
        rw [FileSystem.isDirectory, hnode]
        exact Bool.false_ne_true
      cases hwalks with
      | done hspot =>
        obtain rfl := Spot.found.inj hspot
        obtain ⟨node', hnode'⟩ := Option.ne_none_iff_exists'.mp hthere
        exact .normal (h.isDirectory hdir) hnode' (fun target htarget => hplain ⟨target, htarget ▸ hnode'⟩)
          (.done rfl)
      | rootDir _ => exact absurd List.mem_cons_self hpath
      | curDir hhere _ | parentDir hhere _ | missing hhere _ _ | link hhere _ _ | normal hhere _ _ _ =>
        exact absurd hhere hfile

theorem walk_directory (h : fs.KeepsWays fs') (hlinks : fs.LinksArePaths) (hdir : fs.isDirectory dir = true)
    (hpath : .rootDir ∉ xs.tail) (hwalk : fs.walk left loc xs = .ok (.found dir, rest)) :
    fs'.walk left loc xs = .ok (.found dir, rest) := by
  have hdir' := h.isDirectory hdir
  refine walk_kept h hlinks (fun hnone => ?_) (not_isLink_of_directory hdir') hpath hwalk
  rw [isDirectory, hnone] at hdir'
  cases hdir'

theorem rootDir_notMem_components (p : Plain) : .rootDir ∉ p.components.tail := by
  have hnames : .rootDir ∉ p.names.reverse.map Component.normal := fun mem => by
    obtain ⟨name, -, hname⟩ := List.mem_map.mp mem
    cases hname
  rw [Plain.components]
  cases p.absolute with
  | true => exact hnames
  | false => exact fun mem => hnames (List.mem_of_mem_tail mem)

theorem entry_keeps (h : fs.KeepsWays fs') (hlinks : fs.LinksArePaths)
    (hentry : fs.entry p = .ok (dir, name)) : fs'.entry p = .ok (dir, name) := by
  obtain ⟨up, absolute, rfl, hnul, ⟨left, hup⟩, hdir⟩ := entry_inv hentry
  refine entry_ok_iff.mpr ⟨hnul, rfl, ⟨left, ?_⟩, h.isDirectory hdir⟩
  rw [walkPath] at hup ⊢
  rw [h.1]
  exact walk_directory h hlinks hdir (rootDir_notMem_components _) hup

/-! ### What was written is read -/

theorem walk_missing (h : fs.Extends fs') (hnode : fs'.node (dir ++ [name]) = some (.file content))
    (hwalk : fs.walk left loc xs = .ok (.missing dir name, rest)) :
    fs'.walk left loc xs = .ok (.found (dir ++ [name]), rest) := by
  refine (Walks.extend h (fun _ hspot => by cases hspot) ?_ (.of_walk hwalk)).walk
  rintro _ _ ⟨⟩ hdir
  exact .normal (h.isDirectory hdir) hnode nofun (.done rfl)

theorem lookup_walk {spot : Spot} (h : fs.lookup p = .ok spot) :
    p.hasNul = false ∧ (p.names.isEmpty && !p.absolute) = false ∧
      ∃ left, fs.walkPath p = .ok (spot, left) := by
  rw [lookup] at h
  split at h
  · cases h
  rename_i hnul
  split at h
  · cases h
  rename_i hempty
  cases hwalk : fs.walkPath p with
  | error e =>
    rw [hwalk] at h
    cases h
  | ok result =>
    rw [hwalk] at h
    cases h
    exact ⟨Bool.eq_false_iff.mpr hnul, Bool.eq_false_iff.mpr hempty, result.2, rfl⟩

theorem components_eq_nil_iff : p.components = [] ↔ p = ⟨[], false⟩ := by
  obtain ⟨names, absolute⟩ := p
  rw [Plain.components, List.append_eq_nil_iff, List.map_eq_nil_iff]
  cases absolute with
  | true | false => simp

theorem walk_there (hstart : xs = [] → fs.node loc ≠ none)
    (hwalk : fs.walk left loc xs = .ok (.found found, rest)) : fs.node found ≠ none := by
  have there : ∀ {loc}, fs.isDirectory loc = true → fs.node loc ≠ none := by
    intro loc hdir hnone
    rw [isDirectory, hnone] at hdir
    cases hdir
  have hwalks := Walks.of_walk hwalk
  clear hwalk
  induction hwalks with
  | done hspot =>
    cases hspot
    exact hstart rfl
  | rootDir _ ih => exact ih (fun _ => there rfl)
  | curDir hdir _ ih | link hdir _ _ ih => exact ih (fun _ => there hdir)
  | parentDir hdir _ ih => exact ih (fun _ => there (isDirectory_dropLast hdir))
  | missing _ _ hspot => cases hspot
  | normal hdir hnode hlink _ ih =>
    refine ih (fun _ => ?_)
    rw [hnode]
    exact Option.some_ne_none _

theorem file_of_found (h : fs.lookup p = .ok (.found loc)) (hfile : fs.isDirectory loc = false) :
    ∃ content, fs.node loc = some (.file content) := by
  obtain ⟨-, hempty, left, hwalk⟩ := lookup_walk h
  have hthere : fs.node loc ≠ none := by
    refine walk_there (fun hnil => ?_) hwalk
    rw [components_eq_nil_iff.mp hnil] at hempty
    cases hempty
  have hends := lookup_ends h
  cases hnode : fs.node loc with
  | none => exact absurd hnode hthere
  | some node =>
    cases node with
    | file content => exact ⟨content, rfl⟩
    | link target => exact absurd ⟨target, hnode⟩ hends
    | directory =>
      rw [isDirectory, hnode] at hfile
      cases hfile

theorem dropLast_of_node {node : Node} (hroot : loc ≠ []) (h : fs.node loc = some node) :
    fs.node loc.dropLast = some .directory := by
  have hsplit := List.dropLast_append_getLast hroot
  have hdir := @node_parent fs (loc.getLast hroot) loc.dropLast (by
    rw [hsplit, h]
    exact Option.some_ne_none _)
  exact beq_iff_eq.mp hdir

theorem write_node (h : fs.write p content = .ok (fs', loc)) (other : Location) :
    fs'.node other = if other = loc then some (.file content) else fs.node other := by
  obtain ⟨hput, -⟩ := write_spec h
  rw [write] at h
  cases hlookup : fs.lookup p with
  | error e =>
    rw [hlookup] at h
    cases h
  | ok spot =>
    have hends := lookup_ends hlookup
    rw [hlookup] at h
    cases spot with
    | missing dir name =>
      obtain ⟨hdir, hnone⟩ := hends
      cases h
      refine node_put (by simp) ?_ ?_ other
      · rw [List.dropLast_concat]
        exact beq_iff_eq.mp hdir
      · rw [hnone]
        exact (Option.some_ne_none _).symm
    | found found =>
      dsimp only at h
      split at h
      · cases h
      rename_i hfile
      cases h
      obtain ⟨old, hold⟩ := file_of_found hlookup (Bool.eq_false_iff.mpr hfile)
      have hroot : loc ≠ [] := fun heq => hfile (by rw [heq]; rfl)
      refine node_put hroot (dropLast_of_node hroot hold) ?_ other
      rw [hold]
      intro h
      cases h

theorem write_old (h : fs.write p content = .ok (fs', loc)) :
    fs.node loc = none ∨ ∃ old, fs.node loc = some (.file old) := by
  have hnode := write_node h loc
  rw [if_pos rfl] at hnode
  cases hold : fs.node loc with
  | none => exact .inl rfl
  | some node =>
    obtain ⟨node', hnode', hshape⟩ := (write_spec h).2.2 _ _ hold
    rw [hnode] at hnode'
    cases hnode'
    cases node with
    | file old => exact .inr ⟨old, rfl⟩
    | _ => cases hshape

/-- **A path leads to what was written to it.** -/
theorem write_found (h : fs.write p content = .ok (fs', loc)) :
    fs'.canonicalize p = .ok loc ∧ fs'.node loc = some (.file content) := by
  have hfile := write_node h loc
  rw [if_pos rfl] at hfile
  refine ⟨?_, hfile⟩
  obtain ⟨-, hext⟩ := write_spec h
  rw [write] at h
  cases hlookup : fs.lookup p with
  | error e =>
    rw [hlookup] at h
    cases h
  | ok spot =>
    obtain ⟨hnul, hempty, left, hwalk⟩ := lookup_walk hlookup
    rw [hlookup] at h
    cases spot with
    | missing dir name =>
      cases h
      refine canonicalize_ok_iff.mpr ⟨hnul, hempty, left, ?_⟩
      rw [walkPath, hext.1]
      exact walk_missing hext hfile hwalk
    | found found =>
      dsimp only at h
      split at h
      · cases h
      · cases h
        refine canonicalize_ok_iff.mpr ⟨hnul, hempty, left, ?_⟩
        rw [walkPath, hext.1]
        exact walk_extend hext hwalk

theorem write_at_entry (h : fs.write p content = .ok (fs', loc)) (hlink : fs.isSymlink p = false) :
    ∃ dir name, fs.entry p = .ok (dir, name) ∧ loc = dir ++ [name] := by
  rcases opensAt_cases (write_ok_iff.mp ⟨_, h⟩) with hlink' | ⟨dir, name, hentry, hloc, -⟩
  · rw [hlink] at hlink'
    cases hlink'
  · exact ⟨dir, name, hentry, hloc⟩

theorem write_linksFrom (h : fs.write p content = .ok (fs', loc)) : fs.LinksFrom fs' := by
  intro other target hnode
  rw [write_node h] at hnode
  split at hnode
  · cases hnode
  · exact ⟨other, hnode⟩

theorem extends_of_node (hcurrent : fs'.current = fs.current)
    (hnode : ∀ other, fs'.node other = if other = loc then some (.file content) else fs.node other)
    (hold : fs.node loc = none ∨ ∃ old, fs.node loc = some (.file old)) : fs.Extends fs' := by
  refine ⟨hcurrent, fun other node h => ?_⟩
  rw [hnode]
  split
  · rename_i hloc
    rcases hold with hnone | ⟨old, hold⟩
    · rw [hloc, hnone] at h
      cases h
    · rw [hloc, hold] at h
      cases h
      exact ⟨_, rfl, rfl⟩
  · exact ⟨node, h, rfl⟩

/-! ### Paths by their entries -/

theorem lookup_of_entry (hentry : fs.entry p = .ok (dir, name))
    (hlink : ∀ target, fs.node (dir ++ [name]) ≠ some (.link target)) :
    fs.lookup p = .ok (if (fs.node (dir ++ [name])).isNone then .missing dir name
      else .found (dir ++ [name])) := by
  obtain ⟨up, absolute, rfl, hnul, hup, hdir⟩ := entry_inv hentry
  rw [lookup, hnul, if_neg Bool.false_ne_true]
  cases hnode : fs.node (dir ++ [name]) with
  | none =>
    obtain ⟨left, hwalk⟩ := walkPath_missing hup hdir hnode
    rw [hwalk]
    rfl
  | some node =>
    obtain ⟨left, hwalk⟩ := reaches_of_node hup hdir hnode fun target heq =>
      hlink target (heq ▸ hnode)
    rw [hwalk]
    rfl

theorem removeAt_of_entry (hentry : fs.entry p = .ok (dir, name)) :
    fs.removeAt p.components =
      match fs.node (dir ++ [name]) with
      | none => .error .notFound
      | some .directory => .error .isDirectory
      | some _ => .ok (fs.removeEntry (dir ++ [name])) := by
  obtain ⟨up, absolute, rfl, hnul, ⟨left, hup⟩, hdir⟩ := entry_inv hentry
  rw [removeAt, any_hasNulComponent, hnul, if_neg Bool.false_ne_true, components_cons,
    List.getLast?_concat, List.dropLast_concat]
  have hslash : fs.walk maxLinks fs.current ((Plain.mk up absolute).components ++ [.curDir]) =
      .ok (.found dir, left) := by
    rw [walk_append]
    rw [walkPath] at hup
    rw [hup]
    show fs.walk left dir [.curDir] = .ok (.found dir, left)
    cases left with
    | zero => exact if_pos hdir
    | succ left => exact if_pos hdir
  dsimp only
  rw [hslash]

theorem isSymlink_of_entry (hentry : fs.entry p = .ok (dir, name)) :
    fs.isSymlink p = false ↔ ∀ target, fs.node (dir ++ [name]) ≠ some (.link target) := by
  rw [isSymlink, hentry]
  dsimp only
  constructor
  · intro h target hnode
    rw [hnode] at h
    cases h
  · intro h
    split
    · rename_i target hnode
      exact absurd hnode (h target)
    · rfl

theorem entry_of_exists (h : fs.exists? p = true) (hname : p.names ≠ []) :
    ∃ dir name, fs.entry p = .ok (dir, name) ∧ fs.node (dir ++ [name]) ≠ none := by
  obtain ⟨names, absolute⟩ := p
  cases names with
  | nil => exact absurd rfl hname
  | cons name up =>
    rw [exists?] at h
    cases hcanon : fs.canonicalize ⟨name :: up, absolute⟩ with
    | error e =>
      rw [hcanon] at h
      cases h
    | ok found =>
      obtain ⟨hnul, -, hreach⟩ := canonicalize_ok_iff.mp hcanon
      obtain ⟨dir, hup, hdir⟩ := hreach.parent
      refine ⟨dir, name, entry_ok_iff.mpr ⟨hnul, rfl, hup, hdir⟩, fun hnone => ?_⟩
      exact not_reaches_of_missing hup hdir hnone found hreach

theorem node_of_not_exists (h : fs.exists? p = false) (hlink : fs.isSymlink p = false)
    (hentry : fs.entry p = .ok (dir, name)) : fs.node (dir ++ [name]) = none := by
  have hlookup := lookup_of_entry hentry ((isSymlink_of_entry hentry).mp hlink)
  cases hnode : fs.node (dir ++ [name]) with
  | none => rfl
  | some node =>
    rw [hnode] at hlookup
    rw [exists?, canonicalize, hlookup] at h
    cases h

theorem canonicalize_extend (h : fs.canonicalize p = .ok loc) (hext : fs.Extends fs') :
    fs'.canonicalize p = .ok loc := by
  obtain ⟨hnul, hempty, hreach⟩ := canonicalize_ok_iff.mp h
  exact canonicalize_ok_iff.mpr ⟨hnul, hempty, Reaches.extend hreach hext⟩

theorem canonicalize_of_entry (hentry : fs.entry p = .ok (dir, name))
    (hnode : fs.node (dir ++ [name]) = some (.file content)) :
    fs.canonicalize p = .ok (dir ++ [name]) := by
  have hlookup := lookup_of_entry hentry fun target hlink => by
    rw [hnode] at hlink
    cases hlink
  rw [hnode] at hlookup
  rw [canonicalize, hlookup]
  rfl

theorem canonicalize_entry (h : fs.canonicalize p = .ok loc) (hentry : fs.entry p = .ok (dir, name))
    (hlink : fs.isSymlink p = false) : loc = dir ++ [name] := by
  have hlookup := lookup_of_entry hentry ((isSymlink_of_entry hentry).mp hlink)
  rw [canonicalize, hlookup] at h
  cases hnode : fs.node (dir ++ [name]) with
  | none =>
    rw [hnode] at h
    cases h
  | some node =>
    rw [hnode] at h
    exact (Except.ok.inj h).symm

theorem write_over {old : String} (h : fs.canonicalize p = .ok loc)
    (hnode : fs.node loc = some (.file old)) (content : String) :
    ∃ fs', fs.write p content = .ok (fs', loc) := by
  rw [canonicalize] at h
  rw [write]
  cases hlookup : fs.lookup p with
  | error e =>
    rw [hlookup] at h
    cases h
  | ok spot =>
    rw [hlookup] at h
    cases spot with
    | missing dir name => cases h
    | found loc' =>
      cases h
      have hfile : fs.isDirectory loc = false := by
        rw [isDirectory, hnode]
        rfl
      dsimp only
      rw [hfile]
      exact ⟨_, rfl⟩

theorem write_there (hentry : fs.entry p = .ok (dir, name)) (hnode : fs.node (dir ++ [name]) = none)
    (content : String) : ∃ fs', fs.write p content = .ok (fs', dir ++ [name]) := by
  have hlookup := lookup_of_entry hentry fun target hlink => by
    rw [hnode] at hlink
    cases hlink
  rw [hnode] at hlookup
  rw [write, hlookup]
  exact ⟨_, rfl⟩

theorem existsAt_components (p : Plain) : fs.existsAt p.components = fs.exists? p := by
  rw [existsAt, lookupAt_components, exists?, canonicalize]
  cases fs.lookup p with
  | error e => rfl
  | ok spot =>
    cases spot with
    | found loc => rfl
    | missing dir name => rfl

theorem writeAt_components (p : Plain) (content : String) :
    fs.writeAt p.components content = (fs.write p content).map Prod.fst := by
  rw [writeAt, lookupAt_components, write]
  cases fs.lookup p with
  | error e => rfl
  | ok spot =>
    cases spot with
    | missing dir name => rfl
    | found loc =>
      dsimp only
      split
      all_goals rfl

theorem removeEntry_current (fs : FileSystem) (loc : Location) :
    (fs.removeEntry loc).current = fs.current := by
  rw [removeEntry]
  split
  · rfl
  · rfl

theorem removeEntry_keepsWays (h : fs.node loc = some (.file content)) :
    fs.KeepsWays (fs.removeEntry loc) := by
  refine ⟨removeEntry_current fs loc, fun other node hnode hfile => ?_⟩
  rw [node_removeEntry (by rw [h]; exact fun h => nomatch h), if_neg fun heq => ?_]
  · exact hnode
  · rw [heq, h] at hnode
    exact hfile content (Option.some.inj hnode).symm

theorem removeEntry_linksFrom (fs : FileSystem) (loc : Location) : fs.LinksFrom (fs.removeEntry loc) := by
  intro other target hnode
  by_cases h : fs.node loc ≠ some .directory
  · rw [node_removeEntry h] at hnode
    split at hnode
    · cases hnode
    · exact ⟨other, hnode⟩
  · rw [removeEntry, dif_neg h] at hnode
    exact ⟨other, hnode⟩

theorem renameTo_linksFrom {p' : Plain} (h : fs.renameTo p p' = .ok fs') : fs.LinksFrom fs' := by
  intro other target hnode
  obtain ⟨dir, name, dir', name', -, -, hfs', -, -, ⟨-, hsame⟩ | hmove⟩ := renameTo_spec h
  · rw [hsame] at hnode
    exact ⟨other, hnode⟩
  · rw [hfs', node_move hmove] at hnode
    split at hnode
    · exact ⟨_, hnode⟩
    · split at hnode
      · cases hnode
      · exact ⟨other, hnode⟩

/-! ### More directories -/

/-- New directories, and nothing else. -/
def MoreDirectories (fs fs' : FileSystem) : Prop :=
  fs'.current = fs.current ∧ ∀ loc, fs'.node loc = fs.node loc ∨
    fs.node loc = none ∧ fs'.node loc = some .directory

theorem MoreDirectories.refl (fs : FileSystem) : fs.MoreDirectories fs := ⟨rfl, fun _ => .inl rfl⟩

theorem MoreDirectories.node (h : fs.MoreDirectories fs') {node : Node}
    (hnode : fs.node loc = some node) : fs'.node loc = some node := by
  rcases h.2 loc with same | ⟨none, -⟩
  · exact same.trans hnode
  · rw [none] at hnode
    cases hnode

theorem MoreDirectories.none_before (h : fs.MoreDirectories fs') (hnode : fs'.node loc = none) :
    fs.node loc = none := by
  rcases h.2 loc with same | ⟨none, -⟩
  · exact same.symm.trans hnode
  · exact none

theorem MoreDirectories.extends (h : fs.MoreDirectories fs') : fs.Extends fs' :=
  ⟨h.1, fun _ node hnode => ⟨node, h.node hnode, rfl⟩⟩

theorem MoreDirectories.linksFrom (h : fs.MoreDirectories fs') : fs.LinksFrom fs' := by
  intro loc target hnode
  rcases h.2 loc with same | ⟨-, new⟩
  · exact ⟨loc, same ▸ hnode⟩
  · rw [hnode] at new
    cases new

/-- The new directories are those that the list names. -/
structure Makes (fs fs' : FileSystem) (made : List Location) : Prop where
  current : fs'.current = fs.current
  new : ∀ loc ∈ made, fs.node loc = none ∧ fs'.node loc = some .directory
  old : ∀ loc, loc ∉ made → fs'.node loc = fs.node loc

theorem Makes.refl (fs : FileSystem) : fs.Makes fs [] := ⟨rfl, List.forall_mem_nil _, fun _ _ => rfl⟩

theorem Makes.mkdir {made : List Location} (h : fs.Makes fs' made) {fs'' : FileSystem}
    (hmkdir : fs'.mkdir p = .ok (fs'', loc)) : fs.Makes fs'' (made ++ [loc]) := by
  obtain ⟨names, absolute⟩ := p
  cases names with
  | nil => cases absolute <;> cases hmkdir
  | cons name up =>
    obtain ⟨-, dir, rfl, hspec⟩ := mkdir_spec hmkdir
    have hnot : dir ++ [name] ∉ made := fun hmem => by
      have hthere := (h.new _ hmem).2
      rw [hspec.lacked] at hthere
      cases hthere
    refine ⟨hspec.extend.1.trans h.current, ?_, fun loc hloc => ?_⟩
    · rw [List.forall_mem_append, List.forall_mem_singleton]
      refine ⟨fun loc hloc => ?_, (h.old _ hnot).symm.trans hspec.lacked, ?_⟩
      · have hne : loc ≠ dir ++ [name] := fun heq => hnot (heq ▸ hloc)
        rw [hspec.node, if_neg hne]
        exact h.new loc hloc
      · rw [hspec.node, if_pos rfl]
    · rw [List.mem_append, List.mem_singleton, not_or] at hloc
      rw [hspec.node, if_neg hloc.2]
      exact h.old loc hloc.1

theorem createDirAll_makes (fs : FileSystem) (absolute : Bool) (names : List String) :
    fs.Makes (fs.createDirAll absolute names).1 (fs.createDirAll absolute names).2.1 := by
  induction names with
  | nil => exact .refl fs
  | cons name up ih =>
    rw [createDirAll]
    split
    · rename_i hmade
      exact (Makes.refl fs).mkdir hmade
    · split
      · rename_i hup
        rw [hup] at ih
        exact ih
      · rename_i fs₁ _ hup
        rw [hup] at ih
        cases hmade : fs₁.mkdir ⟨name :: up, absolute⟩ with
        | ok result => exact ih.mkdir hmade
        | error e => exact ih
    · exact .refl fs

theorem Makes.more {made : List Location} (h : fs.Makes fs' made) : fs.MoreDirectories fs' := by
  refine ⟨h.current, fun loc => ?_⟩
  by_cases hmem : loc ∈ made
  · exact .inr (h.new loc hmem)
  · exact .inl (h.old loc hmem)

end Vexcoder.Lib.Files.FileSystem

/-! ### Writes that fail on the way -/

namespace Vexcoder.Lib.Files

/-- The system refuses a path that could be written, or it stops after some of the content. -/
inductive WriteFault where
  | refused
  | cut (written : ℕ)

/-- `fs::write` with what it meets; the error is that of the path, if there is one. -/
def FileSystem.writeWith (fs : FileSystem) (fault : Option WriteFault) (p : Plain) (content : String) :
    FileSystem × Except (Option IoError) Unit :=
  match fault with
  | some .refused => (fs, .error none)
  | some (.cut written) =>
    match fs.write p (String.ofList (content.toList.take written)) with
    | .error e => (fs, .error (some e))
    | .ok (fs, _) => (fs, .error none)
  | none =>
    match fs.write p content with
    | .error e => (fs, .error (some e))
    | .ok (fs, _) => (fs, .ok ())

end Vexcoder.Lib.Files
