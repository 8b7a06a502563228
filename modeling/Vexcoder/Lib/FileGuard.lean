import Vexcoder.Lib.FileSystem

/-!
# Guarding a path

`guard` is where the nearest ancestor of a path that exists really is.  When it lies inside, so do all
directories that are made for the path (`createDirAll_new`), and so does the entry at the end of the
path when it is no link to something (`entry_guarded`).
-/

namespace Vexcoder.Lib.Files.FileSystem

variable {fs fs' : FileSystem} {names up : List String} {name : String} {absolute : Bool} {loc dir : Location}

def Reaches (fs : FileSystem) (p : Plain) (loc : Location) : Prop :=
  ∃ left, fs.walkPath p = .ok (.found loc, left)

variable {p : Plain} {loc' found : Location} {node : Node} {content : String}

theorem Reaches.inj (h : fs.Reaches p loc) (h' : fs.Reaches p loc') : loc = loc' := by
  obtain ⟨left, h⟩ := h
  obtain ⟨left', h'⟩ := h'
  cases h.symm.trans h'
  rfl

theorem Reaches.extend (h : fs.Reaches p loc) (hext : fs.Extends fs') : fs'.Reaches p loc := by
  obtain ⟨left, h⟩ := h
  refine ⟨left, ?_⟩
  rw [walkPath, hext.1]
  exact walk_extend hext h

/-- Only a path in a directory reaches something. -/
theorem Reaches.parent (h : fs.Reaches ⟨name :: up, absolute⟩ loc) :
    ∃ dir, fs.Reaches ⟨up, absolute⟩ dir ∧ fs.isDirectory dir = true := by
  obtain ⟨left, h⟩ := h
  rw [walkPath_cons] at h
  cases hup : fs.walkPath ⟨up, absolute⟩ with
  | error e =>
    rw [hup] at h
    cases h
  | ok spot =>
    obtain ⟨spot, left'⟩ := spot
    rw [hup] at h
    cases spot with
    | missing dir' name' => cases h
    | found dir =>
      refine ⟨dir, ⟨left', hup⟩, ?_⟩
      by_contra hdir
      rw [walkFrom, walk_single, if_neg hdir] at h
      cases h

theorem reaches_of_node (hup : fs.Reaches ⟨up, absolute⟩ dir) (hdir : fs.isDirectory dir = true)
    (hnode : fs.node (dir ++ [name]) = some node) (hlink : ∀ target, node ≠ .link target) :
    fs.Reaches ⟨name :: up, absolute⟩ (dir ++ [name]) := by
  obtain ⟨left, hup⟩ := hup
  refine ⟨left, ?_⟩
  rw [walkPath_cons, hup, walkFrom, walk_single, if_pos hdir, hnode]
  cases node with
  | link target => exact absurd rfl (hlink target)
  | _ => rfl

theorem walkPath_missing (hup : fs.Reaches ⟨up, absolute⟩ dir) (hdir : fs.isDirectory dir = true)
    (hnode : fs.node (dir ++ [name]) = none) :
    ∃ left, fs.walkPath ⟨name :: up, absolute⟩ = .ok (.missing dir name, left) := by
  obtain ⟨left, hup⟩ := hup
  refine ⟨left, ?_⟩
  rw [walkPath_cons, hup, walkFrom, walk_single, if_pos hdir, hnode]

theorem canonicalize_ok_iff :
    fs.canonicalize p = .ok loc ↔
      p.hasNul = false ∧ (p.names.isEmpty && !p.absolute) = false ∧ fs.Reaches p loc := by
  rw [canonicalize, lookup, Reaches]
  cases p.hasNul with
  | true => simp
  | false =>
    cases p.names.isEmpty && !p.absolute with
    | true => simp
    | false =>
      cases fs.walkPath p with
      | error e => simp [Except.map]
      | ok spot =>
        obtain ⟨spot, left⟩ := spot
        cases spot <;> simp [Except.map]

theorem not_reaches_of_missing (hup : fs.Reaches ⟨up, absolute⟩ dir)
    (hdir : fs.isDirectory dir = true) (hnode : fs.node (dir ++ [name]) = none) (loc : Location) :
    ¬ fs.Reaches ⟨name :: up, absolute⟩ loc := by
  rintro ⟨left, h⟩
  obtain ⟨left', h'⟩ := walkPath_missing hup hdir hnode
  cases h.symm.trans h'

theorem exists?_reaches (h : fs.exists? p = true) : ∃ loc, fs.Reaches p loc := by
  rw [exists?] at h
  cases hcanon : fs.canonicalize p with
  | ok loc => exact ⟨loc, (canonicalize_ok_iff.mp hcanon).2.2⟩
  | error e =>
    rw [hcanon] at h
    cases h

/-- Where the nearest ancestor is that exists. -/
def guard (fs : FileSystem) (absolute : Bool) : List String → Option Location
  | [] => (fs.canonicalize ⟨[], absolute⟩).toOption
  | name :: up =>
    match fs.canonicalize ⟨name :: up, absolute⟩ with
    | .ok loc => some loc
    | .error _ => fs.guard absolute up

theorem guard_of_reaches (hguard : fs.guard p.absolute p.names = some loc)
    (hreach : fs.Reaches p loc') (hnul : p.hasNul = false) : loc' = loc := by
  obtain ⟨names, absolute⟩ := p
  cases names with
  | nil =>
    cases absolute with
    | false =>
      cases hguard
    | true =>
      have hcanon : fs.canonicalize ⟨[], true⟩ = .ok loc' :=
        canonicalize_ok_iff.mpr ⟨hnul, rfl, hreach⟩
      rw [guard, hcanon] at hguard
      exact Option.some.inj hguard
  | cons name up =>
    have hcanon : fs.canonicalize ⟨name :: up, absolute⟩ = .ok loc' :=
      canonicalize_ok_iff.mpr ⟨hnul, rfl, hreach⟩
    rw [guard, hcanon] at hguard
    exact Option.some.inj hguard

theorem guard_of_not_reaches (hguard : fs.guard absolute (name :: up) = some loc)
    (hreach : ∀ loc', ¬ fs.Reaches ⟨name :: up, absolute⟩ loc') :
    fs.guard absolute up = some loc := by
  rw [guard] at hguard
  cases hcanon : fs.canonicalize ⟨name :: up, absolute⟩ with
  | ok loc' => exact absurd (canonicalize_ok_iff.mp hcanon).2.2 (hreach loc')
  | error e =>
    rw [hcanon] at hguard
    exact hguard

theorem guard_of_new (hguard : fs.guard absolute (name :: up) = some loc)
    (hnul : (Plain.mk (name :: up) absolute).hasNul = false) (hup : fs.Reaches ⟨up, absolute⟩ dir)
    (hreach : ∀ loc', ¬ fs.Reaches ⟨name :: up, absolute⟩ loc') : dir = loc :=
  guard_of_reaches (guard_of_not_reaches hguard hreach) hup (hasNul_cons hnul)

/-! ### The end of a path -/

/-- A path leads on from its last name in the directory: the name is new, or a link, or the end. -/
theorem lookup_cases {spot : Spot} (h : fs.lookup ⟨name :: up, absolute⟩ = .ok spot) :
    ∃ dir, fs.entry ⟨name :: up, absolute⟩ = .ok (dir, name) ∧
      (fs.node (dir ++ [name]) = none ∧ spot = .missing dir name ∨
        fs.isSymlink ⟨name :: up, absolute⟩ = true ∨
        spot = .found (dir ++ [name])) := by
  rw [lookup] at h
  cases hnul : (Plain.mk (name :: up) absolute).hasNul with
  | true =>
    rw [hnul] at h
    cases h
  | false =>
    rw [hnul, walkPath_cons] at h
    have hwalk : (fs.walkFrom [.normal name] (fs.walkPath ⟨up, absolute⟩)).map Prod.fst =
        .ok spot := h
    cases hup : fs.walkPath ⟨up, absolute⟩ with
    | error e =>
      rw [hup] at hwalk
      cases hwalk
    | ok result =>
      obtain ⟨spot', left⟩ := result
      rw [hup] at hwalk
      cases spot' with
      | missing dir' name' => cases hwalk
      | found dir =>
        rw [walkFrom, walk_single] at hwalk
        by_cases hdir : fs.isDirectory dir = true
        · have hentry : fs.entry ⟨name :: up, absolute⟩ = .ok (dir, name) :=
            entry_ok_iff.mpr ⟨hnul, rfl, ⟨left, hup⟩, hdir⟩
          refine ⟨dir, hentry, ?_⟩
          rw [if_pos hdir] at hwalk
          rw [isSymlink, hentry]
          dsimp only
          cases hnode : fs.node (dir ++ [name]) with
          | none =>
            rw [hnode] at hwalk
            cases hwalk
            exact .inl ⟨rfl, rfl⟩
          | some node =>
            rw [hnode] at hwalk
            cases node with
            | link target => exact .inr (.inl rfl)
            | directory =>
              cases hwalk
              exact .inr (.inr rfl)
            | file content =>
              cases hwalk
              exact .inr (.inr rfl)
        · rw [if_neg hdir] at hwalk
          cases hwalk

theorem opensAt_cases (h : fs.opensAt p = some found) :
    fs.isSymlink p = true ∨
      ∃ dir name, fs.entry p = .ok (dir, name) ∧ found = dir ++ [name] ∧ fs.isDirectory found = false := by
  obtain ⟨names, absolute⟩ := p
  rw [opensAt] at h
  cases names with
  | nil =>
    cases absolute with
    | false => cases h
    | true => cases h
  | cons name up =>
    cases hlookup : fs.lookup ⟨name :: up, absolute⟩ with
    | error e =>
      rw [hlookup] at h
      cases h
    | ok spot =>
      obtain ⟨dir, hentry, hcases⟩ := lookup_cases hlookup
      rw [hlookup] at h
      rcases hcases with ⟨hnode, rfl⟩ | hlink | rfl
      · cases h
        refine .inr ⟨dir, name, hentry, rfl, ?_⟩
        rw [isDirectory, hnode]
        rfl
      · exact .inl hlink
      · dsimp only at h
        split at h
        · cases h
        · rename_i hdir
          cases h
          exact .inr ⟨dir, name, hentry, rfl, Bool.eq_false_iff.mpr hdir⟩

theorem isSymlink_entry (h : fs.isSymlink p = true) :
    ∃ dir name target, fs.entry p = .ok (dir, name) ∧ fs.node (dir ++ [name]) = some (.link target) := by
  rw [isSymlink] at h
  cases hentry : fs.entry p with
  | error e =>
    rw [hentry] at h
    cases h
  | ok found =>
    obtain ⟨dir, name⟩ := found
    rw [hentry] at h
    dsimp only at h
    split at h
    · rename_i target hnode
      exact ⟨dir, name, target, rfl, hnode⟩
    · cases h

theorem opensAt_entry (h : fs.opensAt p = some found) : ∃ dir name, fs.entry p = .ok (dir, name) := by
  rcases opensAt_cases h with hlink | ⟨dir, name, hentry, -⟩
  · obtain ⟨dir, name, _, hentry, -⟩ := isSymlink_entry hlink
    exact ⟨dir, name, hentry⟩
  · exact ⟨dir, name, hentry⟩

theorem opensAt_exists (hguard : fs.guard p.absolute p.names = some loc)
    (hexists : fs.exists? p = true) (h : fs.opensAt p = some found) : found = loc := by
  rw [exists?] at hexists
  cases hcanon : fs.canonicalize p with
  | error e =>
    rw [hcanon] at hexists
    cases hexists
  | ok loc' =>
    obtain ⟨hnul, -, hreach⟩ := canonicalize_ok_iff.mp hcanon
    obtain rfl := guard_of_reaches hguard hreach hnul
    rw [canonicalize] at hcanon
    rw [opensAt] at h
    cases hlookup : fs.lookup p with
    | error e =>
      rw [hlookup] at h
      cases h
    | ok spot =>
      rw [hlookup] at hcanon h
      cases spot with
      | missing dir name => cases hcanon
      | found loc'' =>
        cases hcanon
        dsimp only at h
        split at h
        · cases h
        · exact (Option.some.inj h).symm

theorem exists?_of_reaches (hnul : (Plain.mk (name :: up) absolute).hasNul = false)
    (h : fs.Reaches ⟨name :: up, absolute⟩ loc) : fs.exists? ⟨name :: up, absolute⟩ = true := by
  have hcanon : fs.canonicalize ⟨name :: up, absolute⟩ = .ok loc :=
    canonicalize_ok_iff.mpr ⟨hnul, rfl, h⟩
  rw [exists?, hcanon]
  rfl

/-- **The entry of a guarded path** is the guard or a name in it, unless it is a link to something. -/
theorem entry_guarded (hguard : fs.guard p.absolute p.names = some loc)
    (hentry : fs.entry p = .ok (dir, name)) (hlink : fs.isSymlink p = true → fs.exists? p = false) :
    dir ++ [name] = loc ∨ dir = loc := by
  obtain ⟨up, absolute, rfl, hnul, hup, hdir⟩ := entry_inv hentry
  by_cases hreach : ∃ found, fs.Reaches ⟨name :: up, absolute⟩ found
  · obtain ⟨found, hreach⟩ := hreach
    left
    cases hnode : fs.node (dir ++ [name]) with
    | none => exact absurd hreach (not_reaches_of_missing hup hdir hnode found)
    | some node =>
      refine guard_of_reaches hguard (reaches_of_node hup hdir hnode ?_) hnul
      rintro target rfl
      have hsymlink : fs.isSymlink ⟨name :: up, absolute⟩ = true := by
        rw [isSymlink, hentry]
        dsimp only
        rw [hnode]
      have hexists := hlink hsymlink
      rw [exists?_of_reaches hnul hreach] at hexists
      cases hexists
  · exact .inr (guard_of_new hguard hnul hup fun found h => hreach ⟨found, h⟩)

/-! ### New nodes -/

theorem node_put (h : loc ≠ []) (hparent : fs.node loc.dropLast = some .directory)
    (hnew : fs.node loc ≠ some .directory) (other : Location) :
    (fs.put loc node).node other = if other = loc then some node else fs.node other := by
  rw [put, dif_pos ⟨h, hparent, hnew⟩]
  exact nodeAt_insertLast h node other

theorem extends_put (hold : ∀ old, fs.node loc = some old → node.shape = old.shape) :
    fs.Extends (fs.put loc node) := by
  rw [put]
  split
  · rename_i h
    refine ⟨rfl, fun other old hother => ?_⟩
    have hput : nodeAt (Assoc.insertLast loc node fs.entries) other =
        if other = loc then some node else fs.node other := nodeAt_insertLast h.1 node other
    by_cases heq : other = loc
    · subst heq
      rw [if_pos rfl] at hput
      exact ⟨node, hput, hold old hother⟩
    · rw [if_neg heq] at hput
      exact ⟨old, hput.trans hother, rfl⟩
  · exact Extends.refl fs

theorem isDirectory_put_file {other : Location}
    (h : (fs.put loc (.file content)).isDirectory other = true) : fs.isDirectory other = true := by
  rw [put] at h
  split at h
  · rename_i hput
    rw [isDirectory, beq_iff_eq] at h
    have hnode : nodeAt (Assoc.insertLast loc (.file content) fs.entries) other = some .directory := h
    rw [nodeAt_insertLast hput.1] at hnode
    split at hnode
    · cases hnode
    · rw [isDirectory, beq_iff_eq]
      exact hnode
  · exact h

theorem write_spec (h : fs.write p content = .ok (fs', loc)) :
    fs' = fs.put loc (.file content) ∧ fs.Extends fs' := by
  rw [write] at h
  cases hlookup : fs.lookup p with
  | error e =>
    rw [hlookup] at h
    cases h
  | ok spot =>
    have hends := lookup_ends hlookup
    rw [hlookup] at h
    cases spot with
    | missing dir name =>
      cases h
      refine ⟨rfl, extends_put fun old hold => ?_⟩
      rw [hends.2] at hold
      cases hold
    | found loc' =>
      dsimp only at h
      split at h
      · cases h
      rename_i hdir
      cases h
      refine ⟨rfl, extends_put fun old hold => ?_⟩
      cases old with
      | file content => rfl
      | link target => exact absurd ⟨target, hold⟩ hends
      | directory =>
        rw [isDirectory, hold] at hdir
        exact absurd rfl hdir

theorem node_parent (h : fs.node (dir ++ [name]) ≠ none) : fs.isDirectory dir = true := by
  rw [node, nodeAt, if_neg (by simp), ne_eq, Assoc.find?_eq_none_iff, not_not] at h
  obtain ⟨entry, hmem, heq⟩ := List.mem_map.mp h
  have htree := fs.tree entry hmem
  rw [heq, List.dropLast_concat] at htree
  rw [isDirectory, node, htree]
  rfl

theorem write_entry (h : fs.write p content = .ok (fs', loc))
    (hentry : fs.entry p = .ok (dir, name)) (hdir : fs.isDirectory dir = true) :
    ∃ node, fs'.node (dir ++ [name]) = some node ∧ node ≠ .directory := by
  obtain ⟨rfl, hext⟩ := write_spec h
  rcases opensAt_cases (write_ok_iff.mp ⟨_, h⟩) with hlink | ⟨dir', name', hentry', rfl, hfile⟩
  · obtain ⟨dir', name', target, hentry', hnode⟩ := isSymlink_entry hlink
    rw [hentry] at hentry'
    cases hentry'
    obtain ⟨node, hnode', hshape⟩ := hext.2 _ _ hnode
    refine ⟨node, hnode', ?_⟩
    rintro rfl
    cases hshape
  · rw [hentry] at hentry'
    cases hentry'
    refine ⟨.file content, ?_, Node.noConfusion⟩
    rw [node_put (by simp), if_pos rfl]
    · rw [List.dropLast_concat]
      exact beq_iff_eq.mp hdir
    · intro hnode
      rw [isDirectory, hnode] at hfile
      cases hfile

structure MkdirSpec (fs : FileSystem) (up : List String) (name : String) (absolute : Bool)
    (fs' : FileSystem) (dir : Location) : Prop where
  parent : fs.Reaches ⟨up, absolute⟩ dir
  new : ∀ loc, ¬ fs.Reaches ⟨name :: up, absolute⟩ loc
  lacked : fs.node (dir ++ [name]) = none
  node : ∀ other, fs'.node other = if other = dir ++ [name] then some .directory else fs.node other
  extend : fs.Extends fs'
  reaches : fs'.Reaches ⟨name :: up, absolute⟩ (dir ++ [name])
  directory : fs'.isDirectory (dir ++ [name]) = true
  empty : ∀ name', fs'.node (dir ++ [name] ++ [name']) = none

theorem mkdir_spec (h : fs.mkdir ⟨name :: up, absolute⟩ = .ok (fs', loc)) :
    (Plain.mk (name :: up) absolute).hasNul = false ∧
      ∃ dir, loc = dir ++ [name] ∧ MkdirSpec fs up name absolute fs' dir := by
  rw [mkdir] at h
  cases hentry : fs.entry ⟨name :: up, absolute⟩ with
  | error e =>
    rw [hentry] at h
    cases h
  | ok found =>
    obtain ⟨dir, name'⟩ := found
    obtain ⟨hnul, rfl, hup, hdir⟩ := entry_ok_iff.mp hentry
    rw [hentry] at h
    dsimp only at h
    cases hnode : fs.node (dir ++ [name']) with
    | some node =>
      rw [hnode] at h
      cases h
    | none =>
      rw [hnode] at h
      cases h
      have hparent : fs.node (dir ++ [name']).dropLast = some .directory := by
        rw [List.dropLast_concat]
        exact beq_iff_eq.mp hdir
      have hput := @node_put fs (dir ++ [name']) .directory (by simp) hparent (by rw [hnode]; simp)
      have hext : fs.Extends (fs.put (dir ++ [name']) .directory) := extends_put fun old hold => by rw [hnode] at hold; cases hold
      have hnew : (fs.put (dir ++ [name']) .directory).node (dir ++ [name']) = some .directory := by
        rw [hput, if_pos rfl]
      refine ⟨hnul, dir, rfl, hup, not_reaches_of_missing hup hdir hnode, hnode, hput, hext, ?_, ?_, ?_⟩
      · exact reaches_of_node (Reaches.extend hup hext) (hext.isDirectory hdir) hnew
          fun _ => Node.noConfusion
      · rw [isDirectory, hnew]
        rfl
      · intro name''
        rw [hput, if_neg (by simp)]
        by_contra hsome
        have := node_parent hsome
        rw [isDirectory, hnode] at this
        cases this

theorem mkdir_reaches (h : fs.Reaches ⟨name :: up, absolute⟩ loc) :
    ∃ e, e ≠ .notFound ∧ fs.mkdir ⟨name :: up, absolute⟩ = .error e := by
  obtain ⟨dir, hup, hdir⟩ := h.parent
  by_cases hnul : (Plain.mk (name :: up) absolute).hasNul = true
  · refine ⟨.invalidInput, IoError.noConfusion, ?_⟩
    rw [mkdir, entry, if_pos hnul]
  have hentry : fs.entry ⟨name :: up, absolute⟩ = .ok (dir, name) :=
    entry_ok_iff.mpr ⟨Bool.eq_false_iff.mpr hnul, rfl, hup, hdir⟩
  refine ⟨.alreadyExists, IoError.noConfusion, ?_⟩
  rw [mkdir, hentry]
  dsimp only
  cases hnode : fs.node (dir ++ [name]) with
  | none => exact absurd h (not_reaches_of_missing hup hdir hnode loc)
  | some node => rfl

theorem mkdir_notFound (h : fs.mkdir ⟨name :: up, absolute⟩ = .error .notFound) :
    (Plain.mk (name :: up) absolute).hasNul = false ∧ ∀ dir, ¬ fs.Reaches ⟨up, absolute⟩ dir := by
  rw [mkdir] at h
  cases hentry : fs.entry ⟨name :: up, absolute⟩ with
  | ok found =>
    rw [hentry] at h
    dsimp only at h
    split at h <;> cases h
  | error e =>
    rw [hentry] at h
    cases h
    rw [entry] at hentry
    split at hentry
    · cases hentry
    rename_i hnul
    refine ⟨Bool.eq_false_iff.mpr hnul, ?_⟩
    rintro dir ⟨left, hreach⟩
    dsimp only at hentry
    rw [hreach] at hentry
    dsimp only at hentry
    split at hentry <;> cases hentry

/-! ### Making directories -/

theorem createDirAll_other {e : IoError} (h : fs.mkdir ⟨name :: up, absolute⟩ = .error e)
    (he : e ≠ .notFound) :
    fs.createDirAll absolute (name :: up) =
      (fs, [], if fs.isDir ⟨name :: up, absolute⟩ then .ok () else .error e) := by
  rw [createDirAll, h]
  cases e with
  | notFound => exact absurd rfl he
  | _ => rfl

theorem isDir_reaches (h : fs.isDir p = true) : ∃ loc, fs.Reaches p loc := by
  rw [isDir] at h
  cases hcanon : fs.canonicalize p with
  | ok loc => exact ⟨loc, (canonicalize_ok_iff.mp hcanon).2.2⟩
  | error e =>
    rw [hcanon] at h
    cases h

theorem mkdir_empty (hnul : (Plain.mk (name :: up) absolute).hasNul = false)
    (hup : fs.Reaches ⟨up, absolute⟩ dir) (hdir : fs.isDirectory dir = true)
    (hempty : fs.node (dir ++ [name]) = none) :
    fs.mkdir ⟨name :: up, absolute⟩ = .ok (fs.put (dir ++ [name]) .directory, dir ++ [name]) := by
  have hentry : fs.entry ⟨name :: up, absolute⟩ = .ok (dir, name) :=
    entry_ok_iff.mpr ⟨hnul, rfl, hup, hdir⟩
  rw [mkdir, hentry]
  dsimp only
  rw [hempty]

theorem mkdir_extends (h : fs.mkdir p = .ok (fs', loc)) : fs.Extends fs' := by
  obtain ⟨names, absolute⟩ := p
  cases names with
  | nil => cases absolute <;> cases h
  | cons name up =>
    obtain ⟨-, _, -, hspec⟩ := mkdir_spec h
    exact hspec.extend

theorem createDirAll_extends (fs : FileSystem) (absolute : Bool) (names : List String) :
    fs.Extends (fs.createDirAll absolute names).1 := by
  induction names with
  | nil => exact Extends.refl fs
  | cons name up ih =>
    rw [createDirAll]
    cases hmkdir : fs.mkdir ⟨name :: up, absolute⟩ with
    | ok result => exact mkdir_extends hmkdir
    | error e =>
      cases e with
      | notFound =>
        generalize fs.createDirAll absolute up = made at ih
        obtain ⟨fs₁, locs, result⟩ := made
        cases result with
        | error e => exact ih
        | ok _ =>
          dsimp only
          cases hmkdir₁ : fs₁.mkdir ⟨name :: up, absolute⟩ with
          | ok result => exact ih.trans (mkdir_extends hmkdir₁)
          | error e => exact ih
      | _ => exact Extends.refl fs

theorem createDirAll_reaches (hreach : fs.Reaches ⟨names, absolute⟩ loc) :
    ∃ result, fs.createDirAll absolute names = (fs, [], result) := by
  cases names with
  | nil => exact ⟨.ok (), rfl⟩
  | cons name up =>
    obtain ⟨e, he, hmkdir⟩ := mkdir_reaches hreach
    exact ⟨_, createDirAll_other hmkdir he⟩

theorem createDirAll_directory (hnul : (Plain.mk names absolute).hasNul = false)
    (hreach : fs.Reaches ⟨names, absolute⟩ dir) (hdir : fs.isDirectory dir = true) :
    fs.createDirAll absolute names = (fs, [], .ok ()) := by
  cases names with
  | nil => rfl
  | cons name up =>
    obtain ⟨e, he, hmkdir⟩ := mkdir_reaches hreach
    have hcanon : fs.canonicalize ⟨name :: up, absolute⟩ = .ok dir :=
      canonicalize_ok_iff.mpr ⟨hnul, rfl, hreach⟩
    have hisDir : fs.isDir ⟨name :: up, absolute⟩ = true := by
      rw [isDir, hcanon]
      exact hdir
    rw [createDirAll_other hmkdir he, if_pos hisDir]

/-- The directories that are made for a path, from the guard on. -/
structure MadeWay (fs' : FileSystem) (absolute : Bool) (names : List String) (guarded : Location)
    (made : List Location) (place : Location) : Prop where
  way : ∀ loc ∈ made, guarded <+: loc ∧ loc <+: place
  last : place ∈ made
  reaches : fs'.Reaches ⟨names, absolute⟩ place
  directory : fs'.isDirectory place = true
  empty : ∀ name, fs'.node (place ++ [name]) = none

/-- **Directories made for a path** that leads nowhere: none, or all behind the guard; the last one is
new and empty. -/
theorem createDirAll_new (names : List String) (hguard : fs.guard absolute names = some loc)
    (hnew : ∀ found, ¬ fs.Reaches ⟨names, absolute⟩ found) :
    (∃ e, fs.createDirAll absolute names = (fs, [], .error e)) ∨
      ∃ fs' made place, fs.createDirAll absolute names = (fs', made, .ok ()) ∧
        MadeWay fs' absolute names loc made place := by
  induction names with
  | nil =>
    cases absolute with
    | false => cases hguard
    | true => exact absurd ⟨maxLinks, rfl⟩ (hnew [])
  | cons name up ih =>
    cases hmkdir : fs.mkdir ⟨name :: up, absolute⟩ with
    | ok result =>
      obtain ⟨fs', made⟩ := result
      obtain ⟨hnul, dir, rfl, hspec⟩ := mkdir_spec hmkdir
      obtain rfl := guard_of_new hguard hnul hspec.parent hspec.new
      refine .inr ⟨fs', [dir ++ [name]], dir ++ [name], by rw [createDirAll, hmkdir], fun loc hloc => ?_,
        List.mem_singleton_self _, hspec.reaches, hspec.directory, hspec.empty⟩
      rw [List.mem_singleton.mp hloc]
      exact ⟨List.prefix_append dir [name], List.prefix_rfl⟩
    | error e =>
      by_cases he : e = .notFound
      · subst he
        obtain ⟨hnul, hparent⟩ := mkdir_notFound hmkdir
        rw [createDirAll, hmkdir]
        rcases ih (guard_of_not_reaches hguard hnew) hparent with ⟨e, hfailed⟩ | ⟨fs₁, made, dir, hmade, hway⟩
        · exact .inl ⟨e, by rw [hfailed]⟩
        have hmkdir₁ := mkdir_empty hnul hway.reaches hway.directory (hway.empty name)
        obtain ⟨-, dir', heq, hspec⟩ := mkdir_spec hmkdir₁
        obtain rfl := List.append_inj_left' heq rfl
        have hfront : dir <+: dir ++ [name] := List.prefix_append dir [name]
        refine .inr ⟨_, made ++ [dir ++ [name]], dir ++ [name], by rw [hmade]; dsimp only; rw [hmkdir₁],
          ?_, List.mem_append_right _ (List.mem_singleton_self _), hspec.reaches, hspec.directory, hspec.empty⟩
        rw [List.forall_mem_append, List.forall_mem_singleton]
        exact ⟨fun loc hloc => ⟨(hway.way loc hloc).1, (hway.way loc hloc).2.trans hfront⟩,
          (hway.way dir hway.last).1.trans hfront, List.prefix_rfl⟩
      · rw [createDirAll_other hmkdir he]
        refine .inl ⟨e, ?_⟩
        rw [if_neg fun hisDir => ?_]
        obtain ⟨found, hfound⟩ := isDir_reaches hisDir
        exact hnew found hfound

/-- Directories made in front of a name: there is nothing to make, or nothing was there. -/
theorem createDirAll_way {up : List String} (hguard : fs.guard absolute (name :: up) = some loc)
    (hmade : fs.createDirAll absolute up = (fs', made, .ok ())) :
    fs' = fs ∧ made = [] ∨
      (∀ found, ¬ fs.Reaches ⟨up, absolute⟩ found) ∧ ∃ place, MadeWay fs' absolute up loc made place := by
  by_cases hreach : ∃ found, fs.Reaches ⟨up, absolute⟩ found
  · obtain ⟨found, hreach⟩ := hreach
    obtain ⟨result, hsame⟩ := createDirAll_reaches hreach
    rw [hsame] at hmade
    cases hmade
    exact .inl ⟨rfl, rfl⟩
  · have hnone : ∀ found, ¬ fs.Reaches ⟨up, absolute⟩ found := fun found h => hreach ⟨found, h⟩
    have hnew : ∀ found, ¬ fs.Reaches ⟨name :: up, absolute⟩ found := fun found h => by
      obtain ⟨dir, hdir, -⟩ := h.parent
      exact hnone dir hdir
    rcases createDirAll_new up (guard_of_not_reaches hguard hnew) hnone with
      ⟨e, hfailed⟩ | ⟨_, _, place, hway, hmadeWay⟩
    · rw [hfailed] at hmade
      cases hmade
    rw [hway] at hmade
    cases hmade
    exact .inr ⟨hnone, place, hmadeWay⟩

theorem createDirAll_behind (hguard : fs.guard absolute names = some loc) :
    ∀ made ∈ (fs.createDirAll absolute names).2.1, loc <+: made := by
  by_cases hreach : ∃ found, fs.Reaches ⟨names, absolute⟩ found
  · obtain ⟨found, hfound⟩ := hreach
    obtain ⟨result, hsame⟩ := createDirAll_reaches hfound
    rw [hsame]
    exact List.forall_mem_nil _
  · rcases createDirAll_new names hguard fun found h => hreach ⟨found, h⟩ with
      ⟨e, hfailed⟩ | ⟨fs', made, place, hmade, hway⟩
    · rw [hfailed]
      exact List.forall_mem_nil _
    · rw [hmade]
      exact fun loc hloc => (hway.way loc hloc).1

/-! ### Renaming -/

theorem entry_extend (h : fs.entry p = .ok (dir, name)) (hext : fs.Extends fs') :
    fs'.entry p = .ok (dir, name) := by
  obtain ⟨up, absolute, rfl, hnul, hup, hdir⟩ := entry_inv h
  exact entry_ok_iff.mpr ⟨hnul, rfl, Reaches.extend hup hext, hext.isDirectory hdir⟩

theorem moved_spec (fs : FileSystem) (loc loc' : Location) :
    loc ∈ fs.moved loc loc' ∧ loc' ∈ fs.moved loc loc' ∧
      ∀ other ∈ fs.moved loc loc', loc <+: other ∨ loc' <+: other := by
  have hself : loc ∈ fs.below loc := List.mem_cons_self
  refine ⟨List.mem_append_left _ hself, List.mem_append_right _ ?_, ?_⟩
  · exact List.mem_map.mpr ⟨loc, hself, by rw [List.drop_length, List.append_nil]⟩
  · intro other hmem
    rcases List.mem_append.mp hmem with hmem | hmem
    · left
      rcases List.mem_cons.mp hmem with rfl | hmem
      · exact List.prefix_rfl
      · have hfilter := (List.mem_filter.mp hmem).2
        rw [Bool.and_eq_true] at hfilter
        exact List.isPrefixOf_iff_prefix.mp hfilter.1
    · right
      obtain ⟨source, -, rfl⟩ := List.mem_map.mp hmem
      exact List.prefix_append _ _

theorem renameEntry_locations {locations : List Location} (h : fs.renameEntry loc loc' = .ok locations) :
    locations = [] ∨ locations = fs.moved loc loc' := by
  rw [renameEntry] at h
  cases hnode : fs.node loc with
  | none =>
    rw [hnode] at h
    cases h
  | some node =>
    rw [hnode] at h
    dsimp only at h
    split at h
    · cases h
      exact .inl rfl
    split at h
    · cases h
    right
    split at h
    · cases h
      rfl
    · split at h
      · cases h
      split at h
      · cases h
      · cases h
        rfl
    · split at h
      · cases h
      · cases h
        rfl

/-- **A rename stays inside** when it does nothing or when both entries are. -/
theorem rename_inside {Inside : Location → Prop} (happend : ∀ loc rest, Inside loc → Inside (loc ++ rest))
    {p' : Plain} {locations : List Location} (h : fs.rename p p' = .ok locations) :
    ∃ dir name dir' name', fs.entry p = .ok (dir, name) ∧ fs.entry p' = .ok (dir', name') ∧
      ((∀ loc ∈ locations, Inside loc) ↔
        (locations ≠ [] → Inside (dir ++ [name]) ∧ Inside (dir' ++ [name']))) := by
  rw [rename] at h
  cases hentry : fs.entry p with
  | error e =>
    rw [hentry] at h
    cases h
  | ok found =>
    obtain ⟨dir, name⟩ := found
    cases hentry' : fs.entry p' with
    | error e =>
      rw [hentry, hentry'] at h
      cases h
    | ok found' =>
      obtain ⟨dir', name'⟩ := found'
      refine ⟨dir, name, dir', name', rfl, rfl, ?_⟩
      rw [hentry, hentry'] at h
      rcases renameEntry_locations h with rfl | rfl
      · exact ⟨fun _ h => absurd rfl h, nofun⟩
      obtain ⟨hmem, hmem', hprefix⟩ := moved_spec fs (dir ++ [name]) (dir' ++ [name'])
      constructor
      · intro hall _
        exact ⟨hall _ hmem, hall _ hmem'⟩
      · intro hboth other hother
        obtain ⟨hsource, htarget⟩ := hboth (List.ne_nil_of_mem hmem)
        rcases hprefix other hother with ⟨rest, rfl⟩ | ⟨rest, rfl⟩
        · exact happend _ rest hsource
        · exact happend _ rest htarget

/-- What a file or a link becomes. -/
theorem renameEntry_file (hnode : fs.node loc = some node) (hfile : node ≠ .directory) (hne : loc ≠ loc') :
    fs.renameEntry loc loc' =
      if fs.isDirectory loc' then .error .isDirectory else .ok (fs.moved loc loc') := by
  rw [renameEntry, hnode]
  dsimp only
  rw [if_neg hne, decide_eq_false hfile, Bool.false_and, isDirectory]
  cases fs.node loc' with
  | none => rfl
  | some node' =>
    cases node' with
    | directory =>
      rw [if_pos (bne_iff_ne.mpr hfile)]
      rfl
    | _ =>
      rw [if_neg hfile]
      rfl

end Vexcoder.Lib.Files.FileSystem
