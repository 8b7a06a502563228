import Mathlib.Data.List.Induction
import Vexcoder.Lib.FileGuard

/-!
# Files that move and files that go

What `rename` and `unlink` leave of a file system: a location becomes another one with all that is below
it (`node_move`), or it is gone (`node_removeEntry`).
-/

namespace Vexcoder.Lib.Files.FileSystem

open Lib.Assoc

variable {fs fs' : FileSystem} {loc loc' dir : Location} {name : String}

/-! ### What lies below -/

theorem directory_of_below {rest : List String} (hne : rest ≠ [])
    (h : fs.node (loc ++ rest) ≠ none) : fs.node loc = some .directory := by
  induction rest using List.reverseRecOn with
  | nil => exact absurd rfl hne
  | append_singleton rest name ih =>
    rw [← List.append_assoc] at h
    have hdir := node_parent h
    rw [isDirectory, beq_iff_eq] at hdir
    by_cases hrest : rest = []
    · rw [hrest, List.append_nil] at hdir
      exact hdir
    · refine ih hrest ?_
      rw [hdir]
      exact Option.some_ne_none _

/-- A location can become another one that is not below it, lies in a directory and holds nothing. -/
def CanMove (fs : FileSystem) (loc loc' : Location) : Prop :=
  loc ≠ [] ∧ loc' ≠ [] ∧ ¬ loc <+: loc' ∧ fs.node loc'.dropLast = some .directory ∧
    ∀ key ∈ keys fs.entries, loc' <+: key → key = loc'

instance (fs : FileSystem) (loc loc' : Location) : Decidable (fs.CanMove loc loc') :=
  inferInstanceAs (Decidable (_ ∧ _ ∧ _ ∧ _ ∧ _))

def movedEntries (entries : List (Location × Node)) (loc loc' : Location) : List (Location × Node) :=
  (entries.filter fun entry => !loc.isPrefixOf entry.1 && entry.1 != loc') ++
    (entries.filter fun entry => loc.isPrefixOf entry.1).map fun entry =>
      (loc' ++ entry.1.drop loc.length, entry.2)

theorem nodeAt_moved (h : fs.CanMove loc loc') (other : Location) :
    nodeAt (movedEntries fs.entries loc loc') other =
      if loc' <+: other then fs.node (loc ++ other.drop loc'.length)
      else if loc <+: other then none else fs.node other := by
  obtain ⟨hloc, hloc', -, -, hempty⟩ := h
  have stays : find? other (fs.entries.filter fun entry =>
      !loc.isPrefixOf entry.1 && entry.1 != loc') =
        if !loc.isPrefixOf other && other != loc' then find? other fs.entries else none :=
    find?_filter (fun key => !loc.isPrefixOf key && key != loc') other fs.entries
  have goes : ∀ rest, find? (loc' ++ rest) ((fs.entries.filter fun entry =>
      loc.isPrefixOf entry.1).map fun entry => (loc' ++ entry.1.drop loc.length, entry.2)) =
        find? (loc ++ rest) fs.entries := by
    intro rest
    have mapped := find?_mapKey (f := fun key => loc' ++ key.drop loc.length) (k := loc ++ rest)
      (m := fs.entries.filter fun entry => loc.isPrefixOf entry.1) ?_
    · rw [List.drop_left] at mapped
      rw [mapped, find?_filter (fun key => loc.isPrefixOf key),
        if_pos (List.isPrefixOf_iff_prefix.mpr (List.prefix_append loc rest))]
    · intro key mem same
      have hkey : loc <+: key := by
        obtain ⟨entry, hentry, rfl⟩ := List.mem_map.mp mem
        exact List.isPrefixOf_iff_prefix.mp (List.mem_filter.mp hentry).2
      obtain ⟨rest', rfl⟩ := hkey
      have cut := List.append_cancel_left same
      rw [List.drop_left, List.drop_left] at cut
      rw [cut]
  by_cases hroot : other = []
  · subst hroot
    rw [nodeAt, if_pos rfl, if_neg fun h => hloc' (List.prefix_nil.mp h),
      if_neg fun h => hloc (List.prefix_nil.mp h), node, nodeAt, if_pos rfl]
  rw [nodeAt, if_neg hroot, movedEntries, find?_append, stays]
  by_cases hbelow : loc' <+: other
  · obtain ⟨rest, rfl⟩ := hbelow
    have hnot : (if !loc.isPrefixOf (loc' ++ rest) && loc' ++ rest != loc' then
        find? (loc' ++ rest) fs.entries else none) = none := by
      split
      · rename_i hkeep
        have hne := bne_iff_ne.mp ((Bool.and_eq_true _ _).mp hkeep).2
        rw [find?_eq_none_iff]
        exact fun mem => hne (hempty _ mem (List.prefix_append loc' rest))
      · rfl
    rw [hnot, goes, if_pos (List.prefix_append loc' rest), List.drop_left, node, nodeAt,
      if_neg (by simp [hloc])]
    rfl
  · have hnot : find? other ((fs.entries.filter fun entry => loc.isPrefixOf entry.1).map fun entry =>
        (loc' ++ entry.1.drop loc.length, entry.2)) = none := by
      rw [find?_eq_none_iff]
      intro mem
      obtain ⟨entry, hentry, rfl⟩ := List.mem_map.mp mem
      obtain ⟨old, -, rfl⟩ := List.mem_map.mp hentry
      exact hbelow (List.prefix_append _ _)
    have hne : other ≠ loc' := fun h => hbelow (h ▸ List.prefix_refl loc')
    rw [hnot, Option.or_none, if_neg hbelow]
    by_cases hmoved : loc <+: other
    · rw [if_pos hmoved, List.isPrefixOf_iff_prefix.mpr hmoved]
      rfl
    · have hfalse : loc.isPrefixOf other = false :=
        Bool.eq_false_iff.mpr fun h => hmoved (List.isPrefixOf_iff_prefix.mp h)
      rw [if_neg hmoved, hfalse, bne_iff_ne.mpr hne, node, nodeAt, if_neg hroot]
      rfl

theorem tree_moved (h : fs.CanMove loc loc') :
    ∀ entry ∈ movedEntries fs.entries loc loc',
      nodeAt (movedEntries fs.entries loc loc') entry.1.dropLast = some .directory := by
  intro entry mem
  rw [nodeAt_moved h]
  obtain ⟨hloc, hloc', hapart, hparent, hempty⟩ := h
  rcases List.mem_append.mp mem with mem | mem
  · obtain ⟨mem, hkeep⟩ := List.mem_filter.mp mem
    obtain ⟨hstays, hne⟩ := (Bool.and_eq_true _ _).mp hkeep
    have hnot : ¬ loc <+: entry.1.dropLast := fun hpre => by
      have := List.isPrefixOf_iff_prefix.mpr (hpre.trans (List.dropLast_prefix _))
      rw [this] at hstays
      cases hstays
    have hnot' : ¬ loc' <+: entry.1.dropLast := fun hpre =>
      bne_iff_ne.mp hne (hempty _ (List.mem_map_of_mem mem) (hpre.trans (List.dropLast_prefix _)))
    rw [if_neg hnot', if_neg hnot]
    exact fs.tree entry mem
  · obtain ⟨old, hold, rfl⟩ := List.mem_map.mp mem
    obtain ⟨hmem, hpre⟩ := List.mem_filter.mp hold
    obtain ⟨rest, heq⟩ := List.isPrefixOf_iff_prefix.mp hpre
    have htree := fs.tree old hmem
    rw [← heq] at htree ⊢
    rw [List.drop_left]
    by_cases hrest : rest = []
    · subst hrest
      rw [List.append_nil]
      have hshort : ¬ loc' <+: loc'.dropLast := fun hpre => by
        have := hpre.length_le
        rw [List.length_dropLast] at this
        have := List.length_pos_iff.mpr hloc'
        omega
      rw [if_neg hshort, if_neg fun hpre => hapart (hpre.trans (List.dropLast_prefix _))]
      exact hparent
    · rw [List.dropLast_append_of_ne_nil hrest] at htree ⊢
      rw [if_pos (List.prefix_append _ _), List.drop_left]
      exact htree

def move (fs : FileSystem) (loc loc' : Location) : FileSystem :=
  if h : fs.CanMove loc loc' then
    { fs with entries := movedEntries fs.entries loc loc', tree := tree_moved h }
  else fs

theorem move_current (fs : FileSystem) (loc loc' : Location) : (fs.move loc loc').current = fs.current := by
  rw [move]
  split
  · rfl
  · rfl

theorem node_move (h : fs.CanMove loc loc') (other : Location) :
    (fs.move loc loc').node other =
      if loc' <+: other then fs.node (loc ++ other.drop loc'.length)
      else if loc <+: other then none else fs.node other := by
  rw [move, dif_pos h]
  exact nodeAt_moved h other

theorem node_move_source {node : Node} (h : fs.CanMove loc loc') (hnode : fs.node loc = some node) :
    (fs.move loc loc').node loc = none := by
  rw [node_move h, if_neg fun hpre => ?_, if_pos List.prefix_rfl]
  have hkey : loc ∈ keys fs.entries := by
    rw [mem_keys_iff_find?]
    rw [FileSystem.node, nodeAt, if_neg h.1] at hnode
    rw [hnode]
    rfl
  have hsame := h.2.2.2.2 loc hkey hpre
  exact h.2.2.1 (hsame ▸ List.prefix_rfl)

theorem none_below {rest : List String} {node : Node} (h : fs.node loc = some node)
    (hfile : node ≠ .directory) (hrest : rest ≠ []) : fs.node (loc ++ rest) = none := by
  by_contra hsome
  have hdir := directory_of_below hrest hsome
  rw [h] at hdir
  exact hfile (Option.some.inj hdir)

/-- **A file that moves** takes its place and leaves the old one. -/
theorem node_move_file {node : Node} (h : fs.CanMove loc loc') (hnode : fs.node loc = some node)
    (hfile : node ≠ .directory) (other : Location) :
    (fs.move loc loc').node other =
      if other = loc' then some node else if other = loc then none else fs.node other := by
  rw [node_move h]
  by_cases hbelow : loc' <+: other
  · obtain ⟨rest, rfl⟩ := hbelow
    rw [if_pos (List.prefix_append loc' rest), List.drop_left]
    by_cases hrest : rest = []
    · rw [hrest, List.append_nil, List.append_nil, if_pos rfl]
      exact hnode
    have hne : loc' ++ rest ≠ loc' := fun heq => hrest (List.append_right_eq_self.mp heq)
    have hempty : fs.node (loc' ++ rest) = none := by
      rw [FileSystem.node, nodeAt, if_neg (by simp [hrest]), find?_eq_none_iff]
      exact fun mem => hne (h.2.2.2.2 _ mem (List.prefix_append loc' rest))
    rw [none_below hnode hfile hrest, if_neg hne, hempty, ite_self]
  · have hne : other ≠ loc' := fun heq => hbelow (by simp only [heq, List.prefix_refl])
    rw [if_neg hbelow, if_neg hne]
    by_cases hmoved : loc <+: other
    · obtain ⟨rest, rfl⟩ := hmoved
      rw [if_pos (List.prefix_append loc rest)]
      by_cases hrest : rest = []
      · rw [hrest, List.append_nil, if_pos rfl]
      · rw [none_below hnode hfile hrest, ite_self]
    · rw [if_neg hmoved, if_neg fun heq => hmoved (by simp only [heq, List.prefix_refl])]

/-- `rename`, and the file system it leaves. -/
def renameTo (fs : FileSystem) (p p' : Plain) : Except IoError FileSystem :=
  match fs.entry p, fs.entry p' with
  | .error e, _ => .error e
  | .ok _, .error e => .error e
  | .ok (dir, name), .ok (dir', name') =>
    match fs.renameEntry (dir ++ [name]) (dir' ++ [name']) with
    | .error e => .error e
    | .ok _ => .ok (fs.move (dir ++ [name]) (dir' ++ [name']))

/-- It ends as `rename` does. -/
theorem renameTo_cases (fs : FileSystem) (p p' : Plain) :
    (∃ e, fs.rename p p' = .error e ∧ fs.renameTo p p' = .error e) ∨
      ∃ locations fs', fs.rename p p' = .ok locations ∧ fs.renameTo p p' = .ok fs' := by
  rw [rename, renameTo]
  cases fs.entry p with
  | error e => exact .inl ⟨e, rfl, rfl⟩
  | ok entry =>
    cases fs.entry p' with
    | error e => exact .inl ⟨e, rfl, rfl⟩
    | ok entry' =>
      dsimp only
      cases fs.renameEntry (entry.1 ++ [entry.2]) (entry'.1 ++ [entry'.2]) with
      | error e => exact .inl ⟨e, rfl, rfl⟩
      | ok locations => exact .inr ⟨locations, _, rfl, rfl⟩

/-- **A rename that is let happen moves its location.** -/
theorem canMove_of_renameEntry {locations : List Location} (hloc : loc ≠ []) (hloc' : loc' ≠ [])
    (hne : loc ≠ loc') (hparent : fs.node loc'.dropLast = some .directory)
    (h : fs.renameEntry loc loc' = .ok locations) : fs.CanMove loc loc' := by
  have below : ∀ key ∈ keys fs.entries, loc' <+: key → key ≠ loc' → fs.node loc' = some .directory := by
    intro key mem hpre hkey
    obtain ⟨rest, rfl⟩ := hpre
    refine @directory_of_below fs loc' rest (fun hrest => hkey (by rw [hrest, List.append_nil])) ?_
    rw [node, nodeAt]
    split
    · exact Option.some_ne_none _
    · exact fun hnone => (find?_eq_none_iff.mp hnone) mem
  rw [renameEntry] at h
  split at h
  · cases h
  rename_i node hnode
  rw [if_neg hne] at h
  split at h
  · cases h
  rename_i hinside
  have hapart : ¬ loc <+: loc' := by
    intro hpre
    obtain ⟨rest, rfl⟩ := hpre
    have hrest : rest ≠ [] := fun hrest => hne (by rw [hrest, List.append_nil])
    have hdir : fs.node loc = some .directory := by
      by_cases hone : rest.dropLast = []
      · rw [List.dropLast_append_of_ne_nil hrest, hone, List.append_nil] at hparent
        exact hparent
      · refine @directory_of_below fs loc rest.dropLast hone ?_
        rw [← List.dropLast_append_of_ne_nil hrest, hparent]
        exact Option.some_ne_none _
    rw [hdir] at hnode
    cases hnode
    exact hinside (by simp)
  refine ⟨hloc, hloc', hapart, hparent, fun key mem hpre => ?_⟩
  by_contra hkey
  have hdir := below key mem hpre hkey
  rw [hdir] at h
  dsimp only at h
  split at h
  · cases h
  split at h
  · cases h
  rename_i hlen
  have hmem : key ∈ (fs.below loc').tail := by
    refine List.mem_filter.mpr ⟨mem, ?_⟩
    rw [List.isPrefixOf_iff_prefix.mpr hpre, bne_iff_ne.mpr hkey]
    rfl
  have hpos := List.length_pos_of_mem hmem
  rw [List.length_tail] at hpos
  rw [bne_iff_ne] at hlen
  omega

theorem entry_isDirectory {p : Plain} (h : fs.entry p = .ok (dir, name)) : fs.isDirectory dir = true := by
  obtain ⟨-, -, -, -, -, hdir⟩ := entry_inv h
  exact hdir

/-- **A rename that succeeds** leaves the entries where they are or moves one to the other. -/
theorem renameTo_spec {p p' : Plain} (h : fs.renameTo p p' = .ok fs') :
    ∃ dir name dir' name', fs.entry p = .ok (dir, name) ∧ fs.entry p' = .ok (dir', name') ∧
      fs' = fs.move (dir ++ [name]) (dir' ++ [name']) ∧
      ∃ node, fs.node (dir ++ [name]) = some node ∧
        (dir ++ [name] = dir' ++ [name'] ∧ fs' = fs ∨ fs.CanMove (dir ++ [name]) (dir' ++ [name'])) := by
  rw [renameTo] at h
  split at h
  · cases h
  · cases h
  · rename_i dir name dir' name' hentry hentry'
    split at h
    · cases h
    rename_i locations hrename
    cases h
    refine ⟨dir, name, dir', name', hentry, hentry', rfl, ?_⟩
    have hdir' : fs.node (dir' ++ [name']).dropLast = some .directory := by
      rw [List.dropLast_concat]
      exact beq_iff_eq.mp (entry_isDirectory hentry')
    cases hnode : fs.node (dir ++ [name]) with
    | none =>
      rw [renameEntry, hnode] at hrename
      cases hrename
    | some node =>
      refine ⟨node, rfl, ?_⟩
      by_cases hsame : dir ++ [name] = dir' ++ [name']
      · refine .inl ⟨hsame, ?_⟩
        rw [move, dif_neg fun hmove => hmove.2.2.1 (hsame ▸ List.prefix_refl _)]
      · exact .inr (canMove_of_renameEntry (by simp) (by simp) hsame hdir' hrename)

theorem renameTo_directory {p p' : Plain} {dir' : Location} {name' : String}
    (h : fs.renameTo p p' = .ok fs') (hentry : fs.entry p = .ok (dir, name))
    (hentry' : fs.entry p' = .ok (dir', name')) (hdir : fs.node (dir ++ [name]) = some .directory)
    (hne : dir ++ [name] ≠ dir' ++ [name']) :
    fs.node (dir' ++ [name']) = none ∨ fs.node (dir' ++ [name']) = some .directory := by
  rw [renameTo, hentry, hentry'] at h
  dsimp only at h
  cases hnode : fs.node (dir' ++ [name']) with
  | none => exact .inl rfl
  | some node =>
    cases node with
    | directory => exact .inr rfl
    | file content | link target =>
      rw [renameEntry, hdir] at h
      dsimp only at h
      rw [if_neg hne, hnode] at h
      by_cases hpre : (dir ++ [name]).isPrefixOf (dir' ++ [name']) = true <;> simp [hpre] at h

theorem renameTo_self {p : Plain} (h : fs.renameTo p p = .ok fs') : fs' = fs := by
  obtain ⟨dir, name, dir', name', hentry, hentry', -, -, -, ⟨-, hsame⟩ | hmove⟩ := renameTo_spec h
  · exact hsame
  · rw [hentry] at hentry'
    cases hentry'
    exact absurd List.prefix_rfl hmove.2.2.1

/-! ### Files that go -/

theorem tree_erase (h : fs.node loc ≠ some .directory) :
    ∀ entry ∈ erase loc fs.entries, nodeAt (erase loc fs.entries) entry.1.dropLast = some .directory := by
  intro entry mem
  have htree := fs.tree entry (List.mem_of_mem_filter mem)
  rw [nodeAt] at htree ⊢
  by_cases hroot : entry.1.dropLast = []
  · rw [if_pos hroot]
  rw [if_neg hroot] at htree ⊢
  rw [find?_erase, if_neg fun heq => ?_]
  · exact htree
  · refine h ?_
    rw [node, nodeAt, ← heq, if_neg hroot]
    exact htree

def removeEntry (fs : FileSystem) (loc : Location) : FileSystem :=
  if h : fs.node loc ≠ some .directory then
    { fs with entries := erase loc fs.entries, tree := tree_erase h }
  else fs

theorem node_removeEntry (h : fs.node loc ≠ some .directory) (other : Location) :
    (fs.removeEntry loc).node other = if other = loc then none else fs.node other := by
  rw [removeEntry, dif_pos h, node, nodeAt]
  by_cases hroot : other = []
  · subst hroot
    have hne : [] ≠ loc := fun heq => h (by rw [← heq]; rfl)
    rw [if_neg hne]
    rfl
  · rw [if_neg hroot, find?_erase, node, nodeAt, if_neg hroot]

end Vexcoder.Lib.Files.FileSystem
