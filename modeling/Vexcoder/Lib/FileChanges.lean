import Mathlib.Tactic.Ring
import Vexcoder.Lib.FileWays

/-!
# Files that change

The paths below a directory, how long they can be (`length_le_of_canonicalize`), and what is left of the
ways to them when files come, go and change at some places: a path that leads to none of the places leads
where it did (`FilesChange.canonicalize`), and no other path starts to lead to something, unless a link
on it led nowhere before (`FilesChange.canonicalize_iff`).  `DirectoryMoves` is what a rename does with a
directory.
-/

namespace Vexcoder.Lib.Files.FileSystem

open Lib.Assoc

variable {fs fs' : FileSystem} {p root : Plain} {loc dir base : Location} {name : String}
  {names up : List String}

/-- A file system whose entries are files and directories has no links. -/
theorem not_isLink_of_entries (h : (fs.entries.all fun entry => match entry.2 with
      | .link _ => false
      | _ => true) = true) : ¬ fs.IsLink loc := by
  rintro ⟨target, hnode⟩
  rw [node, nodeAt] at hnode
  split at hnode
  · cases hnode
  · have hentry := List.all_eq_true.mp h _ (mem_of_find? hnode)
    cases hentry

/-! ### Paths below a path -/

/-- `Path::join` with some names. -/
def Plain.below (p : Plain) (names : List String) : Plain :=
  { p with names := names.reverse ++ p.names }

@[simp] theorem below_nil (p : Plain) : p.below [] = p := rfl

theorem below_concat (p : Plain) (names : List String) (name : String) :
    p.below (names ++ [name]) = ⟨name :: (p.below names).names, (p.below names).absolute⟩ := by
  simp [Plain.below]

theorem below_inj {names' : List String} : p.below names = p.below names' ↔ names = names' := by
  simp [Plain.below]

theorem nonempty_below (h : (root.names.isEmpty && !root.absolute) = false) (names : List String) :
    ((root.below names).names.isEmpty && !(root.below names).absolute) = false := by
  obtain ⟨rootNames, absolute⟩ := root
  cases absolute with
  | true => simp [Plain.below]
  | false =>
    cases rootNames with
    | nil => cases h
    | cons first rest => simp [Plain.below]

/-- What a path leads to is there, and it is no link. -/
theorem canonicalize_there (h : fs.canonicalize p = .ok loc) : fs.node loc ≠ none ∧ ¬ fs.IsLink loc := by
  rw [canonicalize] at h
  cases hlookup : fs.lookup p with
  | error e =>
    rw [hlookup] at h
    cases h
  | ok spot =>
    rw [hlookup] at h
    cases spot with
    | missing dir name => cases h
    | found found =>
      cases h
      obtain ⟨-, hempty, left, hwalk⟩ := lookup_walk hlookup
      refine ⟨walk_there (fun hnil => ?_) hwalk, lookup_ends hlookup⟩
      rw [components_eq_nil_iff.mp hnil] at hempty
      cases hempty

theorem canonicalize_below (hroot : fs.canonicalize root = .ok base)
    (h : fs.canonicalize (root.below (up ++ [name])) = .ok loc) :
    ∃ dir, fs.canonicalize (root.below up) = .ok dir ∧ fs.isDirectory dir = true ∧
      (fs.IsLink (dir ++ [name]) ∨ loc = dir ++ [name]) := by
  rw [below_concat] at h
  obtain ⟨hnul, -, hreach⟩ := canonicalize_ok_iff.mp h
  obtain ⟨-, hnonempty, -⟩ := canonicalize_ok_iff.mp hroot
  obtain ⟨dir, hup, hdir⟩ := hreach.parent
  have hup' : fs.canonicalize (root.below up) = .ok dir := by
    exact canonicalize_ok_iff.mpr ⟨hasNul_cons hnul, nonempty_below hnonempty up, hup⟩
  refine ⟨dir, hup', hdir, ?_⟩
  cases hnode : fs.node (dir ++ [name]) with
  | none => exact absurd hreach (not_reaches_of_missing hup hdir hnode loc)
  | some node =>
    cases node with
    | link target => exact .inl ⟨target, hnode⟩
    | directory => exact .inr (hreach.inj (reaches_of_node hup hdir hnode fun _ => Node.noConfusion))
    | file content => exact .inr (hreach.inj (reaches_of_node hup hdir hnode fun _ => Node.noConfusion))

theorem isSymlink_below (hup : fs.canonicalize (root.below up) = .ok dir) (hdir : fs.isDirectory dir = true)
    (hnul : (root.below (up ++ [name])).hasNul = false) :
    fs.isSymlink (root.below (up ++ [name])) = true ↔ fs.IsLink (dir ++ [name]) := by
  have hentry : fs.entry (root.below (up ++ [name])) = .ok (dir, name) := by
    rw [below_concat] at hnul ⊢
    exact entry_ok_iff.mpr ⟨hnul, rfl, (canonicalize_ok_iff.mp hup).2.2, hdir⟩
  rw [← Bool.not_eq_false, isSymlink_of_entry hentry, IsLink]
  simp

theorem canonicalize_of_node (hup : fs.canonicalize (root.below up) = .ok dir)
    (hnul : (root.below (up ++ [name])).hasNul = false) (hthere : fs.node (dir ++ [name]) ≠ none)
    (hlink : ¬ fs.IsLink (dir ++ [name])) :
    fs.canonicalize (root.below (up ++ [name])) = .ok (dir ++ [name]) := by
  have hdir := node_parent hthere
  rw [below_concat] at hnul ⊢
  refine canonicalize_ok_iff.mpr ⟨hnul, by simp, ?_⟩
  cases hnode : fs.node (dir ++ [name]) with
  | none => exact absurd hnode hthere
  | some node =>
    refine reaches_of_node (canonicalize_ok_iff.mp hup).2.2 hdir hnode ?_
    rintro target rfl
    exact hlink ⟨target, hnode⟩

/-- No link stands on the way down these names, nor at its end. -/
def LinkFree (fs : FileSystem) (base : Location) (names : List String) : Prop :=
  ∀ front, front <+: names → ¬ fs.IsLink (base ++ front)

theorem LinkFree.of_prefix (h : fs.LinkFree base names) (hup : up <+: names) : fs.LinkFree base up :=
  fun front hfront => h front (hfront.trans hup)

/-- **A path without links** leads to the place it names. -/
theorem canonicalize_plain (hroot : fs.canonicalize root = .ok base)
    (hlinks : fs.LinkFree base names)
    (h : fs.canonicalize (root.below names) = .ok loc) : loc = base ++ names := by
  induction names using List.reverseRecOn generalizing loc with
  | nil =>
    rw [below_nil, hroot] at h
    rw [List.append_nil]
    exact (Except.ok.inj h).symm
  | append_singleton up name ih =>
    obtain ⟨dir, hup, -, hcases⟩ := canonicalize_below hroot h
    obtain rfl := ih (hlinks.of_prefix (List.prefix_append _ _)) hup
    rw [List.append_assoc] at hcases
    exact hcases.resolve_left (hlinks _ List.prefix_rfl)

/-- A path without links leads to what stands at the place it names. -/
theorem canonicalize_direct (hroot : fs.canonicalize root = .ok base)
    (hlinks : fs.LinkFree base names)
    (hnul : (root.below names).hasNul = false) (hthere : fs.node (base ++ names) ≠ none) :
    fs.canonicalize (root.below names) = .ok (base ++ names) := by
  induction names using List.reverseRecOn with
  | nil => rw [below_nil, List.append_nil, hroot]
  | append_singleton up name ih =>
    rw [← List.append_assoc] at hthere ⊢
    have hdir := node_parent hthere
    rw [isDirectory, beq_iff_eq] at hdir
    have hup := ih (hlinks.of_prefix (List.prefix_append _ _))
      (by rw [below_concat] at hnul; exact hasNul_cons hnul) (by rw [hdir]; exact Option.some_ne_none _)
    refine canonicalize_of_node hup hnul hthere ?_
    rw [List.append_assoc]
    exact hlinks _ List.prefix_rfl

/-! ### How long a path can be -/

/-- No walk gets links back. -/
theorem walk_left_le {left rest : ℕ} {spot : Spot} {xs : List Component}
    (hwalk : fs.walk left loc xs = .ok (spot, rest)) : rest ≤ left := by
  have hwalks := Walks.of_walk hwalk
  clear hwalk
  induction hwalks with
  | done _ | missing _ _ _ => exact le_rfl
  | rootDir _ ih | curDir _ _ ih | parentDir _ _ ih | normal _ _ _ _ ih => exact ih
  | link _ _ _ ih => exact Nat.le_succ_of_le ih

def depth (fs : FileSystem) : ℕ := ((keys fs.entries).map List.length).foldr max 0

theorem length_le_depth (h : fs.node loc ≠ none) : loc.length ≤ fs.depth := by
  have hmax : ∀ (lengths : List ℕ) (n : ℕ), n ∈ lengths → n ≤ lengths.foldr max 0 := by
    intro lengths
    induction lengths with
    | nil => exact nofun
    | cons m lengths ih =>
      intro n hn
      rcases List.mem_cons.mp hn with rfl | hn
      · exact le_max_left _ _
      · exact (ih n hn).trans (le_max_right _ _)
  by_cases hloc : loc = []
  · subst hloc
    exact Nat.zero_le _
  · rw [node, nodeAt, if_neg hloc, ne_eq, find?_eq_none_iff, not_not] at h
    exact hmax _ _ (List.mem_map_of_mem h)

/-- Every name of a path goes down by one or takes a link. -/
theorem length_le_of_walkPath {left : ℕ} (hwalk : fs.walkPath (root.below names) = .ok (.found loc, left)) :
    names.length ≤ (maxLinks - left) * (fs.depth + 1) + loc.length := by
  induction names using List.reverseRecOn generalizing loc left with
  | nil => exact Nat.zero_le _
  | append_singleton up name ih =>
    rw [below_concat, walkPath_cons] at hwalk
    rw [List.length_append, List.length_singleton]
    cases hup : fs.walkPath (root.below up) with
    | error e =>
      rw [hup] at hwalk
      cases hwalk
    | ok result =>
      obtain ⟨spot, left₀⟩ := result
      rw [hup] at hwalk
      cases spot with
      | missing dir name' => cases hwalk
      | found dir =>
        have hlen := ih hup
        have hleft₀ : left₀ ≤ maxLinks := walk_left_le hup
        rw [walkFrom, walk_single] at hwalk
        split at hwalk
        · rename_i hdir
          have hdepth : dir.length ≤ fs.depth := length_le_depth fun hnone => by
            rw [isDirectory, hnone] at hdir
            cases hdir
          split at hwalk
          · cases hwalk
          · cases left₀ with
            | zero => cases hwalk
            | succ left₀ =>
              have hleft := walk_left_le hwalk
              -- A link is used up, and with it more than the depth of a location.
              obtain ⟨used, hused⟩ : ∃ used, maxLinks - left = maxLinks - (left₀ + 1) + 1 + used :=
                ⟨maxLinks - left - (maxLinks - (left₀ + 1) + 1), by omega⟩
              rw [hused]
              have hstep : (maxLinks - (left₀ + 1) + 1 + used) * (fs.depth + 1) =
                  (maxLinks - (left₀ + 1)) * (fs.depth + 1) + (fs.depth + 1) +
                    used * (fs.depth + 1) := by ring
              omega
          · cases hwalk
            rw [List.length_append, List.length_singleton]
            omega
        · cases hwalk

/-- **A path that leads somewhere is not longer** than the tree is deep, for each link it may take. -/
theorem length_le_of_canonicalize (h : fs.canonicalize (root.below names) = .ok loc) :
    names.length ≤ maxLinks * (fs.depth + 1) + fs.depth := by
  obtain ⟨-, -, left, hwalk⟩ := canonicalize_ok_iff.mp h
  have hlen := length_le_of_walkPath hwalk
  have hdepth := length_le_depth (canonicalize_there h).1
  have hlinks : (maxLinks - left) * (fs.depth + 1) ≤ maxLinks * (fs.depth + 1) :=
    Nat.mul_le_mul_right _ (Nat.sub_le _ _)
  omega

/-! ### Files that come, go and change -/

/-- Files come, go and change at some places, with directories above those that come. -/
structure FilesChange (fs fs' : FileSystem) (changed : List Location) : Prop where
  current : fs'.current = fs.current
  elsewhere : ∀ loc ∉ changed, fs'.node loc = fs.node loc ∨
    fs.node loc = none ∧ fs'.node loc = some .directory ∧
      ∃ place ∈ changed, loc <+: place ∧ fs'.node place ≠ none
  before : ∀ place ∈ changed, fs.node place = none ∨ ∃ content, fs.node place = some (.file content)
  after : ∀ place ∈ changed, fs'.node place = none ∨ ∃ content, fs'.node place = some (.file content)

def Creates (fs fs' : FileSystem) (changed : List Location) : Prop :=
  ∃ place ∈ changed, fs.node place = none ∧ fs'.node place ≠ none

namespace FilesChange

variable {changed : List Location}

theorem refl (fs : FileSystem) : FilesChange fs fs [] :=
  ⟨rfl, fun _ _ => .inl rfl, nofun, nofun⟩

theorem notMem_of_files
    (hplaces : ∀ place ∈ changed, fs.node place = none ∨ ∃ content, fs.node place = some (.file content))
    {node : Node} (hnode : fs.node loc = some node) (hfile : ∀ content, node ≠ .file content) :
    loc ∉ changed := by
  intro hmem
  rcases hplaces loc hmem with hnone | ⟨content, hcontent⟩
  · rw [hnone] at hnode
    cases hnode
  · rw [hcontent] at hnode
    cases hnode
    exact hfile content rfl

theorem notMem_of_before (h : FilesChange fs fs' changed) {node : Node}
    (hnode : fs.node loc = some node) (hfile : ∀ content, node ≠ .file content) : loc ∉ changed :=
  notMem_of_files h.before hnode hfile

theorem notMem_of_after (h : FilesChange fs fs' changed) {node : Node}
    (hnode : fs'.node loc = some node) (hfile : ∀ content, node ≠ .file content) : loc ∉ changed :=
  notMem_of_files h.after hnode hfile

theorem node_eq (h : FilesChange fs fs' changed) (hloc : loc ∉ changed)
    (hthere : fs.node loc ≠ none) : fs'.node loc = fs.node loc := by
  rcases h.elsewhere loc hloc with hsame | ⟨hnone, -⟩
  · exact hsame
  · exact absurd hnone hthere

theorem keepsWays (h : FilesChange fs fs' changed) : fs.KeepsWays fs' := by
  refine ⟨h.current, fun loc node hnode hfile => ?_⟩
  rw [h.node_eq (h.notMem_of_before hnode hfile) (by rw [hnode]; exact Option.some_ne_none _), hnode]

theorem link_iff (h : FilesChange fs fs' changed) {target : List Component} :
    fs'.node loc = some (.link target) ↔ fs.node loc = some (.link target) := by
  constructor
  · intro hnode
    rcases h.elsewhere loc (h.notMem_of_after hnode fun _ => Node.noConfusion) with
      hsame | ⟨-, hdir, -⟩
    · rw [← hsame, hnode]
    · rw [hdir] at hnode
      cases hnode
  · intro hnode
    exact h.keepsWays.2 loc _ hnode fun _ => Node.noConfusion

theorem isLink_iff (h : FilesChange fs fs' changed) : fs'.IsLink loc ↔ fs.IsLink loc :=
  exists_congr fun _ => h.link_iff

theorem linksArePaths (h : FilesChange fs fs' changed) (hlinks : fs.LinksArePaths) :
    fs'.LinksArePaths :=
  fun loc target hnode => hlinks loc target (h.link_iff.mp hnode)

theorem isDirectory_before (h : FilesChange fs fs' changed) (hdir : fs'.isDirectory loc = true)
    (hthere : fs.node loc ≠ none) : fs.isDirectory loc = true := by
  rw [isDirectory, beq_iff_eq] at hdir
  have hloc := h.notMem_of_after hdir fun _ => Node.noConfusion
  rw [isDirectory, ← h.node_eq hloc hthere, hdir]
  rfl

theorem node_before (h : FilesChange fs fs' changed) (hnew : ¬ Creates fs fs' changed)
    (hthere : fs'.node loc ≠ none) : fs.node loc ≠ none := by
  intro hnone
  by_cases hloc : loc ∈ changed
  · exact hnew ⟨loc, hloc, hnone, hthere⟩
  rcases h.elsewhere loc hloc with hsame | ⟨-, -, place, hmem, ⟨rest, rfl⟩, hplace⟩
  · rw [hsame] at hthere
    exact hthere hnone
  refine hnew ⟨loc ++ rest, hmem, ?_, hplace⟩
  by_contra hsome
  by_cases hrest : rest = []
  · rw [hrest, List.append_nil] at hsome
    exact hsome hnone
  · rw [directory_of_below hrest hsome] at hnone
    cases hnone

/-! ### Ways to what has not changed -/

/-- **A path stays** when it leads to none of the changed places. -/
theorem canonicalize (h : FilesChange fs fs' changed) (hlinks : fs.LinksArePaths)
    (hcanon : fs.canonicalize p = .ok loc) (hloc : loc ∉ changed) :
    fs'.canonicalize p = .ok loc := by
  obtain ⟨hthere, hplain⟩ := canonicalize_there hcanon
  obtain ⟨hnul, hempty, left, hwalk⟩ := canonicalize_ok_iff.mp hcanon
  refine canonicalize_ok_iff.mpr ⟨hnul, hempty, left, ?_⟩
  rw [walkPath] at hwalk ⊢
  rw [h.current]
  refine walk_kept h.keepsWays hlinks ?_ (fun hlink => hplain (h.isLink_iff.mp hlink))
    (rootDir_notMem_components p) hwalk
  rw [h.node_eq hloc hthere]
  exact hthere

/-- **No path starts to lead somewhere else**, unless it led nowhere and something is created. -/
theorem canonicalize_iff (h : FilesChange fs fs' changed) (hlinks : fs.LinksArePaths)
    (hapart : ∀ found, fs.canonicalize p = .ok found → found ∉ changed)
    (hnew : Creates fs fs' changed → ∃ found, fs.canonicalize p = .ok found) :
    fs'.canonicalize p = .ok loc ↔ fs.canonicalize p = .ok loc := by
  refine ⟨fun hcanon' => ?_, fun hcanon => h.canonicalize hlinks hcanon (hapart loc hcanon)⟩
  by_cases hsome : ∃ found, fs.canonicalize p = .ok found
  · obtain ⟨found, hcanon⟩ := hsome
    rw [h.canonicalize hlinks hcanon (hapart found hcanon)] at hcanon'
    rw [hcanon, Except.ok.inj hcanon']
  · have hold := @node_before fs fs' loc changed h fun hcreates => hsome (hnew hcreates)
    obtain ⟨hthere', hplain'⟩ := canonicalize_there hcanon'
    obtain ⟨hnul, hempty, left, hwalk⟩ := canonicalize_ok_iff.mp hcanon'
    refine canonicalize_ok_iff.mpr ⟨hnul, hempty, left, ?_⟩
    have hback : fs'.KeepsWays fs := by
      refine ⟨h.current.symm, fun other node hnode hfile => ?_⟩
      have hthere := h.node_before (fun hcreates => hsome (hnew hcreates))
        (by rw [hnode]; exact Option.some_ne_none _)
      rw [← h.node_eq (h.notMem_of_after hnode hfile) hthere, hnode]
    rw [walkPath] at hwalk ⊢
    rw [← h.current]
    exact walk_kept hback (h.linksArePaths hlinks) (hold hthere')
      (fun hlink => hplain' (h.isLink_iff.mpr hlink)) (rootDir_notMem_components p) hwalk

theorem below_new (h : FilesChange fs fs' changed) (hnone : fs.node dir = none) :
    fs.node (dir ++ [name]) = none ∧ ¬ fs'.IsLink (dir ++ [name]) := by
  have hbelow : fs.node (dir ++ [name]) = none := by
    by_contra hsome
    have hdir := node_parent hsome
    rw [isDirectory, hnone] at hdir
    cases hdir
  refine ⟨hbelow, fun hlink => ?_⟩
  obtain ⟨target, htarget⟩ := h.isLink_iff.mp hlink
  rw [hbelow] at htarget
  cases htarget

theorem of_write {content : String} (h : fs.write p content = .ok (fs', loc)) : FilesChange fs fs' [loc] where
  current := (write_spec h).2.1
  elsewhere := fun other hother =>
    .inl (by rw [write_node h, if_neg fun heq => hother (List.mem_singleton.mpr heq)])
  before := fun place hplace => by
    rw [List.mem_singleton.mp hplace]
    exact write_old h
  after := fun place hplace => by
    rw [List.mem_singleton.mp hplace, write_node h, if_pos rfl]
    exact .inr ⟨content, rfl⟩

theorem of_taken {source target : Location} {content : String} (hcurrent : fs'.current = fs.current)
    (hnode : ∀ other, fs'.node other = if other = target then some (.file content)
      else if other = source then none else fs.node other)
    (hsource : fs.node source = none ∨ ∃ old, fs.node source = some (.file old))
    (htarget : fs.node target = none ∨ ∃ old, fs.node target = some (.file old)) :
    FilesChange fs fs' [source, target] where
  current := hcurrent
  elsewhere := fun other hother => by
    rw [List.mem_pair, not_or] at hother
    rw [hnode, if_neg hother.2, if_neg hother.1]
    exact .inl rfl
  before := fun place hplace => by
    rcases List.mem_pair.mp hplace with rfl | rfl
    · exact hsource
    · exact htarget
  after := fun place hplace => by
    rw [hnode]
    split
    · exact .inr ⟨content, rfl⟩
    · rename_i hne
      rw [if_pos ((List.mem_pair.mp hplace).resolve_right hne)]
      exact .inl rfl

theorem of_made {fs₁ : FileSystem} (hcurrent : fs₁.current = fs.current)
    (hway : ∀ loc, fs₁.node loc = fs.node loc ∨
      fs.node loc = none ∧ fs₁.node loc = some .directory ∧ loc <+: dir)
    (h : FilesChange fs₁ fs' changed) {place : Location} (hplace : place ∈ changed)
    (hdir : dir <+: place) (hthere : fs'.node place ≠ none) : FilesChange fs fs' changed where
  current := h.current.trans hcurrent
  elsewhere := fun loc hloc => by
    rcases h.elsewhere loc hloc with hsame | ⟨hnone, hnew, habove⟩
    · rcases hway loc with hsame' | ⟨hnone, hnew, hpre⟩
      · exact .inl (hsame.trans hsame')
      · exact .inr ⟨hnone, hsame.trans hnew, place, hplace, hpre.trans hdir, hthere⟩
    · rcases hway loc with hsame' | ⟨-, hdirectory, -⟩
      · exact .inr ⟨hsame'.symm.trans hnone, hnew, habove⟩
      · rw [hnone] at hdirectory
        cases hdirectory
  before := fun other hother => by
    rcases hway other with hsame | ⟨hnone, -⟩
    · rw [← hsame]
      exact h.before other hother
    · exact .inl hnone
  after := h.after

end FilesChange

/-! ### A directory that moves -/

/-- The files below a place come to stand below another one, where none were; the other files and the
directories stay. -/
structure DirectoryMoves (fs fs' : FileSystem) (source target : Location) : Prop where
  linksFrom : fs.LinksFrom fs'
  links : ∀ loc, fs'.IsLink loc → fs.IsLink loc ∨ ∃ rest, loc = target ++ rest ∧ fs.IsLink (source ++ rest)
  arrived : ∀ rest content, fs'.node (target ++ rest) = some (.file content) →
    fs.node (source ++ rest) = some (.file content)
  empty : ∀ rest content, fs.node (target ++ rest) ≠ some (.file content)
  left : ∀ rest content, ¬ target <+: source ++ rest → fs'.node (source ++ rest) ≠ some (.file content)
  elsewhere : ∀ loc content, ¬ source <+: loc → ¬ target <+: loc →
    (fs'.node loc = some (.file content) ↔ fs.node loc = some (.file content))
  stays : ∀ loc, ¬ source <+: loc → ¬ target <+: loc → fs.isDirectory loc = true →
    fs'.isDirectory loc = true

/-- **A directory that is renamed**, when directories above its new place were made. -/
theorem DirectoryMoves.of_move {fs₁ : FileSystem} {source target : Location}
    (hmore : fs.MoreDirectories fs₁) (hmove : fs₁.CanMove source target)
    (htarget : fs₁.node target = none ∨ fs₁.node target = some .directory) :
    DirectoryMoves fs (fs₁.move source target) source target := by
  have hnode := node_move hmove
  have hback {loc : Location} {node : Node} (hnode : fs₁.node loc = some node)
      (hkind : node ≠ .directory) : fs.node loc = some node := by
    rcases hmore.2 loc with hsame | ⟨-, hnew⟩
    · rw [← hsame, hnode]
    · rw [hnode] at hnew
      exact absurd (Option.some.inj hnew) hkind
  -- a link comes from the source or was there
  have hlink {loc : Location} {aim : List Component}
      (h : (fs₁.move source target).node loc = some (.link aim)) :
      fs.node loc = some (.link aim) ∨
        ∃ rest, loc = target ++ rest ∧ fs.node (source ++ rest) = some (.link aim) := by
    rw [hnode] at h
    split at h
    · rename_i hbelow
      obtain ⟨rest, rfl⟩ := hbelow
      rw [List.drop_left] at h
      exact .inr ⟨rest, rfl, hback h Node.noConfusion⟩
    split at h
    · cases h
    · exact .inl (hback h Node.noConfusion)
  refine
    { linksFrom := ?_, links := ?_, arrived := ?_, empty := ?_, left := ?_, elsewhere := ?_
      stays := ?_ }
  · intro loc aim h
    obtain h | ⟨rest, -, h⟩ := hlink h
    · exact ⟨loc, h⟩
    · exact ⟨source ++ rest, h⟩
  · rintro loc ⟨aim, h⟩
    obtain h | ⟨rest, hloc, h⟩ := hlink h
    · exact .inl ⟨aim, h⟩
    · exact .inr ⟨rest, hloc, aim, h⟩
  · intro rest content h
    rw [hnode, if_pos (List.prefix_append target rest), List.drop_left] at h
    exact hback h Node.noConfusion
  · intro rest content h
    have hthere := hmore.node h
    by_cases hrest : rest = []
    · rw [hrest, List.append_nil] at hthere
      rcases htarget with hnone | hdir
      · rw [hthere] at hnone
        cases hnone
      · rw [hthere] at hdir
        cases hdir
    · have hkey : target ++ rest ∈ keys fs₁.entries := by
        rw [node, nodeAt, if_neg (by simp [hrest])] at hthere
        rw [mem_keys_iff_find?, hthere]
        rfl
      exact hrest (List.append_right_eq_self.mp (hmove.2.2.2.2 _ hkey (List.prefix_append target rest)))
  · intro rest content hapart h
    rw [hnode, if_neg hapart, if_pos (List.prefix_append source rest)] at h
    cases h
  · intro loc content hsource htarget
    rw [hnode, if_neg htarget, if_neg hsource]
    exact ⟨fun h => hback h Node.noConfusion, hmore.node⟩
  · intro loc hsource htarget hdir
    rw [isDirectory, beq_iff_eq] at hdir ⊢
    rw [hnode, if_neg htarget, if_neg hsource]
    exact hmore.node hdir

end Vexcoder.Lib.Files.FileSystem
