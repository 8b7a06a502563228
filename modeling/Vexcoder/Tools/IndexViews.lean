import Vexcoder.Tools.IndexWalk

/-!
# What the index sees of files that change

A file is `Shown` when the walk comes to a path that reads it.  When files change at some places and the
links that the walk can meet lead to none of them, nor to a directory above them, then every path shows
what it did, but for the paths that name the changed places (`shown_iff`).
-/

namespace Vexcoder.Tools

open Base
open Lib.Files FileSystem ToolOperator
open Lib.Files.FileSystem (Plain FilesChange Creates)

/-- The directory of a workspace, and the tools that work in it. -/
structure Workspace (op : ToolOperator) (fs : FileSystem) (root : Plain) (base : Location) : Prop where
  canonical : fs.canonicalize root = .ok base
  directory : fs.isDirectory base = true
  workingDir : op.workingDir = root.components
  canonicalWorkingDir : op.canonicalWorkingDir = locationComponents base

def Shown (op : ToolOperator) (fs : FileSystem) (root : Plain) (ignore : String → Bool → Bool)
    (names : List String) (content : String) : Prop :=
  Visited op fs root ignore names ∧ readToString fs (root.below names) = .ok content

/-- As a directory or not, the path is not ignored. -/
def MayPass (ignore : String → Bool → Bool) (names : List String) : Prop :=
  ∃ isDir, (!Text.isEmpty (relativeText names) && ignore (relativeText names) isDir) = false

/-- The links that the walk can meet, and the one that `.gitignore` may be, lead to none of the places
and to no directory above them, and somewhere when something is created. -/
def LinksApart (op : ToolOperator) (fs : FileSystem) (root : Plain) (ignore : String → Bool → Bool)
    (places : List Location) (creates : Prop) : Prop :=
  ∀ up name, (Visited op fs root ignore up ∧ MayPass ignore (up ++ [name])) ∨
      up ++ [name] = [".gitignore"] →
    fs.isSymlink (root.below (up ++ [name])) = true →
      match fs.canonicalize (root.below (up ++ [name])) with
      | .ok found => op.inside found = true → ∀ place ∈ places, ¬ found <+: place
      | .error _ => ¬ creates

variable {op : ToolOperator} {fs fs' : FileSystem} {root : Plain} {base loc dir : Location}
  {ignore : String → Bool → Bool} {names up : List String} {name content : String}
  {changed places : List Location} {creates creates' : Prop}

/-! ### The workspace -/

theorem Workspace.components_ne_nil (hw : Workspace op fs root base) : root.components ≠ [] := by
  obtain ⟨-, hempty, -⟩ := canonicalize_ok_iff.mp hw.canonical
  intro hnil
  rw [components_eq_nil_iff.mp hnil] at hempty
  cases hempty

theorem Workspace.new_eq (hw : Workspace op fs root base) : ToolOperator.new fs root.components = op := by
  obtain ⟨-, -, left, hwalk⟩ := canonicalize_ok_iff.mp hw.canonical
  obtain ⟨workingDir, canonicalWorkingDir⟩ := op
  obtain rfl : workingDir = root.components := hw.workingDir
  obtain rfl : canonicalWorkingDir = locationComponents base := hw.canonicalWorkingDir
  rw [walkPath] at hwalk
  rw [new, hwalk]
  dsimp only
  rw [if_neg (by simpa using hw.components_ne_nil)]

theorem Workspace.inside_base (hw : Workspace op fs root base) (rest : List String) :
    op.inside (base ++ rest) = true := by
  refine inside_append (inside_iff.mpr ?_) rest
  exact hw.canonicalWorkingDir.symm ▸ List.prefix_rfl

theorem ensure_of_canonicalize {p : Plain} (h : fs.canonicalize p = .ok loc) :
    op.ensurePathIsWithinWorkspace fs p = .ok () ↔ op.inside loc = true := by
  have hguard : fs.guard p.absolute p.names = some loc := by
    obtain ⟨pathNames, absolute⟩ := p
    cases pathNames with
    | nil =>
      rw [FileSystem.guard, h]
      rfl
    | cons name up => rw [FileSystem.guard, h]
  rw [ensure_ok_iff, hguard]
  simp

theorem Workspace.visited_root (hw : Workspace op fs root base) : Visited op fs root ignore [] := by
  refine .root ((ensure_of_canonicalize hw.canonical).mpr ?_)
  rw [← List.append_nil base]
  exact hw.inside_base []

theorem isDir_of_canonicalize {p : Plain} (h : fs.canonicalize p = .ok loc) :
    fs.isDir p = fs.isDirectory loc := by
  rw [isDir, h]

theorem Visited.parent (h : Visited op fs root ignore (up ++ [name])) :
    Visited op fs root ignore up ∧ ∃ dir, fs.canonicalize (root.below up) = .ok dir ∧
      fs.isDirectory dir = true ∧ fs.node (dir ++ [name]) ≠ none := by
  generalize hnames : up ++ [name] = names at h
  cases h with
  | root => simp at hnames
  | entry hup hdir hname =>
    obtain ⟨rfl, hlast⟩ := List.append_inj' hnames rfl
    obtain rfl := List.singleton_inj.mp hlast
    obtain ⟨dir, hcanon, hdirectory⟩ := isDir_iff.mp hdir
    exact ⟨hup, dir, hcanon, hdirectory, (mem_readDir_iff hcanon).mp hname⟩

theorem Visited.mayPass (h : Visited op fs root ignore names) : MayPass ignore names := ⟨_, h.passed⟩

theorem Visited.concat (hup : Visited op fs root ignore up)
    (hcanon : fs.canonicalize (root.below up) = .ok dir)
    (hfound : fs.canonicalize (root.below (up ++ [name])) = .ok loc)
    (hinside : op.inside loc = true) (hpassed : Passed fs root ignore (up ++ [name]))
    (hroot : fs.canonicalize root = .ok base) : Visited op fs root ignore (up ++ [name]) := by
  obtain ⟨dir', hcanon', hdir, hcases⟩ := canonicalize_below hroot hfound
  obtain rfl := Except.ok.inj (hcanon.symm.trans hcanon')
  refine .entry hup (isDir_iff.mpr ⟨dir, hcanon, hdir⟩) ((mem_readDir_iff hcanon).mpr ?_)
    ((ensure_of_canonicalize hfound).mpr hinside) hpassed
  rcases hcases with ⟨target, hlink⟩ | rfl
  · rw [hlink]
    exact Option.some_ne_none _
  · exact (canonicalize_there hfound).1

/-- The ignored paths depend on what is read from `.gitignore`. -/
theorem loadIgnore_congr {host : IndexHost}
    (h : ∀ content, readToString fs' (root.below [".gitignore"]) = .ok content ↔
      readToString fs (root.below [".gitignore"]) = .ok content) :
    loadIgnore host fs' root = loadIgnore host fs root := by
  rw [loadIgnore, loadIgnore]
  cases hread : readToString fs (root.below [".gitignore"]) with
  | ok content => rw [(h content).mpr hread]
  | error e =>
    cases hread' : readToString fs' (root.below [".gitignore"]) with
    | ok content =>
      rw [(h content).mp hread'] at hread
      cases hread
    | error e' => rfl

/-! ### Links -/

theorem LinksApart.mono (h : LinksApart op fs root ignore places creates)
    (hplaces : changed ⊆ places) (hcreates : creates' → creates) :
    LinksApart op fs root ignore changed creates' := by
  intro up name hmet hlink
  have hapart := h up name hmet hlink
  split at hapart
  · exact fun hinside place hmem => hapart hinside place (hplaces hmem)
  · exact fun hnew => hapart (hcreates hnew)

theorem linksApart_of_no_links (h : ∀ loc, ¬ fs.IsLink loc) :
    LinksApart op fs root ignore places creates := by
  intro up name _ hlink
  obtain ⟨dir, last, target, -, hnode⟩ := isSymlink_entry hlink
  exact absurd ⟨target, hnode⟩ (h (dir ++ [last]))

section Changes

variable (hw : Workspace op fs root base) (hlinks : fs.LinksArePaths)
  (hchange : FilesChange fs fs' changed) (hbelow : ∀ place ∈ changed, base <+: place)
  (hapart : LinksApart op fs root ignore changed (Creates fs fs' changed))

include hw hchange

theorem base_notMem : base ∉ changed := by
  have hdir := hw.directory
  rw [isDirectory, beq_iff_eq] at hdir
  exact hchange.notMem_of_before hdir fun _ => Node.noConfusion

include hlinks

theorem root_canonical : fs'.canonicalize root = .ok base :=
  hchange.canonicalize hlinks hw.canonical (base_notMem hw hchange)

theorem workspace_after : Workspace op fs' root base where
  canonical := root_canonical hw hlinks hchange
  directory := hchange.keepsWays.isDirectory hw.directory
  workingDir := hw.workingDir
  canonicalWorkingDir := hw.canonicalWorkingDir

theorem visited_after (hvisited : Visited op fs root ignore names)
    (hcanon : fs.canonicalize (root.below names) = .ok loc) (hloc : loc ∉ changed) :
    Visited op fs' root ignore names := by
  induction names using List.reverseRecOn generalizing loc with
  | nil => exact (workspace_after hw hlinks hchange).visited_root
  | append_singleton up name ih =>
    obtain ⟨hup, dir, hcanonUp, hdir, -⟩ := hvisited.parent
    have hdirNode := hdir
    rw [isDirectory, beq_iff_eq] at hdirNode
    have hdirLoc := hchange.notMem_of_before hdirNode fun _ => Node.noConfusion
    have hcanon' := hchange.canonicalize hlinks hcanon hloc
    refine (ih hup hcanonUp hdirLoc).concat (hchange.canonicalize hlinks hcanonUp hdirLoc) hcanon'
      ((ensure_of_canonicalize hcanon).mp hvisited.inside) ?_ (root_canonical hw hlinks hchange)
    have hpassed := hvisited.passed
    rw [Passed, isDir_of_canonicalize hcanon] at hpassed
    rw [Passed, isDir_of_canonicalize hcanon', isDirectory,
      hchange.node_eq hloc (canonicalize_there hcanon).1]
    exact hpassed

include hbelow hapart

theorem link_leads (loc : Location) (hup : fs.canonicalize (root.below up) = .ok dir)
    (hdir : fs.isDirectory dir = true) (hlink : fs.IsLink (dir ++ [name]))
    (hmet : (Visited op fs root ignore up ∧ MayPass ignore (up ++ [name])) ∨
      up ++ [name] = [".gitignore"]) :
    (fs'.canonicalize (root.below (up ++ [name])) = .ok loc ↔
        fs.canonicalize (root.below (up ++ [name])) = .ok loc) ∧
      (fs.canonicalize (root.below (up ++ [name])) = .ok loc → loc ∉ changed ∧
        (op.inside loc = true → ∀ place ∈ changed, ¬ loc <+: place)) := by
  by_cases hnul : (root.below (up ++ [name])).hasNul = false
  · have hsymlink := (isSymlink_below hup hdir hnul).mpr hlink
    have hhere := hapart up name hmet hsymlink
    have hfound : ∀ found, fs.canonicalize (root.below (up ++ [name])) = .ok found →
        op.inside found = true → ∀ place ∈ changed, ¬ found <+: place := by
      intro found hcanon
      rw [hcanon] at hhere
      exact hhere
    have hnot : ∀ found, fs.canonicalize (root.below (up ++ [name])) = .ok found → found ∉ changed := by
      intro found hcanon hmem
      obtain ⟨rest, rfl⟩ := hbelow found hmem
      exact hfound _ hcanon (hw.inside_base rest) _ hmem List.prefix_rfl
    refine ⟨hchange.canonicalize_iff hlinks hnot fun hnew => ?_, fun hcanon =>
      ⟨hnot loc hcanon, hfound loc hcanon⟩⟩
    cases hcanon : fs.canonicalize (root.below (up ++ [name])) with
    | ok found => exact ⟨found, rfl⟩
    | error e =>
      rw [hcanon] at hhere
      exact absurd hnew hhere
  · have hnone : ∀ {fs : FileSystem}, ¬ fs.canonicalize (root.below (up ++ [name])) = .ok loc :=
      fun h => hnul (canonicalize_ok_iff.mp h).1
    exact ⟨iff_of_false hnone hnone, fun h => absurd h hnone⟩

/-- **A visited path that leads above a changed place** names what it leads to. -/
theorem visited_above (hvisited : Visited op fs root ignore names)
    (hcanon : fs.canonicalize (root.below names) = .ok loc) {place : Location}
    (hplace : place ∈ changed) (hpre : loc <+: place) : loc = base ++ names := by
  induction names using List.reverseRecOn generalizing loc with
  | nil =>
    rw [below_nil, hw.canonical] at hcanon
    rw [List.append_nil, Except.ok.inj hcanon]
  | append_singleton up name ih =>
    obtain ⟨hup, dir, hcanonUp, hdir, -⟩ := hvisited.parent
    obtain ⟨dir', hcanonUp', -, hcases⟩ := canonicalize_below hw.canonical hcanon
    obtain rfl := Except.ok.inj (hcanonUp.symm.trans hcanonUp')
    rcases hcases with hlink | rfl
    · have hleads := (link_leads hw hlinks hchange hbelow hapart loc hcanonUp hdir hlink
        (.inl ⟨hup, hvisited.mayPass⟩)).2 hcanon
      exact absurd hpre (hleads.2 ((ensure_of_canonicalize hcanon).mp hvisited.inside) place hplace)
    · rw [ih hup hcanonUp ((List.prefix_append dir [name]).trans hpre), List.append_assoc]

/-- **A path that is visited afterwards** led there before, or it names a place that is new or has
changed. -/
theorem visited_before (hvisited : Visited op fs' root ignore names)
    (hcanon : fs'.canonicalize (root.below names) = .ok loc) :
    (fs.node loc ≠ none → loc ∉ changed →
      Visited op fs root ignore names ∧ fs.canonicalize (root.below names) = .ok loc) ∧
    ∀ place ∈ changed, loc <+: place → loc = base ++ names := by
  have hroot' := root_canonical hw hlinks hchange
  induction names using List.reverseRecOn generalizing loc with
  | nil =>
    rw [below_nil, hroot'] at hcanon
    obtain rfl := Except.ok.inj hcanon
    exact ⟨fun _ _ => ⟨hw.visited_root, hw.canonical⟩, fun _ _ _ => (List.append_nil base).symm⟩
  | append_singleton up name ih =>
    obtain ⟨hup', dir, hcanonUp', hdir', -⟩ := hvisited.parent
    obtain ⟨dir', hsame, -, hcases⟩ := canonicalize_below hroot' hcanon
    obtain rfl := Except.ok.inj (hcanonUp'.symm.trans hsame)
    obtain ⟨hbefore, habove⟩ := ih hup' hcanonUp'
    have hnul := (canonicalize_ok_iff.mp hcanon).1
    have hinside := (ensure_of_canonicalize hcanon).mp hvisited.inside
    have hnamed : loc = dir ++ [name] → ∀ place ∈ changed, loc <+: place → loc = base ++ (up ++ [name]) := by
      rintro rfl place hplace hpre
      rw [habove place hplace ((List.prefix_append dir [name]).trans hpre), List.append_assoc]
    by_cases hnew : fs.node dir = none
    · -- A new directory: what it holds is new as well, and no link.
      obtain ⟨hnone, hplain⟩ := @FilesChange.below_new fs fs' dir name changed hchange hnew
      obtain rfl := hcases.resolve_left hplain
      exact ⟨fun hthere => absurd hnone hthere, hnamed rfl⟩
    · have hdirNode := hdir'
      rw [isDirectory, beq_iff_eq] at hdirNode
      have hdir := hchange.isDirectory_before hdir' hnew
      obtain ⟨hup, hcanonUp⟩ := hbefore hnew (hchange.notMem_of_after hdirNode fun _ => Node.noConfusion)
      have hconcat : fs.canonicalize (root.below (up ++ [name])) = .ok loc → fs.node loc ≠ none →
          loc ∉ changed → Visited op fs root ignore (up ++ [name]) := by
        intro hfound hthere hloc
        refine hup.concat hcanonUp hfound hinside ?_ hw.canonical
        have hpassed := hvisited.passed
        rw [Passed, isDir_of_canonicalize hcanon, isDirectory,
          hchange.node_eq hloc hthere] at hpassed
        rw [Passed, isDir_of_canonicalize hfound, isDirectory]
        exact hpassed
      rcases hcases with hlink | rfl
      · have hlink := hchange.isLink_iff.mp hlink
        obtain ⟨hiff, hleads⟩ := link_leads hw hlinks hchange hbelow hapart loc hcanonUp hdir
          hlink (.inl ⟨hup, hvisited.mayPass⟩)
        have hfound := hiff.mp hcanon
        refine ⟨fun hthere hloc => ⟨hconcat hfound hthere hloc, hfound⟩, fun place hplace hpre => ?_⟩
        exact absurd hpre ((hleads hfound).2 hinside place hplace)
      · refine ⟨fun hthere hloc => ?_, hnamed rfl⟩
        have hplain := (canonicalize_there hcanon).2
        have hfound := canonicalize_of_node hcanonUp hnul hthere
          fun hlink => hplain (hchange.isLink_iff.mpr hlink)
        exact ⟨hconcat hfound hthere hloc, hfound⟩

/-- **What is shown stays**, but for the paths that name the changed places. -/
theorem shown_iff (hnames : base ++ names ∉ changed) :
    Shown op fs' root ignore names content ↔ Shown op fs root ignore names content := by
  constructor
  · rintro ⟨hvisited, hread⟩
    obtain ⟨loc, hcanon, hnode⟩ := readToString_eq_iff.mp hread
    obtain ⟨hbefore, habove⟩ := visited_before hw hlinks hchange hbelow hapart hvisited hcanon
    have hloc : loc ∉ changed := fun hmem => hnames (habove loc hmem List.prefix_rfl ▸ hmem)
    have hsame : fs.node loc = some (.file content) := by
      rcases hchange.elsewhere loc hloc with hsame | ⟨-, hdir, -⟩
      · rw [← hsame, hnode]
      · rw [hdir] at hnode
        cases hnode
    obtain ⟨hvisited', hcanon'⟩ := hbefore (by rw [hsame]; exact Option.some_ne_none _) hloc
    exact ⟨hvisited', readToString_eq_iff.mpr ⟨loc, hcanon', hsame⟩⟩
  · rintro ⟨hvisited, hread⟩
    obtain ⟨loc, hcanon, hnode⟩ := readToString_eq_iff.mp hread
    have hloc : loc ∉ changed := by
      intro hmem
      have hplace := visited_above hw hlinks hchange hbelow hapart hvisited hcanon hmem List.prefix_rfl
      exact hnames (hplace ▸ hmem)
    refine ⟨visited_after hw hlinks hchange hvisited hcanon hloc,
      readToString_eq_iff.mpr ⟨loc, hchange.canonicalize hlinks hcanon hloc, ?_⟩⟩
    rw [hchange.node_eq hloc (canonicalize_there hcanon).1, hnode]

/-- A file that stands in the workspace itself is read as it was. -/
theorem read_ignoreFile_iff (hfile : base ++ [".gitignore"] ∉ changed) :
    readToString fs' (root.below [".gitignore"]) = .ok content ↔
      readToString fs (root.below [".gitignore"]) = .ok content := by
  have hroot' := root_canonical hw hlinks hchange
  have hleads : ∀ loc, fs.IsLink (base ++ [".gitignore"]) → _ := fun loc hlink =>
    @link_leads op fs fs' root base base ignore [] ".gitignore" changed hw hlinks hchange hbelow hapart
      loc hw.canonical hw.directory hlink (.inr rfl)
  rw [readToString_eq_iff, readToString_eq_iff]
  constructor
  · rintro ⟨loc, hcanon, hnode⟩
    obtain ⟨dir, hup, -, hcases⟩ := @canonicalize_below fs' root loc base ".gitignore" []
      hroot' hcanon
    rw [below_nil, hroot'] at hup
    obtain rfl := Except.ok.inj hup
    have hback : loc ∉ changed → fs.node loc = some (.file content) := by
      intro hloc
      rcases hchange.elsewhere loc hloc with hsame | ⟨-, hdir, -⟩
      · rw [← hsame, hnode]
      · rw [hdir] at hnode
        cases hnode
    rcases hcases with hlink | rfl
    · obtain ⟨hiff, hfound⟩ := hleads loc (hchange.isLink_iff.mp hlink)
      have hcanon := hiff.mp hcanon
      exact ⟨loc, hcanon, hback (hfound hcanon).1⟩
    · have hsame := hback hfile
      have hnul := (canonicalize_ok_iff.mp hcanon).1
      refine ⟨base ++ [".gitignore"], ?_, hsame⟩
      refine @canonicalize_of_node fs root base ".gitignore" [] hw.canonical hnul ?_ ?_
      · rw [hsame]
        exact Option.some_ne_none _
      · rintro ⟨target, hlink⟩
        rw [hsame] at hlink
        cases hlink
  · rintro ⟨loc, hcanon, hnode⟩
    obtain ⟨dir, hup, -, hcases⟩ := @canonicalize_below fs root loc base ".gitignore" []
      hw.canonical hcanon
    rw [below_nil, hw.canonical] at hup
    obtain rfl := Except.ok.inj hup
    have hloc : loc ∉ changed := by
      rcases hcases with hlink | rfl
      · exact ((hleads loc hlink).2 hcanon).1
      · exact hfile
    refine ⟨loc, hchange.canonicalize hlinks hcanon hloc, ?_⟩
    rw [hchange.node_eq hloc (canonicalize_there hcanon).1, hnode]

/-- **The ignored paths stay**, unless `.gitignore` is a changed place. -/
theorem loadIgnore_eq (host : IndexHost) (hfile : base ++ [".gitignore"] ∉ changed) :
    loadIgnore host fs' root = loadIgnore host fs root :=
  loadIgnore_congr fun _ => read_ignoreFile_iff hw hlinks hchange hbelow hapart hfile

end Changes

end Vexcoder.Tools
