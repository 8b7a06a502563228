import Vexcoder.Base.Lines
import Vexcoder.Tools.CodeIndex

/-!
# Paths of a call and paths of the walk

The walk puts its paths together from names, the tools normalize the path of a call, and the index takes
it as it was written.  For a path that is `PlainlyWritten` the three are the same, and so is the text that
chunks are kept under.
-/

namespace Vexcoder.Tools

open Base
open Lib.Files ToolOperator
open Lib.Files.FileSystem (Plain)

/-- Nothing but names behind the first name. -/
def PlainlyWritten (path : String) : Prop :=
  (splitOn '/' path.toList).dropWhile isSkipped ≠ [] ∧
    ∀ piece ∈ (splitOn '/' path.toList).dropWhile isSkipped, isSkipped piece = false

instance (path : String) : Decidable (PlainlyWritten path) :=
  inferInstanceAs (Decidable (_ ∧ ∀ _ ∈ _, _))

variable {op : ToolOperator} {fs : FileSystem} {root : Plain} {path : String}

theorem writtenPieces_eq (h : PlainlyWritten path) :
    writtenPieces path = ((splitOn '/' path.toList).dropWhile isSkipped).map String.ofList := by
  rw [writtenPieces, List.rdropWhile_eq_self_iff.mpr]
  intro hne
  rw [h.2 _ (List.getLast_mem hne)]
  exact Bool.false_ne_true

theorem writtenPieces_ne_nil (h : PlainlyWritten path) : writtenPieces path ≠ [] := by
  rw [writtenPieces_eq h]
  exact fun hnil => h.1 (List.map_eq_nil_iff.mp hnil)

/-! ### Trimmed paths -/

theorem request_paths_trimmed {tool : MutationTool} {input : Value} {request : Request}
    (h : toolRequest tool input = .ok request) : ∀ path ∈ request.paths, Text.trim path = path := by
  intro path hmem
  obtain ⟨target, -, rfl⟩ := toolRequest_paths h path hmem
  rw [Text.trim, Text.trim, String.toList_ofList, trim_trim]

/-- A request that succeeds has resolved its paths. -/
theorem request_paths_resolved {host : MutationHost} {fs' : FileSystem} {request : Request}
    {text : String} (h : executeRequest op host fs request = (fs', .ok text)) :
    ∀ path ∈ request.paths, ∃ resolved, op.resolvePath fs path = .ok resolved := by
  intro path hmem
  cases hresolved : op.resolvePath fs path with
  | ok resolved => exact ⟨resolved, rfl⟩
  | error e =>
    cases request with
    | writeFile other content =>
      obtain rfl := List.mem_singleton.mp hmem
      rw [executeRequest, writeFileIn, hresolved] at h
      dsimp only at h
      split at h
      all_goals cases h
    | applyPatch other content =>
      obtain rfl := List.mem_singleton.mp hmem
      rw [executeRequest, hresolved] at h
      cases h
    | editFile other oldStr newStr =>
      obtain rfl := List.mem_singleton.mp hmem
      rw [executeRequest, editFileIn, hresolved] at h
      cases h
    | renameFile oldPath newPath =>
      rw [executeRequest, renameFileIn] at h
      rcases List.mem_pair.mp hmem with rfl | rfl
      · rw [hresolved] at h
        cases h
      · rw [hresolved] at h
        split at h
        all_goals cases h

/-! ### Normal paths -/

theorem normalizePath_components (op : ToolOperator) (p : Plain) : op.normalizePath p.components = p := by
  have hnames : ∀ (names : List String) (out : Plain),
      (names.map Component.normal).foldl op.pushNormalized out = out.below names := by
    intro names
    induction names with
    | nil => exact fun _ => rfl
    | cons name names ih =>
      intro out
      rw [List.map_cons, List.foldl_cons, ih]
      simp [pushNormalized, Plain.below]
  obtain ⟨names, absolute⟩ := p
  rw [normalizePath, Plain.components]
  cases absolute with
  | true =>
    show (names.reverse.map Component.normal).foldl op.pushNormalized ⟨[], true⟩ = _
    rw [hnames]
    simp [Plain.below]
  | false =>
    show (names.reverse.map Component.normal).foldl op.pushNormalized ⟨[], false⟩ = _
    rw [hnames]
    simp [Plain.below]

theorem components_below (p : Plain) (names : List String) :
    (p.below names).components = p.components ++ names.map .normal := by
  rw [Plain.components, Plain.components, Plain.below, List.reverse_append, List.reverse_reverse,
    List.map_append, List.append_assoc]

/-! ### The three paths -/

/-- What resolving has found out about a path as it is written. -/
theorem resolvePath_written {resolved : Plain} (htrim : Text.trim path = path)
    (h : op.resolvePath fs path = .ok resolved) :
    path.toList.head? ≠ some '/' ∧ '\\' ∉ path.toList ∧ .parentDir ∉ components path := by
  rw [resolvePath, htrim] at h
  dsimp only at h
  split at h
  · cases h
  split at h
  · cases h
  rename_i hplain
  split at h
  · cases h
  rename_i hparent
  rw [Bool.or_eq_true, not_or] at hplain
  refine ⟨fun hslash => hplain.1 ?_, fun hmem => hplain.2 ?_, fun hmem => hparent ?_⟩
  · obtain ⟨rest, hrest⟩ : ∃ rest, path.toList = '/' :: rest := by
      cases hlist : path.toList with
      | nil =>
        rw [hlist] at hslash
        cases hslash
      | cons c rest =>
        rw [hlist] at hslash
        cases hslash
        exact ⟨rest, rfl⟩
    rw [Text.startsWith, hrest]
    rfl
  · exact List.any_eq_true.mpr ⟨'\\', hmem, beq_self_eq_true _⟩
  · exact List.any_eq_true.mpr ⟨.parentDir, hmem, beq_self_eq_true _⟩

theorem component_of_name {piece : List Char} (hname : isSkipped piece = false) (hdots : piece ≠ ['.', '.']) :
    (if piece.isEmpty || piece = ['.'] then none
      else if piece = ['.', '.'] then some Component.parentDir
      else some (Component.normal (String.ofList piece))) = some (.normal (String.ofList piece)) ∧
    rawComponent piece = .normal (String.ofList piece) := by
  rw [isSkipped] at hname
  rw [rawComponent, hname, if_neg hdots, if_neg hdots]
  exact ⟨rfl, rfl⟩

theorem piece_ne_dots (hparent : .parentDir ∉ components path) :
    ∀ piece ∈ splitOn '/' path.toList, piece ≠ ['.', '.'] := by
  rintro piece hmem rfl
  refine hparent ?_
  exact List.mem_append_right _ (List.mem_filterMap.mpr ⟨['.', '.'], hmem, rfl⟩)

def pathNames (path : String) : List String :=
  ((splitOn '/' path.toList).filter fun piece => !isSkipped piece).map String.ofList

theorem pathNames_eq (hplain : PlainlyWritten path) : pathNames path = writtenPieces path := by
  rw [pathNames, writtenPieces_eq hplain]
  congr 1
  have hpieces := @List.takeWhile_append_dropWhile _ isSkipped (splitOn '/' path.toList)
  conv_lhs => rw [← hpieces]
  rw [List.filter_append, List.filter_eq_nil_iff.mpr, List.nil_append, List.filter_eq_self]
  · exact fun piece hmem => by rw [hplain.2 piece hmem]; rfl
  · exact fun piece hmem => by simp [List.mem_takeWhile_imp hmem]

theorem components_names (hslash : path.toList.head? ≠ some '/') (hparent : .parentDir ∉ components path) :
    (components path).filter (· != .curDir) = (pathNames path).map .normal := by
  have hdots := piece_ne_dots hparent
  have hstart : (if (splitOn '/' path.toList).head? = some ['.'] then [Component.curDir]
      else []).filter (· != .curDir) = [] := by
    split
    all_goals rfl
  rw [components, if_neg hslash, List.nil_append, List.filter_append, hstart, List.nil_append, pathNames]
  generalize splitOn '/' path.toList = pieces at hdots
  induction pieces with
  | nil => rfl
  | cons piece pieces ih =>
    have ih := ih fun other hmem => hdots other (List.mem_cons_of_mem _ hmem)
    cases hskip : isSkipped piece with
    | true =>
      have hempty : (piece.isEmpty || decide (piece = ['.'])) = true := hskip
      rw [List.filterMap_cons, if_pos hempty, List.filter_cons_of_neg (by simp [hskip])]
      exact ih
    | false =>
      have hname := (component_of_name hskip (hdots piece List.mem_cons_self)).1
      have hkept : (!isSkipped piece) = true := by rw [hskip]; rfl
      rw [List.filterMap_cons, hname, List.filter_cons_of_pos (p := fun piece => !isSkipped piece) hkept]
      exact congrArg _ ih

/-- **The path of a tool** is put together from the names. -/
theorem named_names (hworking : op.workingDir = root.components) (hroot : root.components ≠ [])
    (htrim : Text.trim path = path) (hslash : path.toList.head? ≠ some '/')
    (hparent : .parentDir ∉ components path) : op.named path = root.below (pathNames path) := by
  rw [named, htrim, hworking, join, if_neg (by simpa using hroot),
    components_names hslash hparent, ← components_below, normalizePath_components]

/-! ### Dots in front of the names -/

theorem undot_names (xs : List Component) (h : ∀ x ∈ xs, x ≠ .curDir) : FileSystem.undot xs = xs := by
  induction xs with
  | nil => rfl
  | cons x xs ih =>
    rw [FileSystem.undot, if_neg fun hdot => h x List.mem_cons_self hdot.1,
      ih fun y hy => h y (List.mem_cons_of_mem _ hy)]

theorem undot_between (front dots : List Component) {rest : List Component}
    (hfront : ∀ x ∈ front, x ≠ .curDir) (hdots : ∀ x ∈ dots, x = .curDir) (hne : rest ≠ [])
    (hrest : ∀ x ∈ rest, x ≠ .curDir ∧ x ≠ .rootDir) :
    FileSystem.undot (front ++ (dots ++ rest)) = front ++ rest := by
  induction front with
  | nil =>
    induction dots with
    | nil => exact undot_names rest fun x hx => (hrest x hx).1
    | cons x dots ih =>
      rw [List.nil_append] at ih ⊢
      rw [List.cons_append, FileSystem.undot, if_pos, ih fun y hy => hdots y (List.mem_cons_of_mem _ hy)]
      refine ⟨hdots x List.mem_cons_self, by simp [hne], fun hhead => ?_⟩
      have hmem := List.mem_of_mem_head? hhead
      rcases List.mem_append.mp hmem with hmem | hmem
      · have hdot := hdots .rootDir (List.mem_cons_of_mem _ hmem)
        cases hdot
      · exact (hrest .rootDir hmem).2 rfl
  | cons x front ih =>
    rw [List.cons_append, FileSystem.undot, if_neg fun hdot => hfront x List.mem_cons_self hdot.1,
      ih fun y hy => hfront y (List.mem_cons_of_mem _ hy), List.cons_append]

theorem curDir_notMem_components (p : Plain) : ∀ x ∈ p.components, x ≠ .curDir := by
  rintro x hx rfl
  rcases List.mem_append.mp hx with hx | hx
  · split at hx
    · cases List.mem_singleton.mp hx
    · cases hx
  · obtain ⟨name, -, hname⟩ := List.mem_map.mp hx
    cases hname

/-- **The path of the index** differs from it by dots at most. -/
theorem undot_rawJoin (hslash : path.toList.head? ≠ some '/')
    (hparent : .parentDir ∉ components path) (hplain : PlainlyWritten path) :
    FileSystem.undot (rawJoin root.components path) = (root.below (writtenPieces path)).components := by
  have hdots := piece_ne_dots hparent
  have hpieces := @List.takeWhile_append_dropWhile _ isSkipped (splitOn '/' path.toList)
  have hnames : (((splitOn '/' path.toList).dropWhile isSkipped).map rawComponent) =
      (writtenPieces path).map .normal := by
    rw [writtenPieces_eq hplain, List.map_map]
    exact List.map_congr_left fun piece hmem =>
      (component_of_name (hplain.2 piece hmem) (hdots piece (List.dropWhile_subset _ hmem))).2
  have hraw : rawJoin root.components path = root.components ++
      (((splitOn '/' path.toList).takeWhile isSkipped).map rawComponent ++
        (writtenPieces path).map .normal) := by
    have hne : Text.isEmpty path = false := by
      rw [Bool.eq_false_iff]
      intro hempty
      rw [Text.isEmpty, List.isEmpty_iff] at hempty
      have := hplain.1
      rw [hempty] at this
      exact this rfl
    rw [rawJoin, if_neg hslash, hne, Bool.and_false, if_neg Bool.false_ne_true, rawComponents,
      if_neg hslash, List.nil_append, ← hnames, ← List.map_append, hpieces]
  rw [hraw, components_below]
  refine undot_between _ _ (curDir_notMem_components root) ?_ ?_ ?_
  · intro x hx
    obtain ⟨piece, hmem, rfl⟩ := List.mem_map.mp hx
    have hskip := List.mem_takeWhile_imp hmem
    rw [isSkipped] at hskip
    rw [rawComponent, if_pos hskip]
  · exact fun hnil => writtenPieces_ne_nil hplain (List.map_eq_nil_iff.mp hnil)
  · intro x hx
    obtain ⟨name, -, rfl⟩ := List.mem_map.mp hx
    exact ⟨Component.noConfusion, Component.noConfusion⟩

/-! ### The text of a path -/

theorem slashed_of_notMem {text : String} (h : '\\' ∉ text.toList) : slashed text = text := by
  apply String.toList_inj.mp
  rw [slashed, String.toList_ofList]
  refine (List.map_congr_left fun c hc => ?_).trans (List.map_id _)
  have hne : c ≠ '\\' := by
    rintro rfl
    exact h hc
  rw [if_neg hne]
  rfl

theorem mem_join {sep : String} {parts : List String} {c : Char}
    (h : c ∈ (Text.join sep parts).toList) : c ∈ sep.toList ∨ ∃ part ∈ parts, c ∈ part.toList := by
  induction parts with
  | nil => cases h
  | cons part parts ih =>
    by_cases hparts : parts = []
    · subst hparts
      exact .inr ⟨part, List.mem_cons_self, h⟩
    rw [Text.join_cons hparts, String.toList_append, String.toList_append] at h
    rcases List.mem_append.mp h with h | h
    · rcases List.mem_append.mp h with h | h
      · exact .inr ⟨part, List.mem_cons_self, h⟩
      · exact .inl h
    · rcases ih h with hsep | ⟨other, hmem, hc⟩
      · exact .inl hsep
      · exact .inr ⟨other, List.mem_cons_of_mem _ hmem, hc⟩

theorem mem_writtenPieces {name : String} (hplain : PlainlyWritten path)
    (hname : name ∈ writtenPieces path) : name.toList <:+: path.toList ∧ '/' ∉ name.toList := by
  rw [writtenPieces_eq hplain] at hname
  obtain ⟨piece, hpiece, rfl⟩ := List.mem_map.mp hname
  rw [String.toList_ofList]
  have hmem := List.dropWhile_subset _ hpiece
  exact ⟨Text.infix_of_mem_splitOn hmem, not_mem_of_mem_splitOn hmem⟩

/-- **Paths with one text** have the same names. -/
theorem writtenPieces_inj {path' : String} (hplain : PlainlyWritten path)
    (hplain' : PlainlyWritten path') (hback : '\\' ∉ path.toList) (hback' : '\\' ∉ path'.toList)
    (h : workspaceRelative path = workspaceRelative path') :
    writtenPieces path = writtenPieces path' := by
  have htext : ∀ {path : String}, PlainlyWritten path → '\\' ∉ path.toList →
      workspaceRelative path = Text.join "/" (writtenPieces path) := by
    intro path hplain hback
    refine slashed_of_notMem fun hmem => ?_
    rcases mem_join hmem with hsep | ⟨name, hname, hc⟩
    · exact absurd hsep (by decide +kernel)
    · exact hback ((mem_writtenPieces hplain hname).1.subset hc)
  have hsplit : ∀ {path : String}, PlainlyWritten path →
      (Text.join "/" (writtenPieces path)).toList.splitOn '/' =
        (writtenPieces path).map String.toList := by
    intro path hplain
    rw [Text.toList_join]
    refine List.splitOn_intercalate '/' ?_ ?_
    · intro piece hpiece
      obtain ⟨name, hname, rfl⟩ := List.mem_map.mp hpiece
      exact (mem_writtenPieces hplain hname).2
    · exact fun hnil => writtenPieces_ne_nil hplain (List.map_eq_nil_iff.mp hnil)
  rw [htext hplain hback, htext hplain' hback'] at h
  have hnames := hsplit hplain
  rw [h, hsplit hplain'] at hnames
  exact (List.map_injective_iff.mpr (fun _ _ => String.toList_inj.mp) hnames).symm

end Vexcoder.Tools
