import Vexcoder.Lib.BoundedTop
import Vexcoder.Task.Listing

/-!
# The newest state files

The scan of the search directories keeps at most `cap` files while it goes on: of every id a newest
copy, and no id that it leaves out has a newer one.
-/

namespace Vexcoder.Task

open Lib.BoundedTop

variable {cap : ℕ} {seen selected : List TaskStateFile} {file : TaskStateFile}

/-- Of every id a newest file among those visited, as many as there is room for. -/
abbrev NewestFiles (cap : ℕ) (visited files : List TaskStateFile) : Prop :=
  TopOf TaskStateFile.id TaskStateFile.modifiedMillis cap visited files

theorem mem_replaceOlder {existing : TaskStateFile} (h : existing ∈ replaceOlder file selected)
    (hdistinct : (selected.map TaskStateFile.id).Nodup) :
    (existing ∈ selected ∧ (existing.id = file.id → file.modifiedMillis ≤ existing.modifiedMillis)) ∨
      (existing = file ∧ ∀ other ∈ selected, other.id = file.id →
        other.modifiedMillis ≤ file.modifiedMillis) := by
  induction selected with
  | nil => cases h
  | cons first rest ih =>
    obtain ⟨hfirst, hrest⟩ := List.nodup_cons.mp hdistinct
    rw [replaceOlder] at h
    by_cases hid : first.id = file.id
    · have hother : ∀ other ∈ rest, other.id ≠ file.id := fun other hother heq =>
        hfirst (hid ▸ heq ▸ List.mem_map_of_mem hother)
      rw [if_pos hid] at h
      rcases List.mem_cons.mp h with heq | h
      · by_cases hnewer : file.modifiedMillis > first.modifiedMillis
        · rw [if_pos hnewer] at heq
          refine Or.inr ⟨heq, fun other hmem hsame => ?_⟩
          rcases List.mem_cons.mp hmem with rfl | hmem
          · exact Nat.le_of_lt hnewer
          · exact absurd hsame (hother other hmem)
        · rw [if_neg hnewer] at heq
          exact Or.inl ⟨heq ▸ List.mem_cons_self, fun _ => heq ▸ Nat.le_of_not_lt hnewer⟩
      · exact Or.inl ⟨List.mem_cons_of_mem _ h, fun hsame => absurd hsame (hother existing h)⟩
    · rw [if_neg hid] at h
      rcases List.mem_cons.mp h with rfl | h
      · exact Or.inl ⟨List.mem_cons_self, fun hsame => absurd hsame hid⟩
      rcases ih h hrest with ⟨hmem, hle⟩ | ⟨heq, hle⟩
      · exact Or.inl ⟨List.mem_cons_of_mem _ hmem, hle⟩
      · refine Or.inr ⟨heq, fun other hmem hsame => ?_⟩
        rcases List.mem_cons.mp hmem with rfl | hmem
        · exact absurd hsame hid
        · exact hle other hmem hsame

theorem map_id_replaceOlder (file : TaskStateFile) (selected : List TaskStateFile) :
    (replaceOlder file selected).map TaskStateFile.id = selected.map TaskStateFile.id := by
  induction selected with
  | nil => rfl
  | cons first rest ih =>
    rw [replaceOlder]
    by_cases hid : first.id = file.id
    · rw [if_pos hid, List.map_cons, List.map_cons]
      split
      · rw [hid]
      · rfl
    · rw [if_neg hid, List.map_cons, List.map_cons, ih]

theorem exists_le_of_mem_replaceOlder {existing : TaskStateFile} (h : existing ∈ replaceOlder file selected) :
    ∃ other ∈ selected, other.modifiedMillis ≤ existing.modifiedMillis := by
  induction selected with
  | nil => cases h
  | cons first rest ih =>
    rw [replaceOlder] at h
    by_cases hid : first.id = file.id
    · rw [if_pos hid] at h
      rcases List.mem_cons.mp h with rfl | h
      · refine ⟨first, List.mem_cons_self, ?_⟩
        split
        · rename_i hnewer
          exact Nat.le_of_lt hnewer
        · exact Nat.le_refl _
      · exact ⟨existing, List.mem_cons_of_mem _ h, Nat.le_refl _⟩
    · rw [if_neg hid] at h
      rcases List.mem_cons.mp h with rfl | h
      · exact ⟨existing, List.mem_cons_self, Nat.le_refl _⟩
      · obtain ⟨other, hother, hle⟩ := ih h
        exact ⟨other, List.mem_cons_of_mem _ hother, hle⟩

/-- The file takes the place of the first of the oldest ones. -/
theorem set_findIdx_oldest {oldest : ℕ}
    (h : (selected.map TaskStateFile.modifiedMillis).min? = some oldest) (file : TaskStateFile) :
    ∃ front existing rest, selected = front ++ existing :: rest ∧
      existing.modifiedMillis = oldest ∧
      selected.set (selected.findIdx fun existing => existing.modifiedMillis = oldest) file =
        front ++ file :: rest := by
  obtain ⟨existing, hexisting, heq⟩ := List.mem_map.mp (List.min?_mem h)
  have hlt : (selected.findIdx fun existing => existing.modifiedMillis = oldest) <
      selected.length :=
    List.findIdx_lt_length_of_exists ⟨existing, hexisting, decide_eq_true heq⟩
  generalize hi : (selected.findIdx fun existing => existing.modifiedMillis = oldest) = i at hlt ⊢
  have holdest : (selected[i]).modifiedMillis = oldest := by
    subst hi
    exact of_decide_eq_true (List.findIdx_getElem (w := hlt))
  refine ⟨selected.take i, selected[i], selected.drop (i + 1), ?_, holdest, ?_⟩
  · rw [← List.drop_eq_getElem_cons hlt, List.take_append_drop]
  · rw [List.set_eq_take_append_cons_drop, if_pos hlt]

/-- **One more file** keeps the selection that of the newest files. -/
theorem newestFiles_insert (h : NewestFiles cap seen selected) (file : TaskStateFile) :
    NewestFiles cap (file :: seen) (insertBoundedStateFile cap selected file) := by
  rw [insertBoundedStateFile]
  by_cases hcap : cap = 0
  · subst hcap
    have hnil : selected = [] := List.eq_nil_of_length_eq_zero (Nat.le_zero.mp h.length_le)
    rw [hnil]
    exact topOf_zero _
  · rw [if_neg hcap]
    by_cases hid : (selected.any fun existing => existing.id = file.id) = true
    · have hkey : file.id ∈ selected.map TaskStateFile.id := by
        obtain ⟨existing, hexisting, heq⟩ := List.any_eq_true.mp hid
        exact of_decide_eq_true heq ▸ List.mem_map_of_mem hexisting
      rw [if_pos hid]
      exact h.update hkey (map_id_replaceOlder file selected)
        (fun _ hmem => mem_replaceOlder hmem h.distinct)
        fun _ hmem => exists_le_of_mem_replaceOlder hmem
    · have hkey : file.id ∉ selected.map TaskStateFile.id := by
        intro hmem
        obtain ⟨existing, hexisting, heq⟩ := List.mem_map.mp hmem
        exact hid (List.any_eq_true.mpr ⟨existing, hexisting, decide_eq_true heq⟩)
      rw [if_neg hid]
      by_cases hroom : selected.length < cap
      · rw [if_pos hroom]
        exact h.push hkey hroom
      rw [if_neg hroom]
      cases holdest : (selected.map TaskStateFile.modifiedMillis).min? with
      | none =>
        have hnil := List.map_eq_nil_iff.mp (List.min?_eq_none_iff.mp holdest)
        subst hnil
        exact absurd (Nat.pos_of_ne_zero hcap) hroom
      | some oldest =>
        have hle : ∀ existing ∈ selected, oldest ≤ existing.modifiedMillis := fun existing hmem =>
          (List.min?_eq_some_iff.mp holdest).2 _ (List.mem_map_of_mem hmem)
        by_cases hnewer : file.modifiedMillis > oldest
        · obtain ⟨front, existing, rest, rfl, rfl, hset⟩ := set_findIdx_oldest holdest file
          dsimp only
          rw [if_pos hnewer, hset]
          exact h.replace hkey hroom hle hnewer
        · dsimp only
          rw [if_neg hnewer]
          exact h.ignore hkey hroom fun existing hmem =>
            Nat.le_trans (Nat.le_of_not_lt hnewer) (hle existing hmem)

theorem NewestFiles.of_visited {visited : List TaskStateFile} (h : NewestFiles cap seen selected)
    (hmem : ∀ file, file ∈ seen ↔ file ∈ visited) : NewestFiles cap visited selected where
  distinct := h.distinct
  newest := fun file hfile =>
    ⟨(hmem file).mp (h.newest file hfile).1, fun other hother =>
      (h.newest file hfile).2 other ((hmem other).mpr hother)⟩
  leftOut := fun file hfile => h.leftOut file ((hmem file).mpr hfile)
  size := by
    have hkeys : (seen.map TaskStateFile.id).toFinset = (visited.map TaskStateFile.id).toFinset := by
      ext id
      simp only [List.mem_toFinset, List.mem_map, hmem]
    rw [← hkeys]
    exact h.size

theorem newestFiles_foldl (h : NewestFiles cap seen selected) (visited : List TaskStateFile) :
    NewestFiles cap (visited.reverse ++ seen) (visited.foldl (insertBoundedStateFile cap) selected) := by
  induction visited generalizing seen selected with
  | nil => exact h
  | cons file visited ih =>
    rw [List.reverse_cons, List.append_assoc]
    exact ih (newestFiles_insert h file)

theorem listedFiles_newest (cap : ℕ) (visited : List TaskStateFile) :
    NewestFiles cap visited (listedFiles cap visited) := by
  have hfold : NewestFiles cap (visited.reverse ++ [])
      (visited.foldl (insertBoundedStateFile cap) []) := newestFiles_foldl topOf_nil visited
  refine TopOf.perm (hfold.of_visited fun file => ?_) (List.perm_insertionSort _ _)
  rw [List.append_nil, List.mem_reverse]

theorem listedFiles_sorted (cap : ℕ) (visited : List TaskStateFile) :
    (listedFiles cap visited).Pairwise fun file file' =>
      file'.modifiedMillis ≤ file.modifiedMillis := by
  exact List.pairwise_insertionSort _ _

/-- **The listing** has, from the newest to the oldest, the newest copies of as many ids as it may. -/
theorem stateFiles_top (disk : Disk) (dirs : List String) (cap : ℕ) :
    NewestFiles cap (visitedFiles disk dirs) (scannedFiles disk dirs cap) ∧
      (scannedFiles disk dirs cap).Pairwise fun file file' =>
        file'.modifiedMillis ≤ file.modifiedMillis :=
  ⟨listedFiles_newest cap _, listedFiles_sorted cap _⟩

/-- The scan returns the newest copies of as many ids as it may, from the newest to the oldest. -/
def ScansNewest (disk : Disk) (dirs : List String) (cap : ℕ) : Prop :=
  ∃ files, stateFilesFromWithLimit disk dirs cap = some files ∧
    NewestFiles cap (visitedFiles disk dirs) files ∧
      files.Pairwise fun file file' => file'.modifiedMillis ≤ file.modifiedMillis

/-- **The scan is right** exactly when room for the files can be asked for. -/
theorem scansNewest_iff (disk : Disk) (dirs : List String) (cap : ℕ) :
    ScansNewest disk dirs cap ↔ cap * taskStateFileSize ≤ isizeMax := by
  show _ ↔ HasCapacity cap
  rw [ScansNewest, stateFilesFromWithLimit]
  constructor
  · rintro ⟨files, hfiles, -⟩
    by_contra hcap
    rw [if_neg hcap] at hfiles
    cases hfiles
  · intro hcap
    exact ⟨_, if_pos hcap, stateFiles_top disk dirs cap⟩

/-- A limit that `VEX_MAX_STARTUP_TASK_SCANS` may set, and no scan returns. -/
theorem huge_cap_panics : ¬ ScansNewest ⟨fun _ => [], fun _ => none⟩ ["s"] (2 ^ 57) := by
  rintro ⟨files, hfiles, -⟩
  rw [stateFilesFromWithLimit, if_neg (by decide)] at hfiles
  cases hfiles

end Vexcoder.Task
