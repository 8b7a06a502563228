import Vexcoder.Tools.IndexPaths

/-!
# Test paths and the names they resolve to

The check of test paths looks at the text of a path, the tools at the names in it.  A path that passes the
check still passes it when dots and empty pieces are left out (`isTest_names`), so a path that names what
is no test is not let through.
-/

namespace Vexcoder.Tools

open Base
open Conversation (isTestTargetPath)

/-! ### What the check looks for -/

def testSegments : List String := ["test", "tests", "__tests__"]

def testNames : List String := ["test.rs", "tests.rs"]

def testStarts : List String := ["test_", "spec_"]

def testInfixes : List String := [".test.", ".spec."]

def testEnds : List String :=
  ["_test.rs", "_tests.rs", "_test.py", "_test.go", "_test.js", "_test.jsx", "_test.ts", "_test.tsx",
    "_spec.rb"]

def TestName (name : List Char) : Prop :=
  String.ofList name ∈ testNames ∨ (∃ pat ∈ testStarts, pat.toList <+: name) ∨
    (∃ pat ∈ testInfixes, pat.toList <:+: name) ∨ ∃ pat ∈ testEnds, pat.toList <:+ name

instance (name : List Char) : Decidable (TestName name) := inferInstanceAs (Decidable (_ ∨ _ ∨ _ ∨ _))

/-- One of the pieces is the name of a test directory, or the last one is that of a test. -/
def TestPieces (pieces : List (List Char)) : Prop :=
  (∃ piece ∈ pieces, String.ofList piece ∈ testSegments) ∨ TestName (pieces.getLastD [])

instance (pieces : List (List Char)) : Decidable (TestPieces pieces) :=
  inferInstanceAs (Decidable (_ ∨ TestName _))

theorem contains_iff {text pat : String} : Text.contains text pat = true ↔ pat.toList <:+: text.toList := by
  rw [Text.contains, Option.isSome_iff_ne_none, ne_eq, Lib.Search.find_eq_none_iff_not_inside, not_not]

theorem isTestTargetPath_iff {path : String} (hback : '\\' ∉ path.toList) :
    isTestTargetPath path = true ↔ TestPieces (splitOn '/' (toAsciiLowercase (trim path.toList))) := by
  have hslash : ((trim path.toList).map fun c => if c = '\\' then '/' else c) = trim path.toList := by
    refine (List.map_congr_left fun c hc => if_neg ?_).trans (List.map_id _)
    rintro rfl
    exact hback (List.dropWhile_subset _ ((List.rdropWhile_prefix _ _).subset hc))
  rw [isTestTargetPath, hslash]
  simp only [Text.toAsciiLowercase, String.toList_ofList]
  generalize toAsciiLowercase (trim path.toList) = text
  by_cases hempty : text = []
  · subst hempty
    exact iff_of_false (by decide +kernel) (by decide +kernel)
  have hlast : ((splitOn '/' text).map String.ofList).getLastD (String.ofList text) =
      String.ofList ((splitOn '/' text).getLastD []) := by
    rw [← List.dropLast_append_getLast (splitOn_ne_nil '/' text)]
    simp
  rw [Text.isEmpty, if_neg (by simpa using hempty), hlast, TestPieces]
  simp only [Bool.or_eq_true, List.any_eq_true, decide_eq_true_eq, contains_iff, Text.startsWith,
    Text.endsWith, List.isPrefixOf_iff_prefix, List.isSuffixOf_iff_suffix, String.toList_ofList,
    List.mem_map, exists_exists_and_eq_and, or_assoc]
  rfl

/-! ### Blanks around a path -/

variable {c : Char} {name p piece s : List Char}

def Unblank (pat : List Char) : Prop := pat ≠ [] ∧ ∀ c ∈ pat, isWhitespace c = false

instance (pat : List Char) : Decidable (Unblank pat) :=
  have := List.decidableBAll (fun c => isWhitespace c = false) pat
  inferInstanceAs (Decidable (_ ∧ _))

theorem unblank_pats : (∀ pat ∈ testSegments, Unblank pat.toList) ∧ (∀ pat ∈ testNames, Unblank pat.toList) ∧
    (∀ pat ∈ testStarts, Unblank pat.toList) ∧ (∀ pat ∈ testInfixes, Unblank pat.toList) ∧
      ∀ pat ∈ testEnds, Unblank pat.toList := by
  decide +kernel

theorem Unblank.not_mem (hp : Unblank p) (hc : isWhitespace c = true) : c ∉ p := by
  intro hmem
  rw [hp.2 c hmem] at hc
  cases hc

theorem not_prefix_blank (hp : Unblank p) (hc : isWhitespace c = true) : ¬ p <+: c :: s := by
  intro hpre
  obtain ⟨d, rest, rfl⟩ := List.exists_cons_of_ne_nil hp.1
  obtain ⟨rfl, -⟩ := List.cons_prefix_cons.mp hpre
  exact hp.not_mem hc List.mem_cons_self

theorem mem_concat : c ∈ s ++ [c] := List.mem_append_right _ (List.mem_singleton_self c)

theorem not_suffix_blank (hp : Unblank p) (hc : isWhitespace c = true) : ¬ p <:+ s ++ [c] := by
  rintro ⟨front, heq⟩
  rcases List.eq_nil_or_concat' p with rfl | ⟨init, d, rfl⟩
  · exact hp.1 rfl
  · rw [← List.append_assoc] at heq
    obtain ⟨-, rfl⟩ := List.append_singleton_inj.mp heq
    exact hp.not_mem hc mem_concat

theorem eq_of_ofList_mem {pats : List String} (h : String.ofList name ∈ pats) :
    ∃ pat ∈ pats, pat.toList = name := ⟨_, h, String.toList_ofList⟩

theorem testName_cons (hc : isWhitespace c = true) (h : TestName (c :: name)) : TestName name := by
  obtain ⟨-, hnames, hstarts, hinfixes, hends⟩ := unblank_pats
  rcases h with h | ⟨pat, hpat, hpre⟩ | ⟨pat, hpat, hin⟩ | ⟨pat, hpat, hsuf⟩
  · obtain ⟨pat, hpat, heq⟩ := eq_of_ofList_mem h
    exact absurd (heq ▸ List.mem_cons_self) ((hnames pat hpat).not_mem hc)
  · exact absurd hpre (not_prefix_blank (hstarts pat hpat) hc)
  · refine .inr (.inr (.inl ⟨pat, hpat, ?_⟩))
    exact (List.infix_cons_iff.mp hin).resolve_left (not_prefix_blank (hinfixes pat hpat) hc)
  · refine .inr (.inr (.inr ⟨pat, hpat, ?_⟩))
    exact (List.suffix_cons_iff.mp hsuf).resolve_left fun heq =>
      (hends pat hpat).not_mem hc (heq ▸ List.mem_cons_self)

theorem testName_concat (hc : isWhitespace c = true) (h : TestName (name ++ [c])) : TestName name := by
  obtain ⟨-, hnames, hstarts, hinfixes, hends⟩ := unblank_pats
  rcases h with h | ⟨pat, hpat, hpre⟩ | ⟨pat, hpat, hin⟩ | ⟨pat, hpat, hsuf⟩
  · obtain ⟨pat, hpat, heq⟩ := eq_of_ofList_mem h
    exact absurd (heq ▸ mem_concat) ((hnames pat hpat).not_mem hc)
  · refine .inr (.inl ⟨pat, hpat, (List.prefix_concat_iff.mp hpre).resolve_left fun heq => ?_⟩)
    exact (hstarts pat hpat).not_mem hc (heq ▸ mem_concat)
  · refine .inr (.inr (.inl ⟨pat, hpat, ?_⟩))
    exact (List.infix_concat_iff.mp hin).resolve_left (not_suffix_blank (hinfixes pat hpat) hc)
  · exact absurd hsuf (not_suffix_blank (hends pat hpat) hc)

theorem testSegment_unblank (h : String.ofList piece ∈ testSegments) : Unblank piece := by
  obtain ⟨pat, hpat, rfl⟩ := eq_of_ofList_mem h
  exact unblank_pats.1 pat hpat

theorem ne_slash_of_blank (hc : isWhitespace c = true) : c ≠ '/' := by
  rintro rfl
  exact absurd hc (by decide)

theorem testPieces_cons (hc : isWhitespace c = true) (h : TestPieces (splitOn '/' (c :: s))) :
    TestPieces (splitOn '/' s) := by
  rw [splitOn_cons_of_ne (ne_slash_of_blank hc)] at h
  obtain ⟨first, rest, hpieces⟩ := List.exists_cons_of_ne_nil (splitOn_ne_nil '/' s)
  rw [hpieces] at h
  rw [hpieces]
  rcases h with ⟨piece, hmem, htest⟩ | hname
  · refine .inl ⟨piece, ?_, htest⟩
    rcases List.mem_cons.mp hmem with rfl | hmem
    · exact absurd List.mem_cons_self ((testSegment_unblank htest).not_mem hc)
    · exact List.mem_cons_of_mem _ hmem
  · right
    cases rest with
    | nil => exact testName_cons hc hname
    | cons next rest => exact hname

theorem splitOn_concat (hc : c ≠ '/') (s : List Char) : ∃ front last, splitOn '/' s = front ++ [last] ∧
    splitOn '/' (s ++ [c]) = front ++ [last ++ [c]] := by
  induction s with
  | nil => exact ⟨[], [], rfl, by rw [List.nil_append, splitOn_cons_of_ne hc]; rfl⟩
  | cons d s ih =>
    obtain ⟨front, last, hold, hnew⟩ := ih
    by_cases hd : d = '/'
    · exact ⟨[] :: front, last, by rw [splitOn, if_pos hd, hold]; rfl,
        by rw [List.cons_append, splitOn, if_pos hd, hnew]; rfl⟩
    · rw [List.cons_append, splitOn_cons_of_ne hd, splitOn_cons_of_ne hd, hold, hnew]
      cases front with
      | nil => exact ⟨[], d :: last, rfl, rfl⟩
      | cons first front => exact ⟨(d :: first) :: front, last, rfl, rfl⟩

theorem testPieces_concat (hc : isWhitespace c = true) (h : TestPieces (splitOn '/' (s ++ [c]))) :
    TestPieces (splitOn '/' s) := by
  obtain ⟨front, last, hold, hnew⟩ := splitOn_concat (ne_slash_of_blank hc) s
  rw [hnew] at h
  rw [hold]
  rcases h with ⟨piece, hmem, htest⟩ | hname
  · refine .inl ⟨piece, ?_, htest⟩
    rcases List.mem_append.mp hmem with hmem | hmem
    · exact List.mem_append_left _ hmem
    · rw [List.mem_singleton.mp hmem] at htest
      exact absurd mem_concat ((testSegment_unblank htest).not_mem hc)
  · rw [List.getLastD_concat] at hname
    exact .inr (by rw [List.getLastD_concat]; exact testName_concat hc hname)

theorem testPieces_trim (h : TestPieces (splitOn '/' s)) : TestPieces (splitOn '/' (trim s)) := by
  have hstart : TestPieces (splitOn '/' (trimStart s)) := by
    induction s with
    | nil => exact h
    | cons c s ih =>
      rw [trimStart, List.dropWhile_cons]
      split
      · rename_i hc
        exact ih (testPieces_cons hc h)
      · exact h
  rw [trim]
  generalize trimStart s = s at hstart
  show TestPieces (splitOn '/' (s.rdropWhile isWhitespace))
  induction s using List.reverseRecOn with
  | nil => exact hstart
  | append_singleton s c ih =>
    by_cases hc : isWhitespace c = true
    · rw [List.rdropWhile_concat_pos _ _ _ hc]
      exact ih (testPieces_concat hc hstart)
    · rwa [List.rdropWhile_concat_neg _ _ _ hc]

/-! ### The names of a path -/

theorem isWhitespace_toLower (c : Char) : isWhitespace c.toLower = isWhitespace c := by
  rcases toLower_cases c with heq | ⟨hlow, hhigh, hval⟩
  · rw [heq]
  · simp only [isWhitespace, hval]
    rw [Bool.eq_iff_iff]
    simp only [Bool.or_eq_true, Bool.and_eq_true, decide_eq_true_eq, beq_iff_eq]
    omega

theorem trim_toAsciiLowercase (s : List Char) : trim (toAsciiLowercase s) = toAsciiLowercase (trim s) := by
  have hsame : isWhitespace ∘ Char.toLower = isWhitespace := funext isWhitespace_toLower
  rw [trim, trim, trimEnd, trimEnd, trimStart, trimStart, toAsciiLowercase, toAsciiLowercase,
    List.dropWhile_map, ← List.map_reverse, List.dropWhile_map, hsame, ← List.map_reverse]

theorem toLower_eq_slash (h : c.toLower = '/') : c = '/' := by
  rcases toLower_cases c with heq | ⟨hlow, -, hval⟩
  · exact heq.symm.trans h
  · rw [h] at hval
    have hslash : '/'.toNat = 47 := rfl
    omega

theorem splitOn_toAsciiLowercase (s : List Char) :
    splitOn '/' (toAsciiLowercase s) = (splitOn '/' s).map toAsciiLowercase := by
  induction s with
  | nil => rfl
  | cons c s ih =>
    rw [toAsciiLowercase, List.map_cons]
    by_cases hc : c = '/'
    · subst hc
      exact congrArg _ ih
    · rw [splitOn_cons_of_ne fun h => hc (toLower_eq_slash h), splitOn_cons_of_ne hc]
      show (splitOn '/' (toAsciiLowercase s)).modifyHead _ = _
      rw [ih]
      cases splitOn '/' s with
      | nil | cons first rest => rfl

theorem testPieces_filter {pieces : List (List Char)} (h : TestPieces (pieces.map toAsciiLowercase)) :
    TestPieces ((pieces.filter fun piece => !isSkipped piece).map toAsciiLowercase) := by
  have hkept : ∀ piece : List Char, (String.ofList (toAsciiLowercase piece) ∈ testSegments ∨
      TestName (toAsciiLowercase piece)) → (!isSkipped piece) = true := by
    intro piece h
    by_contra hskip
    rw [Bool.not_eq_true, Bool.not_eq_false', isSkipped, Bool.or_eq_true, List.isEmpty_iff,
      decide_eq_true_eq] at hskip
    rcases hskip with rfl | rfl <;> exact absurd h (by decide +kernel)
  rcases h with ⟨_, hmem, htest⟩ | hname
  · obtain ⟨piece, hpiece, rfl⟩ := List.mem_map.mp hmem
    exact .inl ⟨_, List.mem_map_of_mem (List.mem_filter.mpr ⟨hpiece, hkept piece (.inl htest)⟩), htest⟩
  · right
    rcases List.eq_nil_or_concat' pieces with rfl | ⟨front, name, rfl⟩
    · exact hname
    · rw [List.map_append, List.map_singleton, List.getLastD_concat] at hname
      rw [List.filter_append, List.filter_singleton, hkept name (.inr hname), cond_true, List.map_append,
        List.map_singleton, List.getLastD_concat]
      exact hname

/-- **A test path stays one** when dots and empty pieces are left out of it. -/
theorem isTest_names {path : String} (htrim : Text.trim path = path) (hback : '\\' ∉ path.toList)
    (h : isTestTargetPath path = true) :
    pathNames path ≠ [] ∧ isTestTargetPath (Text.join "/" (pathNames path)) = true := by
  have htrim : trim path.toList = path.toList := by
    have heq := congrArg String.toList htrim
    rwa [Text.trim, String.toList_ofList] at heq
  rw [isTestTargetPath_iff hback, htrim, splitOn_toAsciiLowercase] at h
  have hkept := testPieces_filter h
  rw [pathNames]
  set kept := (splitOn '/' path.toList).filter fun piece => !isSkipped piece with hdef
  have hpiece : ∀ piece ∈ kept, piece <:+: path.toList ∧ '/' ∉ piece := by
    intro piece hmem
    have hmem := List.mem_of_mem_filter hmem
    exact ⟨Text.infix_of_mem_splitOn hmem, not_mem_of_mem_splitOn hmem⟩
  have hne : kept ≠ [] := by
    intro hnil
    rw [hnil] at hkept
    exact absurd hkept (by decide +kernel)
  refine ⟨fun hnil => hne (List.map_eq_nil_iff.mp hnil), ?_⟩
  have hid : (String.toList ∘ String.ofList) = id := funext fun _ => String.toList_ofList
  have hjoin : (Text.join "/" (kept.map String.ofList)).toList = ['/'].intercalate kept := by
    rw [Text.toList_join, List.map_map, hid, List.map_id]
    rfl
  have hnoback : '\\' ∉ (Text.join "/" (kept.map String.ofList)).toList := by
    intro hmem
    rcases mem_join hmem with hsep | ⟨_, hname, hc⟩
    · exact absurd hsep (by decide +kernel)
    · obtain ⟨piece, hmem, rfl⟩ := List.mem_map.mp hname
      rw [String.toList_ofList] at hc
      exact hback ((hpiece piece hmem).1.subset hc)
  rw [isTestTargetPath_iff hnoback, ← trim_toAsciiLowercase]
  refine testPieces_trim ?_
  rw [splitOn_toAsciiLowercase, hjoin, splitOn_eq, List.splitOn_intercalate '/' (fun p hp => (hpiece p hp).2) hne]
  exact hkept

end Vexcoder.Tools
