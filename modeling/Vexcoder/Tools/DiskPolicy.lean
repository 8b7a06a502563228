import Vexcoder.Base.Lines
import Vexcoder.Lib.LexicalPath
import Vexcoder.Tools.Paths

/-!
# The disk policy

`check_path` reads the text of a path: what stands behind its first `.vex/` decides.  Between the
separators of the text this is the name behind the first piece that ends in `.vex` (`verdict_pieces`),
whatever stands in front of it and whatever `.` and `..` behind it do.  So the strict policy and the
normalised path agree only on some paths, and `StrictAgrees` says which.
-/

namespace Vexcoder.Tools

open Base Lib
open Lib.Search

inductive DiskPermission where
  | searchIndex
  | taskStateMap
  | forbidden
  deriving DecidableEq

inductive DiskPolicyMode where
  | off
  | warn
  | strict

/-- The first item of `text.split(pat)`. -/
def firstPiece (pat text : List Char) : List Char :=
  match find pat text with
  | some i => text.take i
  | none => text

/-- `text.split(pat).nth(1)` -/
def secondPiece (pat text : List Char) : Option (List Char) :=
  (find pat text).map fun i => firstPiece pat (text.drop (i + pat.length))

/-- `lossy.replace('\\', "/")` -/
def withSlashes (path : List Char) : List Char := path.map fun c => if c = '\\' then '/' else c

def vexSlash : List Char := ['.', 'v', 'e', 'x', '/']

def classifyVexSubpath (path : String) : DiskPermission :=
  match secondPiece vexSlash (withSlashes path.toList) with
  | some afterVex =>
    if "index/".toList.isPrefixOf afterVex || afterVex = "index".toList then .searchIndex
    else if "state/".toList.isPrefixOf afterVex || afterVex = "state".toList then .taskStateMap
    else .forbidden
  | none => .forbidden

/-- A path is its text: where a path is no Unicode text, `to_string_lossy` puts the replacement
character for what is not, and no name that is looked for has one. -/
def checkPath (path : String) : DiskPermission :=
  if (components path).any (· == .normal ".vex") then classifyVexSubpath path
  else if Text.contains path ".vex\\" || Text.contains path ".vex/" then classifyVexSubpath path
  else .forbidden

/-- What `enforce` returns, with the line it prints. -/
structure Enforced where
  printed : Option String
  result : Except String DiskPermission

def enforce (path : String) (mode : DiskPolicyMode) : Enforced :=
  let permission := checkPath path
  if permission ≠ .forbidden then ⟨none, .ok permission⟩
  else
    let message := "forbidden disk access outside .vex/index or .vex/state: " ++ path
    match mode with
    | .off => ⟨none, .ok permission⟩
    | .warn => ⟨some ("[disk_policy] " ++ message), .ok permission⟩
    | .strict => ⟨none, .error message⟩

/-- The Strict policy lets the access through. -/
def strictAllows (path : String) : Bool := (enforce path .strict).result.isOk

example : checkPath "/repo/.vex/state/task-1.json" = .taskStateMap := by decide +kernel
example : checkPath ".vex\\index\\chunks.bin" = .searchIndex := by decide +kernel
example : checkPath ".vex/indexing.txt" = .forbidden := by decide +kernel

/-! ### What is to be admitted -/

/-- The pieces of a path between its separators, slashes and backslashes. -/
def pieces (path : String) : List (List Char) := splitOn '/' (withSlashes path.toList)

def pathStep (piece : List Char) : LexicalPath.Step String :=
  if piece = [] ∨ piece = ['.'] then .stay
  else if piece = ['.', '.'] then .up
  else .down (String.ofList piece)

def normalisedNames (path : String) : List String :=
  (LexicalPath.normalise [] ((pieces path).map pathStep)).reverse

/-- Under a `.vex/index` or `.vex/state` pair of components, or the pair itself. -/
def Durable (path : String) : Prop :=
  [".vex", "index"] <:+: normalisedNames path ∨ [".vex", "state"] <:+: normalisedNames path
  deriving Decidable

/-! ### The text of a path and its pieces -/

def vexName : List Char := ['.', 'v', 'e', 'x']

def endsInVex (piece : List Char) : Bool := vexName.isSuffixOf piece

/-- The piece behind the first one that ends in `.vex`, and those behind it. -/
def behindVex : List (List Char) → Option (List Char × List (List Char))
  | p :: q :: rest => if endsInVex p then some (q, rest) else behindVex (q :: rest)
  | _ => none

/-- The text of the pieces up to the next `.vex/`. -/
def uptoVex : List (List Char) → List Char
  | [] => []
  | [p] => p
  | p :: q :: rest =>
    if endsInVex p then p.take (p.length - vexName.length) else p ++ '/' :: uptoVex (q :: rest)

theorem prefix_of_piece {word x y : List Char} {sep : Char} (hword : sep ∉ word) (hx : sep ∉ x) :
    word ++ [sep] <+: x ++ sep :: y ↔ x = word := by
  constructor
  · rintro ⟨r, hr⟩
    rw [List.append_assoc] at hr
    rcases List.append_eq_append_iff.mp hr with ⟨m, rfl, hm⟩ | ⟨m, rfl, hm⟩
    · cases m with
      | nil => exact List.append_nil word
      | cons b m =>
        obtain ⟨rfl, -⟩ := List.cons.inj hm
        exact absurd (List.mem_append_right word List.mem_cons_self) hx
    · cases m with
      | nil => exact (List.append_nil x).symm
      | cons b m =>
        obtain ⟨rfl, -⟩ := List.cons.inj hm
        exact absurd (List.mem_append_right x List.mem_cons_self) hword
  · rintro rfl
    exact ⟨y, by simp⟩

theorem find_piece {p y : List Char} (hp : '/' ∉ p) :
    find vexSlash (p ++ '/' :: y) =
      if endsInVex p then some (p.length - vexName.length)
      else (find vexSlash y).map (· + (p.length + 1)) := by
  have hdrop : ∀ i, '/' ∉ p.drop i := fun i hmem => hp (List.mem_of_mem_drop hmem)
  have hoccurs : ∀ i ≤ p.length, vexSlash <+: (p ++ '/' :: y).drop i ↔ p.drop i = vexName := by
    intro i hi
    rw [List.drop_append_of_le_length hi]
    have hname : '/' ∉ vexName := by decide
    exact prefix_of_piece hname (hdrop i)
  split
  · rename_i hends
    have hsuffix : p.drop (p.length - vexName.length) = vexName :=
      (List.suffix_iff_eq_drop.mp (List.isSuffixOf_iff_suffix.mp hends)).symm
    refine (find_eq_some_iff _ _ _).mpr ⟨?_, (hoccurs _ (Nat.sub_le _ _)).mpr hsuffix, ?_⟩
    · rw [List.length_append]
      omega
    · intro j hj hpre
      have hlen := congrArg List.length ((hoccurs j (by omega)).mp hpre)
      rw [List.length_drop] at hlen
      omega
  · rename_i hends
    rw [show p ++ '/' :: y = (p ++ ['/']) ++ y by simp]
    rw [find_append_right]
    · rw [List.length_append, List.length_singleton]
    · intro i hi hpre
      rw [List.length_append, List.length_singleton] at hi
      refine hends (List.isSuffixOf_iff_suffix.mpr ?_)
      have hle : i ≤ p.length := by omega
      rw [← List.drop_append_of_le_length (by simp; omega),
        show (p ++ ['/']) ++ y = p ++ '/' :: y by simp] at hpre
      exact ⟨p.take i, by rw [← (hoccurs i hle).mp hpre, List.take_append_drop]⟩

theorem find_lastPiece {p : List Char} (hp : '/' ∉ p) : find vexSlash p = none := by
  rw [find_eq_none_iff_not_inside]
  intro hinside
  exact hp (hinside.subset (by decide))

theorem slashed_cons (p q : List Char) (rest : List (List Char)) :
    ['/'].intercalate (p :: q :: rest) = p ++ '/' :: ['/'].intercalate (q :: rest) := by
  rfl

variable {P : List (List Char)} {piece : List Char} (path : String)

theorem firstPiece_slashed (hP : ∀ p ∈ P, '/' ∉ p) :
    firstPiece vexSlash (['/'].intercalate P) = uptoVex P := by
  induction P with
  | nil => rfl
  | cons p P ih =>
    have hp := hP p List.mem_cons_self
    cases P with
    | nil =>
      rw [List.intercalate_singleton, firstPiece, find_lastPiece hp]
      rfl
    | cons q rest =>
      specialize ih fun p hp => hP p (List.mem_cons_of_mem _ hp)
      rw [firstPiece] at ih
      rw [slashed_cons, firstPiece, find_piece hp, uptoVex, ← ih]
      by_cases hends : endsInVex p = true
      · rw [if_pos hends, if_pos hends]
        exact List.take_append_of_le_length (Nat.sub_le _ _)
      rw [if_neg hends, if_neg hends]
      cases find vexSlash (['/'].intercalate (q :: rest)) with
      | none => rfl
      | some j =>
        show (p ++ '/' :: ['/'].intercalate (q :: rest)).take (j + (p.length + 1)) = _
        rw [show j + (p.length + 1) = p.length + (j + 1) by omega, List.take_length_add_append]
        rfl

theorem secondPiece_slashed (hP : ∀ p ∈ P, '/' ∉ p) :
    secondPiece vexSlash (['/'].intercalate P) = (behindVex P).map fun (q, rest) => uptoVex (q :: rest) := by
  induction P with
  | nil => rfl
  | cons p P ih =>
    have hp := hP p List.mem_cons_self
    have hrest : ∀ p ∈ P, '/' ∉ p := fun p hp => hP p (List.mem_cons_of_mem _ hp)
    cases P with
    | nil =>
      rw [List.intercalate_singleton, secondPiece, find_lastPiece hp]
      rfl
    | cons q rest =>
      rw [slashed_cons, secondPiece, find_piece hp, behindVex]
      split
      · rename_i hends
        have hlong : vexName.length ≤ p.length :=
          (List.isSuffixOf_iff_suffix.mp hends).length_le
        have hbehind : (p ++ '/' :: ['/'].intercalate (q :: rest)).drop
            (p.length - vexName.length + vexSlash.length) = ['/'].intercalate (q :: rest) := by
          have hlen : p.length - vexName.length + vexSlash.length = p.length + 1 := by
            simp only [vexName, vexSlash, List.length_cons, List.length_nil] at hlong ⊢
            omega
          rw [hlen, List.drop_length_add_append]
          rfl
        rw [Option.map_some, hbehind, firstPiece_slashed hrest]
        rfl
      · specialize ih hrest
        rw [← ih, Option.map_map]
        congr 1
        funext i
        have hbehind : (p ++ '/' :: ['/'].intercalate (q :: rest)).drop
            (i + (p.length + 1) + vexSlash.length) =
              (['/'].intercalate (q :: rest)).drop (i + vexSlash.length) := by
          rw [show i + (p.length + 1) + vexSlash.length = p.length + (i + vexSlash.length + 1) by
            omega, List.drop_length_add_append]
          rfl
        rw [Function.comp_apply, hbehind]

/-- What is read of the piece behind `.vex`: the store's name, or the name with `.vex` at its end, which
the second split takes off when more stands behind it. -/
def Names (name piece : List Char) (rest : List (List Char)) : Prop :=
  piece = name ∨ (piece = name ++ vexName ∧ rest ≠ [])

instance (name piece : List Char) (rest : List (List Char)) : Decidable (Names name piece rest) :=
  inferInstanceAs (Decidable (_ ∨ _))

theorem starts_uptoVex_iff {name : List Char} {rest : List (List Char)} (hname : '/' ∉ name)
    (hvex : endsInVex name = false) (hpiece : '/' ∉ piece) :
    (name ++ ['/'] <+: uptoVex (piece :: rest) ∨ uptoVex (piece :: rest) = name) ↔
      Names name piece rest := by
  cases rest with
  | nil =>
    have hnot : ¬ name ++ ['/'] <+: piece := fun h => hpiece (h.subset (by simp))
    simp [uptoVex, Names, hnot]
  | cons q rest =>
    rw [uptoVex]
    split
    · rename_i hends
      obtain ⟨stem, rfl⟩ := List.isSuffixOf_iff_suffix.mp hends
      have hnot : ¬ name ++ ['/'] <+: stem :=
        fun h => hpiece (List.mem_append_left _ (h.subset (by simp)))
      have hne : stem ++ vexName ≠ name := by
        rintro rfl
        rw [hends] at hvex
        cases hvex
      simp [Names, hnot, hne]
    · rename_i hends
      have hne : piece ≠ name ++ vexName := by
        rintro rfl
        exact hends (List.isSuffixOf_iff_suffix.mpr (List.suffix_append _ _))
      have hslash : piece ++ '/' :: uptoVex (q :: rest) ≠ name := by
        rintro rfl
        exact hname (by simp)
      simp [prefix_of_piece hname hpiece, Names, hne, hslash]

theorem pieces_eq_split :
    withSlashes path.toList = ['/'].intercalate (pieces path) ∧ ∀ p ∈ pieces path, '/' ∉ p := by
  refine ⟨?_, fun p hp => not_mem_of_mem_splitOn hp⟩
  rw [pieces, splitOn_eq, List.intercalate_splitOn]

theorem mem_of_behindVex {rest : List (List Char)} (h : behindVex P = some (piece, rest)) : piece ∈ P := by
  induction P with
  | nil => cases h
  | cons p P ih =>
    cases P with
    | nil => cases h
    | cons q P =>
      rw [behindVex] at h
      split at h
      · cases h
        exact List.mem_cons_of_mem p List.mem_cons_self
      · exact List.mem_cons_of_mem p (ih h)

/-- The verdict on the piece behind `.vex`. -/
def verdict : Option (List Char × List (List Char)) → DiskPermission
  | some (piece, rest) =>
    if Names "index".toList piece rest then .searchIndex
    else if Names "state".toList piece rest then .taskStateMap
    else .forbidden
  | none => .forbidden

theorem classifyVexSubpath_pieces : classifyVexSubpath path = verdict (behindVex (pieces path)) := by
  obtain ⟨htext, hpieces⟩ := pieces_eq_split path
  rw [classifyVexSubpath, htext, secondPiece_slashed hpieces]
  cases hbehind : behindVex (pieces path) with
  | none => rfl
  | some found =>
    obtain ⟨piece, rest⟩ := found
    have hpiece : '/' ∉ piece := hpieces piece (mem_of_behindVex hbehind)
    have hreads : ∀ name : List Char, '/' ∉ name → endsInVex name = false →
        (((name ++ ['/']).isPrefixOf (uptoVex (piece :: rest)) ||
          uptoVex (piece :: rest) = name) = true ↔ Names name piece rest) := by
      intro name hname hvex
      rw [← starts_uptoVex_iff hname hvex hpiece, Bool.or_eq_true, List.isPrefixOf_iff_prefix,
        decide_eq_true_iff]
    have hindex := hreads "index".toList (by decide) (by decide)
    have hstate := hreads "state".toList (by decide) (by decide)
    exact if_congr hindex rfl (if_congr hstate rfl rfl)

theorem vex_of_withSlashes {path : List Char} (h : vexSlash <:+: withSlashes path) :
    vexName ++ ['\\'] <:+: path ∨ vexSlash <:+: path := by
  obtain ⟨u, v, huv⟩ := h
  obtain ⟨front, v', rfl, hfront, rfl⟩ := List.map_eq_append_iff.mp huv.symm
  obtain ⟨u', vex, rfl, rfl, hvex⟩ := List.map_eq_append_iff.mp hfront
  have hself : ∀ {c d : Char}, (if c = '\\' then '/' else c) = d → d ≠ '/' → c = d := by
    intro c d hc hd
    split at hc
    · exact absurd hc.symm hd
    · exact hc
  obtain ⟨a, vex, rfl, ha, hvex⟩ := List.map_eq_cons_iff.mp hvex
  obtain ⟨b, vex, rfl, hb, hvex⟩ := List.map_eq_cons_iff.mp hvex
  obtain ⟨c, vex, rfl, hc, hvex⟩ := List.map_eq_cons_iff.mp hvex
  obtain ⟨d, vex, rfl, hd, hvex⟩ := List.map_eq_cons_iff.mp hvex
  obtain ⟨e, vex, rfl, he, hvex⟩ := List.map_eq_cons_iff.mp hvex
  obtain rfl := List.map_eq_nil_iff.mp hvex
  obtain rfl := hself ha (by decide)
  obtain rfl := hself hb (by decide)
  obtain rfl := hself hc (by decide)
  obtain rfl := hself hd (by decide)
  split at he
  · rename_i hback
    exact .inl ⟨u', v', by rw [hback]; rfl⟩
  · exact .inr ⟨u', v', by rw [he]; rfl⟩

/-- The looks at the components and the text in front of it change nothing. -/
theorem checkPath_eq : checkPath path = verdict (behindVex (pieces path)) := by
  rw [← classifyVexSubpath_pieces, checkPath]
  split
  · rfl
  split
  · rfl
  rename_i hcontains
  rw [Bool.or_eq_true, Text.contains_iff, Text.contains_iff, not_or] at hcontains
  have hnone : find vexSlash (withSlashes path.toList) = none := by
    rw [find_eq_none_iff_not_inside]
    intro hinside
    rcases vex_of_withSlashes hinside with h | h
    · exact hcontains.1 h
    · exact hcontains.2 h
  rw [classifyVexSubpath, secondPiece, hnone]
  rfl

theorem strictAllows_iff : strictAllows path = true ↔ checkPath path ≠ .forbidden := by
  rw [strictAllows, enforce]
  split
  · rename_i h
    exact ⟨fun _ => h, fun _ => rfl⟩
  · rename_i h
    exact ⟨fun hok => absurd hok Bool.false_ne_true, fun hne => absurd hne h⟩

/-! ### The pair in the pieces -/

/-- A `.vex` piece with `index` or `state` behind it, after pieces that come back to `.vex`, and no piece
behind that leaves again. -/
def PairKept (path : String) : Prop :=
  ∃ before inside name after, (pieces path).map pathStep =
      before ++ .down ".vex" :: (inside ++ .down name :: after) ∧
    (name = "index" ∨ name = "state") ∧ LexicalPath.Returns inside ∧ LexicalPath.Stays [] after

theorem pair_infix_iff {names : List String} {a b : String} :
    [a, b] <:+: names.reverse ↔ ∃ above below, names = above ++ b :: a :: below := by
  constructor
  · rintro ⟨front, behind, h⟩
    refine ⟨behind.reverse, front.reverse, ?_⟩
    rw [← List.reverse_reverse names, ← h]
    simp
  · rintro ⟨above, below, rfl⟩
    exact ⟨below.reverse, above.reverse, by simp⟩

theorem durable_iff : Durable path ↔ PairKept path := by
  rw [Durable, normalisedNames, pair_infix_iff, pair_infix_iff, LexicalPath.next_to_iff,
    LexicalPath.next_to_iff]
  constructor
  · rintro (⟨before, inside, after, h⟩ | ⟨before, inside, after, h⟩)
    · exact ⟨before, inside, "index", after, h.1, .inl rfl, h.2⟩
    · exact ⟨before, inside, "state", after, h.1, .inr rfl, h.2⟩
  · rintro ⟨before, inside, name, after, hsteps, rfl | rfl, hkept⟩
    · exact .inl ⟨before, inside, after, hsteps, hkept⟩
    · exact .inr ⟨before, inside, after, hsteps, hkept⟩

theorem pathStep_down {name : String} (h : pathStep piece = .down name) : piece = name.toList := by
  unfold pathStep at h
  split at h
  · cases h
  split at h
  · cases h
  · cases h
    rw [String.toList_ofList]

/-- With a pair there is a piece behind one that ends in `.vex`. -/
theorem behindVex_of_pair {before inside after : List (LexicalPath.Step String)} {name : String}
    (h : P.map pathStep = before ++ .down ".vex" :: (inside ++ .down name :: after)) :
    behindVex P ≠ none := by
  induction P generalizing before with
  | nil => simp at h
  | cons p P ih =>
    cases P with
    | nil =>
      have hlen := congrArg List.length h
      simp at hlen
      omega
    | cons q rest =>
      rw [behindVex]
      split
      · exact Option.some_ne_none _
      rename_i hends
      cases before with
      | nil =>
        obtain ⟨hp, -⟩ := List.cons.inj h
        exact absurd (by rw [pathStep_down hp]; decide) hends
      | cons step before =>
        obtain ⟨-, hrest⟩ := List.cons.inj h
        exact ih hrest

theorem verdict_admits_iff (piece : List Char) (rest : List (List Char)) :
    verdict (some (piece, rest)) ≠ .forbidden ↔
      Names "index".toList piece rest ∨ Names "state".toList piece rest := by
  show (if Names "index".toList piece rest then DiskPermission.searchIndex
    else if Names "state".toList piece rest then .taskStateMap else .forbidden) ≠ .forbidden ↔ _
  by_cases hindex : Names "index".toList piece rest
  · rw [if_pos hindex]
    exact iff_of_true (by decide) (.inl hindex)
  rw [if_neg hindex]
  by_cases hstate : Names "state".toList piece rest
  · rw [if_pos hstate]
    exact iff_of_true (by decide) (.inr hstate)
  · rw [if_neg hstate]
    exact iff_of_false (not_not_intro rfl) (not_or.mpr ⟨hindex, hstate⟩)

/-- The piece behind the first one that ends in `.vex` tells what the steps of the path come to. -/
def StrictAgrees (path : String) : Prop :=
  match behindVex (pieces path) with
  | some (piece, rest) =>
    if Names "index".toList piece rest ∨ Names "state".toList piece rest then PairKept path
    else ¬ PairKept path
  | none => True

/-- **What the strict policy admits**: exactly the durable paths, as far as the piece behind the first
one that ends in `.vex` tells what the steps of the path come to. -/
theorem strict_exact_iff (path : String) :
    (strictAllows path = true ↔ Durable path) ↔ StrictAgrees path := by
  rw [strictAllows_iff, checkPath_eq, durable_iff, StrictAgrees]
  cases hbehind : behindVex (pieces path) with
  | none =>
    have hnot : ¬ PairKept path := by
      rintro ⟨before, inside, name, after, hsteps, -, -⟩
      exact behindVex_of_pair hsteps hbehind
    simp [verdict, hnot]
  | some found =>
    obtain ⟨piece, rest⟩ := found
    rw [verdict_admits_iff]
    dsimp only
    by_cases hnames : Names "index".toList piece rest ∨ Names "state".toList piece rest
    · rw [if_pos hnames]
      exact ⟨fun h => h.mp hnames, fun h => ⟨fun _ => h, fun _ => hnames⟩⟩
    · rw [if_neg hnames]
      exact ⟨fun h hkept => hnames (h.mpr hkept), fun h =>
        ⟨fun hadmits => absurd hadmits hnames, fun hkept => absurd hkept h⟩⟩

/-- Behind `.vex/index` the path leaves for a file that the policy forbids. -/
theorem parent_leaves_index :
    ¬ (strictAllows ".vex/index/../config.toml" = true ↔ Durable ".vex/index/../config.toml") := by
  decide +kernel

end Vexcoder.Tools
