import Vexcoder.Base.Slices
import Vexcoder.Base.Text
import Vexcoder.Lib.Completion

/-!
# Texts that are cut to fit

What the interface shows of a long text: the first bytes of a transcript line, the words of a preview or
of an outcome up to byte 60, and the path that a line speaks of.  A slice that starts or ends inside a
character is a panic, which is `none`.
-/

namespace Vexcoder.App

open Base Lib Lib.Search

/-- `str::find`, in bytes. -/
def findByte (pat s : List Char) : Option ℕ := (find pat s).map fun i => byteLen (s.take i)

/-- `str::rfind` for one character, in bytes. -/
def rfindByte (c : Char) (s : List Char) : Option ℕ :=
  (rfindElem c s).map fun i => byteLen (s.take i)

theorem sliceFrom_take (s : List Char) (i : ℕ) : sliceFrom (byteLen (s.take i)) s = some (s.drop i) := by
  have h := sliceFrom_append (s.take i) (s.drop i)
  rwa [List.take_append_drop] at h

theorem sliceTo_completes {n : ℕ} {s : List Char} (h : isCharBoundary n s = true) : Completes (sliceTo n s) :=
  Option.isSome_iff_exists.mp ((sliceTo_isSome_iff n s).mpr h)

/-! ### Previews and outcomes -/

def maxSummaryWidth : ℕ := 60

/-- `end`, moved back to the last blank in front of it when that stands behind the middle. -/
def wordEnd (endPos : ℕ) (head : List Char) : ℕ :=
  match rfindByte ' ' head with
  | some spacePos => if spacePos > maxSummaryWidth / 2 then spacePos else endPos
  | none => endPos

def shortenAtWord (text : String) : Option String :=
  if byteLen text.toList ≤ maxSummaryWidth then some text
  else do
    let endPos := floorCharBoundary maxSummaryWidth text.toList
    let head ← sliceTo endPos text.toList
    let kept ← sliceTo (wordEnd endPos head) text.toList
    some (String.ofList kept ++ "…")

def compactPreviewText (text : String) : Option String :=
  shortenAtWord (Text.join " " (((Text.lines text).map Text.trim).filter fun line => !Text.isEmpty line))

def compactOutcomeSummary (line : String) : Option String := shortenAtWord (Text.trim line)

theorem rfindByte_boundary {c : Char} {s : List Char} {n : ℕ} (h : rfindByte c s = some n)
    (u : List Char) : isCharBoundary n (s ++ u) = true := by
  obtain ⟨i, -, rfl⟩ := Option.map_eq_some_iff.mp h
  refine (isCharBoundary_iff _ _).mpr ⟨s.take i, s.drop i ++ u, ?_, rfl⟩
  rw [← List.append_assoc, List.take_append_drop]

/-- A blank in front of a boundary stands at a boundary. -/
theorem wordEnd_boundary (head u : List Char) :
    isCharBoundary (wordEnd (byteLen head) head) (head ++ u) = true := by
  unfold wordEnd
  cases hspace : rfindByte ' ' head with
  | none => exact isCharBoundary_append head u
  | some spacePos =>
    show isCharBoundary (if _ then spacePos else byteLen head) _ = true
    split
    · exact rfindByte_boundary hspace u
    · exact isCharBoundary_append head u

theorem shortenAtWord_completes (text : String) : Completes (shortenAtWord text) := by
  refine .ite (.pure _) ?_
  have hfloor := floorCharBoundary_isCharBoundary maxSummaryWidth text.toList
  obtain ⟨head, u, htext, hlen⟩ := (isCharBoundary_iff _ _).mp hfloor
  have hhead : sliceTo (floorCharBoundary maxSummaryWidth text.toList) text.toList = some head := by
    rw [← hlen, htext]
    exact sliceTo_append head u
  have hword : Completes (sliceTo (wordEnd (floorCharBoundary maxSummaryWidth text.toList) head)
      text.toList) := by
    apply sliceTo_completes
    rw [← hlen, htext]
    exact wordEnd_boundary head u
  show Completes (sliceTo _ _ >>= _)
  rw [hhead]
  exact hword.bind fun kept => .pure _

theorem compactPreviewText_completes (text : String) : Completes (compactPreviewText text) :=
  shortenAtWord_completes _

theorem compactOutcomeSummary_completes (line : String) : Completes (compactOutcomeSummary line) :=
  shortenAtWord_completes _

/-! ### The path of a line -/

def isTokenMark (c : Char) : Bool :=
  "\"'`()[]\x7b\x7d,;:".toList.contains c

def trimTokenMarks (s : List Char) : List Char :=
  ((s.dropWhile isTokenMark).reverse.dropWhile isTokenMark).reverse

/-- `str::split_whitespace` -/
def splitWhitespace : List Char → List (List Char)
  | [] => []
  | c :: s =>
    if isWhitespace c then splitWhitespace s
    else
      match s, splitWhitespace s with
      | d :: _, piece :: pieces =>
        if isWhitespace d then [c] :: piece :: pieces else (c :: piece) :: pieces
      | _, pieces => [c] :: pieces

def looksPathish (candidate : List Char) : Bool :=
  candidate.contains '/' || candidate.contains '\\' ||
    match rfindElem '.' candidate with
    | some i => !(candidate.take i).isEmpty && !(candidate.drop (i + 1)).isEmpty
    | none => false

def firstPathishToken (text : List Char) : Option String :=
  (splitWhitespace text).findSome? fun token =>
    let candidate := trimTokenMarks token
    if candidate.isEmpty then none
    else if looksPathish candidate then some (String.ofList candidate)
    else none

/-- What the line says behind one of the words; the word is looked for in lower case. -/
def targetBehind (trimmed lowered : List Char) : List String → Option (Option String)
  | [] => some none
  | marker :: markers =>
    match findByte marker.toList lowered with
    | none => targetBehind trimmed lowered markers
    | some index => do
      let rest ← sliceFrom (index + byteLen marker.toList) trimmed
      match firstPathishToken rest with
      | some candidate => some (some candidate)
      | none => targetBehind trimmed lowered markers

def toolTargetSummary (line : String) : Option (Option String) :=
  let trimmed := trim line.toList
  if trimmed.isEmpty then some none
  else
    targetBehind trimmed (toAsciiLowercase trimmed) [" from ", " to ", " in ", " at ", " into ", " on "]

theorem utf8Size_toLower (c : Char) : c.toLower.utf8Size = c.utf8Size := by
  rcases toLower_cases c with heq | ⟨-, hhigh, hval⟩
  · rw [heq]
  · have hone : ∀ d : Char, d.toNat ≤ 127 → d.utf8Size = 1 := fun d h => Char.utf8Size_eq_one_iff.mpr h
    rw [hone c (by omega), hone c.toLower (by omega)]

theorem byteLen_toAsciiLowercase (s : List Char) : byteLen (toAsciiLowercase s) = byteLen s := by
  induction s with
  | nil => rfl
  | cons c s ih =>
    show byteLen (c.toLower :: toAsciiLowercase s) = _
    rw [byteLen_cons, byteLen_cons, ih, utf8Size_toLower]

theorem findByte_lowered {pat s : List Char} {index : ℕ}
    (h : findByte pat (toAsciiLowercase s) = some index) :
    ∃ i, index + byteLen pat = byteLen (s.take i) := by
  obtain ⟨i, hfind, rfl⟩ := Option.map_eq_some_iff.mp h
  refine ⟨i + pat.length, ?_⟩
  rw [← byteLen_append, ← find_take hfind, toAsciiLowercase, ← List.map_take]
  exact byteLen_toAsciiLowercase _

theorem targetBehind_completes (trimmed : List Char) (markers : List String) :
    Completes (targetBehind trimmed (toAsciiLowercase trimmed) markers) := by
  induction markers with
  | nil => exact .pure _
  | cons marker markers ih =>
    rw [targetBehind]
    cases hfind : findByte marker.toList (toAsciiLowercase trimmed) with
    | none => exact ih
    | some index =>
      obtain ⟨i, hend⟩ := findByte_lowered hfind
      show Completes (sliceFrom _ _ >>= _)
      rw [hend, sliceFrom_take]
      show Completes (match firstPathishToken _ with | some candidate => _ | none => _)
      split
      · exact .pure _
      · exact ih

theorem toolTargetSummary_completes (line : String) : Completes (toolTargetSummary line) :=
  .ite (.pure _) (targetBehind_completes _ _)

/-! ### The clip of a transcript line -/

def maxTranscriptLineChars : ℕ := 512

def clipTranscriptLine (line : String) : Option String :=
  if byteLen line.toList > maxTranscriptLineChars then do
    let kept ← sliceTo maxTranscriptLineChars line.toList
    some (String.ofList kept ++ "... (+" ++
      toString (byteLen line.toList - maxTranscriptLineChars) ++ " more chars omitted)")
  else some line

/-- A clipped line is a prefix of the line and a count of the rest. -/
def Clipped (count : List Char → ℕ) (line clipped : String) : Prop :=
  if byteLen line.toList > maxTranscriptLineChars then
    ∃ kept omitted, line.toList = kept ++ omitted ∧
      clipped = String.ofList kept ++ "... (+" ++ toString (count omitted) ++ " more chars omitted)"
  else clipped = line

theorem digits_unique {s t : List Char} {c : Char} {m n : ℕ} (hc : c.isDigit = false)
    (h : s ++ c :: Nat.toDigits 10 m = t ++ c :: Nat.toDigits 10 n) : s = t ∧ m = n := by
  have hdigits (k : ℕ) : ∀ d ∈ (Nat.toDigits 10 k).reverse, d.isDigit = true := fun d hd =>
    Nat.isDigit_of_mem_toDigits (by decide) (by decide) (List.mem_reverse.mp hd)
  have hreverse := congrArg List.reverse h
  simp only [List.reverse_append, List.reverse_cons, List.append_assoc, List.singleton_append]
    at hreverse
  have htake (k : ℕ) (r : List Char) :
      ((Nat.toDigits 10 k).reverse ++ c :: r).takeWhile Char.isDigit = (Nat.toDigits 10 k).reverse := by
    rw [List.takeWhile_append_of_pos (hdigits k), List.takeWhile_cons_of_neg (by simp [hc]), List.append_nil]
  have hsame : Nat.toDigits 10 m = Nat.toDigits 10 n := by
    rw [← List.reverse_inj, ← htake m s.reverse, hreverse, htake]
  rw [hsame] at hreverse
  have hrest := (List.cons.inj (List.append_cancel_left hreverse)).2
  refine ⟨List.reverse_inj.mp hrest, ?_⟩
  rw [← Nat.ofDigitChars_ten_toDigits (n := m), hsame, Nat.ofDigitChars_ten_toDigits]

/-- The clipped text determines what was kept and what was counted. -/
theorem clipped_unique {kept kept' : List Char} {m n : ℕ}
    (h : String.ofList kept ++ "... (+" ++ toString m ++ " more chars omitted)" =
      String.ofList kept' ++ "... (+" ++ toString n ++ " more chars omitted)") :
    kept = kept' ∧ m = n := by
  have hlist := congrArg String.toList h
  simp only [String.toList_append, String.toList_ofList, Nat.toString_eq_repr, Nat.toList_repr] at hlist
  have hdigits := List.append_cancel_right hlist
  have hplus : "... (+".toList = "... (".toList ++ ['+'] := by decide
  simp only [hplus, List.append_assoc, List.singleton_append] at hdigits
  rw [← List.append_assoc, ← List.append_assoc] at hdigits
  obtain ⟨hkept, hcount⟩ := digits_unique (by decide) hdigits
  exact ⟨List.append_cancel_right hkept, hcount⟩

/-- The clip is made, and the count is right, when byte 512 lies between two characters and the rest is
counted as its bytes are. -/
theorem clipTranscriptLine_clipped_iff (count : List Char → ℕ) (line : String) :
    (∃ clipped, clipTranscriptLine line = some clipped ∧ Clipped count line clipped) ↔
      byteLen line.toList ≤ maxTranscriptLineChars ∨
        ∃ kept omitted, line.toList = kept ++ omitted ∧ byteLen kept = maxTranscriptLineChars ∧
          count omitted = byteLen omitted := by
  unfold clipTranscriptLine Clipped
  by_cases hlong : byteLen line.toList > maxTranscriptLineChars
  · simp only [if_pos hlong]
    rw [or_iff_right (Nat.not_le.mpr hlong)]
    constructor
    · rintro ⟨clipped, hclip, kept, omitted, hline, hclipped⟩
      obtain ⟨kept', hslice, hkept'⟩ := Option.bind_eq_some_iff.mp hclip
      obtain ⟨nothing, rest, hline', hnothing, hlen⟩ := sliceBytes_eq_some_iff.mp hslice
      obtain rfl := (byteLen_eq_zero_iff nothing).mp hnothing
      rw [List.nil_append] at hline'
      rw [byteLen_nil, Nat.zero_add] at hlen
      have htext := (Option.some.inj hkept').trans hclipped
      obtain ⟨rfl, hcount⟩ := clipped_unique htext
      have hrest : omitted = rest := List.append_cancel_left (hline.symm.trans hline')
      refine ⟨kept', omitted, hline, hlen, ?_⟩
      rw [← hcount, hline', byteLen_append, hlen, Nat.add_sub_cancel_left, hrest]
    · rintro ⟨kept, omitted, hline, hlen, hcount⟩
      have hslice : sliceTo maxTranscriptLineChars line.toList = some kept := by
        rw [hline, ← hlen]
        exact sliceTo_append kept omitted
      refine ⟨_, Option.bind_eq_some_iff.mpr ⟨kept, hslice, rfl⟩, kept, omitted, hline, ?_⟩
      rw [hcount, hline, byteLen_append, hlen, Nat.add_sub_cancel_left]
  · simp only [if_neg hlong]
    exact ⟨fun _ => .inl (Nat.not_lt.mp hlong), fun _ => ⟨line, rfl, rfl⟩⟩

/-- As many bytes as characters: each of them has one. -/
theorem length_eq_byteLen_iff (s : List Char) : s.length = byteLen s ↔ ∀ c ∈ s, c.utf8Size = 1 := by
  have hle (t : List Char) : t.length ≤ byteLen t := by
    induction t with
    | nil => exact Nat.le_refl 0
    | cons c t ih =>
      have := utf8Size_pos c
      rw [List.length_cons, byteLen_cons]
      omega
  induction s with
  | nil => simp
  | cons c s ih =>
    have hpos := utf8Size_pos c
    have hrest := hle s
    rw [List.length_cons, byteLen_cons, List.forall_mem_cons]
    constructor
    · intro hlen
      exact ⟨by omega, ih.mp (by omega)⟩
    · rintro ⟨hsize, hall⟩
      have := ih.mpr hall
      omega

theorem clipTranscriptLine_completes_iff (line : String) :
    Completes (clipTranscriptLine line) ↔
      byteLen line.toList ≤ maxTranscriptLineChars ∨
        isCharBoundary maxTranscriptLineChars line.toList = true := by
  unfold clipTranscriptLine
  split
  · rename_i hlong
    rw [or_iff_right (Nat.not_le.mpr hlong), ← sliceTo_isSome_iff, Option.isSome_iff_exists]
    constructor
    · rintro ⟨clipped, hclip⟩
      obtain ⟨kept, hslice, -⟩ := Option.bind_eq_some_iff.mp hclip
      exact ⟨kept, hslice⟩
    · intro hslice
      exact .bind hslice fun kept => .pure _
  · rename_i hshort
    exact ⟨fun _ => .inl (Nat.not_lt.mp hshort), fun _ => .pure _⟩

end Vexcoder.App
