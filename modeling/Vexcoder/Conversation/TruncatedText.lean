import Vexcoder.Conversation.History

/-!
# Texts that are shortened for the history

`truncate_for_history` keeps a text that fits, the front of one where the note about the omission has no
room, and else a head and a suffix with the note between them.  The result never exceeds the limit.  The
note counts the characters beyond the limit, but it takes its own place from the text as well: where
there is a note, its count is too small by its own length.
-/

namespace Vexcoder.Conversation

open Base

/-- The note about `count` characters. -/
def omissionNote (count : ℕ) : String := "\n...[" ++ toString count ++ " chars omitted]...\n"

/-- What `truncate_for_history` puts together. -/
inductive Truncation where
  | whole (text : List Char)
  | front (head : List Char)
  | around (head : List Char) (count : ℕ) (suffix : List Char)

namespace Truncation

def toText : Truncation → String
  | whole text | front text => String.ofList text
  | around head count suffix => String.ofList head ++ omissionNote count ++ String.ofList suffix

/-- The parts are parts of `text`, apart from one another, and the note counts what is between them. -/
def Tells (text : List Char) : Truncation → Prop
  | whole kept => kept = text
  | front head => head <+: text
  | around head count suffix => ∃ omitted, text = head ++ omitted ++ suffix ∧ count = omitted.length

end Truncation

/-- The parts that the result of `truncate_for_history` is made of. -/
def truncation (chars : List Char) (maxChars : ℕ) : Truncation :=
  if chars.length ≤ maxChars then .whole chars
  else
    let count := chars.length - maxChars
    let noteLen := Text.charCount (omissionNote count)
    if maxChars ≤ noteLen then .front (chars.take maxChars)
    else
      let keepHead := (maxChars - noteLen) / 2
      .around (chars.take keepHead) count (chars.drop (chars.length - (maxChars - noteLen - keepHead)))

/-- The note has room behind what is over the limit. -/
def NoteFits (chars : List Char) (maxChars : ℕ) : Prop :=
  maxChars < chars.length ∧ Text.charCount (omissionNote (chars.length - maxChars)) < maxChars

theorem truncateForHistory_eq (text : String) (maxChars : ℕ) :
    truncateForHistory text maxChars = (truncation text.toList maxChars).toText := by
  rw [truncateForHistory, truncation]
  by_cases hzero : maxChars = 0
  · subst hzero
    rw [if_pos rfl]
    split
    · rename_i hempty
      rw [List.length_eq_zero_iff.mp (Nat.le_zero.mp hempty)]
      rfl
    · rfl
  · rw [if_neg hzero]
    show (if text.toList.length ≤ maxChars then text else _) = _
    split
    · exact String.ofList_toList.symm
    show (if maxChars ≤ Text.charCount (omissionNote (text.toList.length - maxChars)) then _
      else _) = _
    split
    · rename_i hroom
      rw [if_pos hroom]
      rfl
    · rename_i hroom
      rw [if_neg hroom]
      rfl

theorem truncation_cases (chars : List Char) (maxChars : ℕ) :
    (chars.length ≤ maxChars ∧ truncation chars maxChars = .whole chars) ∨
    (¬ NoteFits chars maxChars ∧ truncation chars maxChars = .front (chars.take maxChars)) ∨
    (NoteFits chars maxChars ∧ ∃ keepHead keepSuffix,
      keepHead + keepSuffix + Text.charCount (omissionNote (chars.length - maxChars)) = maxChars ∧
      truncation chars maxChars = .around (chars.take keepHead) (chars.length - maxChars)
        (chars.drop (chars.length - keepSuffix))) := by
  by_cases hfits : chars.length ≤ maxChars
  · exact .inl ⟨hfits, by rw [truncation, if_pos hfits]⟩
  by_cases hroom : maxChars ≤ Text.charCount (omissionNote (chars.length - maxChars))
  · refine .inr (.inl ⟨fun h => absurd h.2 (Nat.not_lt.mpr hroom), ?_⟩)
    rw [truncation, if_neg hfits]
    exact if_pos hroom
  · refine .inr (.inr ⟨⟨Nat.not_le.mp hfits, Nat.not_le.mp hroom⟩, _, _, ?_,
      by rw [truncation, if_neg hfits]; exact if_neg hroom⟩)
    omega

theorem charCount_toText_le (chars : List Char) (maxChars : ℕ) :
    Text.charCount (truncation chars maxChars).toText ≤ maxChars := by
  rcases truncation_cases chars maxChars with
    ⟨hfits, heq⟩ | ⟨-, heq⟩ | ⟨⟨hlong, -⟩, keepHead, keepSuffix, hsum, heq⟩
  · rw [heq, Truncation.toText, Text.charCount, String.toList_ofList]
    exact hfits
  · rw [heq, Truncation.toText, Text.charCount, String.toList_ofList, List.length_take]
    exact Nat.min_le_left _ _
  · rw [Text.charCount] at hsum
    simp only [heq, Truncation.toText, Text.charCount, String.toList_append, String.toList_ofList,
      List.length_append, List.length_take, List.length_drop]
    omega

theorem omissionNote_pos (count : ℕ) : 0 < Text.charCount (omissionNote count) := by
  rw [omissionNote, Text.charCount, String.toList_append, List.length_append]
  exact Nat.add_pos_right _ (by decide)

/-- What a cut leaves out is what its note counts and as many characters as the note has. -/
theorem tells_truncation_iff {chars : List Char} {maxChars : ℕ} :
    (truncation chars maxChars).Tells chars ↔ ¬ NoteFits chars maxChars := by
  rcases truncation_cases chars maxChars with
    ⟨hfits, heq⟩ | ⟨hnot, heq⟩ | ⟨hnote, keepHead, keepSuffix, hsum, heq⟩
  · rw [heq]
    exact iff_of_true rfl fun h => absurd h.1 (Nat.not_lt.mpr hfits)
  · rw [heq]
    exact iff_of_true (List.take_prefix _ _) hnot
  · rw [heq]
    refine iff_of_false ?_ (not_not.mpr hnote)
    rintro ⟨omitted, htext, hcount⟩
    have hpos := omissionNote_pos (chars.length - maxChars)
    have hlong := hnote.1
    have hlen := congrArg List.length htext
    simp only [List.length_append, List.length_take, List.length_drop] at hlen
    omega

/-- The result fits the limit, is the text where that fits, is made of parts that tell what is left out,
and is not shortened again. -/
structure Truncates (text : String) (maxChars : ℕ) : Prop where
  length_le : Text.charCount (truncateForHistory text maxChars) ≤ maxChars
  whole : Text.charCount text ≤ maxChars → truncateForHistory text maxChars = text
  parts : truncateForHistory text maxChars = (truncation text.toList maxChars).toText
  tells : (truncation text.toList maxChars).Tells text.toList
  again : truncateForHistory (truncateForHistory text maxChars) maxChars = truncateForHistory text maxChars

theorem truncateForHistory_of_fits {text : String} {maxChars : ℕ}
    (h : Text.charCount text ≤ maxChars) : truncateForHistory text maxChars = text := by
  have hfits : text.toList.length ≤ maxChars := h
  rw [truncateForHistory_eq, truncation, if_pos hfits]
  exact String.ofList_toList

/-- **The count is right** exactly where there is none: the text fits, or the note does not. -/
theorem truncates_iff (text : String) (maxChars : ℕ) :
    Truncates text maxChars ↔
      Text.charCount text ≤ maxChars ∨
        maxChars ≤ Text.charCount (omissionNote (Text.charCount text - maxChars)) := by
  have hnote : ¬ NoteFits text.toList maxChars ↔ Text.charCount text ≤ maxChars ∨
      maxChars ≤ Text.charCount (omissionNote (Text.charCount text - maxChars)) := by
    rw [NoteFits, not_and_or, Nat.not_lt, Nat.not_lt]
    rfl
  have hle : Text.charCount (truncateForHistory text maxChars) ≤ maxChars := by
    rw [truncateForHistory_eq]
    exact charCount_toText_le text.toList maxChars
  rw [← hnote, ← tells_truncation_iff]
  exact ⟨Truncates.tells, fun htells => ⟨hle, truncateForHistory_of_fits,
    truncateForHistory_eq text maxChars, htells, truncateForHistory_of_fits hle⟩⟩

/-- 31 of its 46 characters are left out, and the note says 6. -/
theorem six_chars_omitted :
    truncateForHistory "head-aaaa-bbbb-cccc-dddd-eeee-ffff-gggg-suffix" 40 =
        "head-aa\n...[6 chars omitted]...\ng-suffix" ∧
      ¬ Truncates "head-aaaa-bbbb-cccc-dddd-eeee-ffff-gggg-suffix" 40 := by
  refine ⟨by decide, fun h => ?_⟩
  exact absurd (tells_truncation_iff.mp h.tells) (not_not.mpr (by rw [NoteFits]; decide))

end Vexcoder.Conversation
