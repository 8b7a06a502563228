import Mathlib.Data.List.Basic
import Mathlib.Data.List.Count
import Mathlib.Data.List.Induction

/-!
# A file read line by line

A reader takes what stands up to the next separator, the separator included; behind the last one there
may be a rest that no separator ends.  `cut` gives both.  What is appended comes behind the rest: a line
that is appended completes it (`cut_append_line`), and a part of a line makes it longer
(`cut_append_part`).
-/

namespace Vexcoder.Lib.LineChunks

variable {α : Type*} [DecidableEq α] {sep : α} {l text : List α}

def cut (sep : α) : List α → List (List α) × List α
  | [] => ([], [])
  | a :: rest =>
    if a = sep then ([sep] :: (cut sep rest).1, (cut sep rest).2)
    else
      match (cut sep rest).1 with
      | [] => ([], a :: (cut sep rest).2)
      | line :: lines => ((a :: line) :: lines, (cut sep rest).2)

def chunks (sep : α) (l : List α) : List (List α) :=
  (cut sep l).1 ++ if (cut sep l).2.isEmpty then [] else [(cut sep l).2]

theorem cut_cons_sep (rest : List α) :
    cut sep (sep :: rest) = ([sep] :: (cut sep rest).1, (cut sep rest).2) := by
  rw [cut, if_pos rfl]

theorem cut_part (h : sep ∉ text) : cut sep text = ([], text) := by
  induction text with
  | nil => rfl
  | cons a text ih =>
    rw [List.mem_cons, not_or] at h
    rw [cut, if_neg (Ne.symm h.1), ih h.2]

theorem cut_append_part (h : sep ∉ text) : cut sep (l ++ text) = ((cut sep l).1, (cut sep l).2 ++ text) := by
  induction l with
  | nil => exact cut_part h
  | cons a l ih =>
    rw [List.cons_append, cut, cut, ih]
    split
    · rfl
    · cases (cut sep l).1 <;> rfl

theorem cut_line (h : sep ∉ text) : cut sep (text ++ [sep]) = ([text ++ [sep]], []) := by
  induction text with
  | nil => exact cut_cons_sep []
  | cons a text ih =>
    rw [List.mem_cons, not_or] at h
    rw [List.cons_append, cut, if_neg (Ne.symm h.1), ih h.2]

theorem cut_append_line (h : sep ∉ text) :
    cut sep (l ++ (text ++ [sep])) = ((cut sep l).1 ++ [(cut sep l).2 ++ (text ++ [sep])], []) := by
  induction l with
  | nil => exact cut_line h
  | cons a l ih =>
    rw [List.cons_append, cut, cut, ih]
    split
    · rfl
    · cases (cut sep l).1 <;> rfl

theorem cut_flatten (l : List α) : cut sep (cut sep l).1.flatten = ((cut sep l).1, []) := by
  induction l with
  | nil => rfl
  | cons a l ih =>
    rw [cut]
    split
    · rw [List.flatten_cons, List.singleton_append, cut_cons_sep, ih]
    rename_i ha
    cases hcut : (cut sep l).1 with
    | nil => rfl
    | cons line lines =>
      rw [hcut] at ih
      show cut sep (a :: (line ++ lines.flatten)) = _
      rw [cut, if_neg ha, ← List.flatten_cons, ih]

theorem chunks_flatten (l : List α) : chunks sep (cut sep l).1.flatten = (cut sep l).1 := by
  rw [chunks, cut_flatten]
  exact List.append_nil _

theorem chunks_append_line (h : sep ∉ text) :
    chunks sep (l ++ (text ++ [sep])) = (cut sep l).1 ++ [(cut sep l).2 ++ (text ++ [sep])] := by
  rw [chunks, cut_append_line h]
  exact List.append_nil _

/-- A line that is appended, or the front of one, adds no more than one to what is counted. -/
theorem countP_append_le (p : List α → Bool) (hsep : sep ∉ text) {part : List α}
    (h : part <+: text ++ [sep]) :
    (chunks sep (l ++ part)).countP p ≤ (chunks sep l).countP p + 1 := by
  have hone : ∀ lines : List (List α), ∀ tail : List α,
      (lines ++ if tail.isEmpty then [] else [tail]).countP p ≤ lines.countP p + 1 := by
    intro lines tail
    rw [List.countP_append]
    split
    · simp
    · have := List.countP_le_length (p := p) (l := [tail])
      rw [List.length_singleton] at this
      omega
  have hfront : (cut sep l).1.countP p ≤ (chunks sep l).countP p := by
    rw [chunks, List.countP_append]
    exact Nat.le_add_right _ _
  rcases List.prefix_concat_iff.mp h with rfl | hpart
  · rw [chunks_append_line hsep, List.countP_append]
    have := List.countP_le_length (p := p) (l := [(cut sep l).2 ++ (text ++ [sep])])
    rw [List.length_singleton] at this
    omega
  · rw [chunks, cut_append_part fun hmem => hsep (hpart.subset hmem)]
    exact Nat.le_trans (hone _ _) (Nat.add_le_add_right hfront 1)

end Vexcoder.Lib.LineChunks
