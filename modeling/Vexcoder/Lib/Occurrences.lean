import Mathlib.Data.List.Basic

/-!
# Occurrences of a word in a text

A search from the left that does not look inside what it has found keeps an occurrence exactly when no
kept one before it reaches into it.  What it passes over starts inside a kept one (`kept_or_hidden`), so
that the kept occurrences are all there are when none is hidden.
-/

namespace Vexcoder.Lib.Occurrences

variable {α : Type*} {text word : List α} {i j : ℕ}

def OccursAt (text word : List α) (i : ℕ) : Prop := word <+: text.drop i

instance [DecidableEq α] : Decidable (OccursAt text word i) :=
  inferInstanceAs (Decidable (word <+: text.drop i))

def Kept (text word : List α) (i : ℕ) : Prop :=
  OccursAt text word i ∧ ∀ j, j < i → Kept text word j → j + word.length ≤ i
termination_by i

theorem kept_iff :
    Kept text word i ↔ OccursAt text word i ∧ ∀ j, j < i → Kept text word j → j + word.length ≤ i := by
  rw [Kept]

/-- An occurrence that the search passes over. -/
def Hidden (text word : List α) (i : ℕ) : Prop :=
  OccursAt text word i ∧ ∃ j, j < i ∧ Kept text word j ∧ i < j + word.length

theorem Kept.occursAt (h : Kept text word i) : OccursAt text word i := (kept_iff.mp h).1

theorem Kept.apart (h : Kept text word i) (hj : Kept text word j) (hlt : j < i) : j + word.length ≤ i :=
  (kept_iff.mp h).2 j hlt hj

theorem Kept.not_hidden (h : Kept text word i) : ¬ Hidden text word i := by
  intro hhidden
  obtain ⟨-, j, hlt, hkept, hinside⟩ := hhidden
  have hapart := h.apart hkept hlt
  omega

theorem kept_or_hidden (h : OccursAt text word i) : Kept text word i ∨ Hidden text word i := by
  by_cases hfree : ∀ j, j < i → Kept text word j → j + word.length ≤ i
  · exact .inl (kept_iff.mpr ⟨h, hfree⟩)
  · simp only [not_forall, Nat.not_le] at hfree
    obtain ⟨j, hlt, hkept, hinside⟩ := hfree
    exact .inr ⟨h, j, hlt, hkept, hinside⟩

theorem not_occursAt_of_drop_nil (hword : word ≠ []) (h : text.drop i = []) (hle : i ≤ j) :
    ¬ OccursAt text word j := by
  intro hoccurs
  have hend : text.drop j = [] := by
    rw [List.drop_eq_nil_iff] at h ⊢
    omega
  rw [OccursAt, hend] at hoccurs
  exact hword (List.prefix_nil.mp hoccurs)

theorem OccursAt.split (h : OccursAt text word i) :
    text = text.take i ++ word ++ text.drop (i + word.length) := by
  obtain ⟨rest, hrest⟩ := h
  have hdrop : text.drop (i + word.length) = rest := by
    rw [← List.drop_drop, ← hrest, List.drop_left]
  rw [hdrop, List.append_assoc, hrest, List.take_append_drop]

/-- When nothing that counts is hidden, the kept occurrences are all that count. -/
theorem occursAt_and_iff_kept {P : ℕ → Prop} (h : ∀ i, P i → ¬ Hidden text word i) :
    OccursAt text word i ∧ P i ↔ Kept text word i ∧ P i := by
  constructor
  · intro hboth
    obtain ⟨hoccurs, hP⟩ := hboth
    exact ⟨(kept_or_hidden hoccurs).resolve_right (h i hP), hP⟩
  · intro hboth
    exact ⟨hboth.1.occursAt, hboth.2⟩

/-- **One kept occurrence that counts** is the only occurrence that counts exactly when none that counts
is hidden. -/
theorem unique_iff_not_hidden {P : ℕ → Prop} (h : ∀ j, Kept text word j ∧ P j ↔ j = i) :
    (∃ k, ∀ j, OccursAt text word j ∧ P j ↔ j = k) ↔ ∀ j, P j → ¬ Hidden text word j := by
  constructor
  · intro hunique j hP hhidden
    obtain ⟨k, hk⟩ := hunique
    obtain ⟨hkept, hPi⟩ := (h i).mpr rfl
    have hi : i = k := (hk i).mp ⟨hkept.occursAt, hPi⟩
    have hj : j = k := (hk j).mp ⟨hhidden.1, hP⟩
    rw [hj, ← hi] at hhidden
    exact hkept.not_hidden hhidden
  · intro hnone
    exact ⟨i, fun j => (occursAt_and_iff_kept hnone).trans (h j)⟩

end Vexcoder.Lib.Occurrences
