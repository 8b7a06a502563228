import Mathlib.Data.List.Sort
import Mathlib.Data.List.TakeWhile

/-!
# Places in a stable sort

A stable sort puts before an element what is at most it and stands in front of it, and what is less and
stands behind it.  So the place of an element is a count over the list as it was (`insertionSort_rank`),
and what is left after a cut is known without sorting (`mem_take_insertionSort_iff`).
-/

namespace Vexcoder.Lib.StableRank

variable {α : Type*} {r : α → α → Prop} [DecidableRel r]

/-- How many elements come before the one that stands between two parts of a list. -/
def rank (r : α → α → Prop) [DecidableRel r] (front : List α) (x : α) (back : List α) : ℕ :=
  front.countP (fun y => r y x) + back.countP fun y => ¬ r x y

theorem orderedInsert_before {x y : α} {A B : List α} (hA : ∀ a ∈ A, r a x) (h : r y x) :
    ∃ A', (A ++ x :: B).orderedInsert r y = A' ++ x :: B ∧ A'.length = A.length + 1 ∧ ∀ a ∈ A', r a x := by
  induction A with
  | nil =>
    refine ⟨[y], ?_, rfl, ?_⟩
    · exact List.orderedInsert_cons_of_le r B h
    · exact List.forall_mem_singleton.mpr h
  | cons a A ih =>
    obtain ⟨A', heq, hlength, hA'⟩ := ih fun b hb => hA b (List.mem_cons_of_mem a hb)
    by_cases hya : r y a
    · refine ⟨y :: a :: A, ?_, rfl, ?_⟩
      · exact List.orderedInsert_cons_of_le r _ hya
      · exact List.forall_mem_cons.mpr ⟨h, hA⟩
    · refine ⟨a :: A', ?_, ?_, ?_⟩
      · rw [List.cons_append, List.orderedInsert_of_not_le r _ hya, heq, List.cons_append]
      · rw [List.length_cons, hlength, List.length_cons]
      · exact List.forall_mem_cons.mpr ⟨hA a List.mem_cons_self, hA'⟩

theorem orderedInsert_behind [IsTrans α r] {x y : α} {A B : List α} (hA : ∀ a ∈ A, r a x)
    (h : ¬ r y x) : ∃ B', (A ++ x :: B).orderedInsert r y = A ++ x :: B' := by
  induction A with
  | nil => exact ⟨_, List.orderedInsert_of_not_le r B h⟩
  | cons a A ih =>
    obtain ⟨B', heq⟩ := ih fun b hb => hA b (List.mem_cons_of_mem a hb)
    have hya : ¬ r y a := fun hle => h (trans_of r hle (hA a List.mem_cons_self))
    refine ⟨B', ?_⟩
    rw [List.cons_append, List.orderedInsert_of_not_le r _ hya, heq, List.cons_append]

theorem takeWhile_length [IsTrans α r] [Std.Total r] (x : α) {l : List α} (h : l.Pairwise r) :
    (l.takeWhile fun b => ¬ r x b).length = l.countP fun b => ¬ r x b := by
  induction l with
  | nil => rfl
  | cons b l ih =>
    obtain ⟨hb, hl⟩ := List.pairwise_cons.mp h
    by_cases hxb : r x b
    · rw [List.takeWhile_cons_of_neg (by simpa using hxb), List.countP_cons_of_neg (by simpa using hxb)]
      refine (List.countP_eq_zero.mpr ?_).symm
      intro c hc
      have hxc : r x c := trans_of r hxb (hb c hc)
      simpa using hxc
    · rw [List.takeWhile_cons_of_pos (by simpa using hxb), List.countP_cons_of_pos (by simpa using hxb),
        List.length_cons, ih hl]

/-- **The place of an element in a stable sort.** -/
theorem insertionSort_rank [IsTrans α r] [Std.Total r] (front : List α) (x : α) (back : List α) :
    ∃ A B, (front ++ x :: back).insertionSort r = A ++ x :: B ∧ A.length = rank r front x back ∧
      ∀ a ∈ A, r a x := by
  induction front with
  | nil =>
    have hsorted := List.pairwise_insertionSort r back
    refine ⟨_, _, List.insertionSort_cons_eq_take_drop r x back, ?_, ?_⟩
    · rw [takeWhile_length x hsorted, rank, List.countP_nil, Nat.zero_add]
      exact (List.perm_insertionSort r back).countP_eq _
    · intro a ha
      have hxa : ¬ r x a := by simpa using List.mem_takeWhile_imp ha
      exact (Std.Total.total x a).resolve_left hxa
  | cons y front ih =>
    obtain ⟨A, B, heq, hlength, hA⟩ := ih
    rw [List.cons_append, List.insertionSort_cons, heq]
    by_cases hyx : r y x
    · obtain ⟨A', heq', hlength', hA'⟩ := orderedInsert_before (B := B) hA hyx
      refine ⟨A', B, heq', ?_, hA'⟩
      rw [hlength', hlength, rank, rank, List.countP_cons_of_pos (by simpa using hyx)]
      omega
    · obtain ⟨B', heq'⟩ := orderedInsert_behind (B := B) hA hyx
      refine ⟨A, B', heq', ?_, hA⟩
      rw [hlength, rank, rank, List.countP_cons_of_neg (by simpa using hyx)]

/-- **What a cut leaves** of a list without repetition: the elements with fewer than `cap` before them. -/
theorem mem_take_insertionSort_iff [IsTrans α r] [Std.Total r] {front back : List α} {x : α}
    (hnodup : (front ++ x :: back).Nodup) (cap : ℕ) :
    x ∈ ((front ++ x :: back).insertionSort r).take cap ↔ rank r front x back < cap := by
  obtain ⟨A, B, heq, hlength, -⟩ := @insertionSort_rank α r _ _ _ front x back
  have hsorted : (A ++ x :: B).Nodup := by
    rw [← heq]
    exact (List.perm_insertionSort r _).nodup_iff.mpr hnodup
  obtain ⟨-, -, hdisjoint⟩ := List.nodup_append.mp hsorted
  rw [heq, ← hlength, List.take_append, List.mem_append]
  constructor
  · intro h
    rcases h with hA | hB
    · exact absurd rfl (hdisjoint x (List.mem_of_mem_take hA) x List.mem_cons_self)
    · by_contra hle
      rw [Nat.sub_eq_zero_of_le (by omega), List.take_zero] at hB
      exact List.not_mem_nil hB
  · intro hlt
    right
    obtain ⟨k, hk⟩ : ∃ k, cap - A.length = k + 1 := ⟨cap - A.length - 1, by omega⟩
    rw [hk, List.take_succ_cons]
    exact List.mem_cons_self

end Vexcoder.Lib.StableRank
