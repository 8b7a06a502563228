import Mathlib.Algebra.BigOperators.Group.List.Basic
import Mathlib.Algebra.GroupWithZero.Nat
import Mathlib.Data.List.Infix

/-!
# Offsets into a text of sized items

A text is a list of items, and each item takes up some units of storage, as a character takes up the
bytes of its encoding.  An offset counts units.  A text can be cut at an offset only where one item
ends and the next one starts:

* `cut size n s` is the text in front of the offset `n` and the text behind it;
* `slice size a b s` is the text between two offsets;
* `floor size s n` is the last offset up to `n` that lies between two items.

Every rule below speaks about a text that is written as `t ++ u`: the offset `extent size t` cuts it
into `t` and `u`.
-/

namespace Vexcoder.Lib.Offsets

variable {α : Type*} (size : α → ℕ)

def extent (s : List α) : ℕ := (s.map size).sum

@[simp] theorem extent_nil : extent size [] = 0 := rfl

@[simp] theorem extent_cons (a : α) (s : List α) : extent size (a :: s) = size a + extent size s :=
  List.sum_cons

@[simp] theorem extent_append (s t : List α) :
    extent size (s ++ t) = extent size s + extent size t := by
  rw [extent, List.map_append, List.sum_append]
  rfl

theorem extent_le_prefixed {t s : List α} (h : t <+: s) : extent size t ≤ extent size s := by
  obtain ⟨u, rfl⟩ := h
  rw [extent_append]
  omega

/-! ### Cutting -/

/-- The text in front of the offset and the text behind it, when the offset lies between two items. -/
def cut : ℕ → List α → Option (List α × List α)
  | n, [] => if n = 0 then some ([], []) else none
  | n, a :: s =>
    if n = 0 then some ([], a :: s)
    else if size a ≤ n then (cut (n - size a) s).map fun r => (a :: r.1, r.2)
    else none

/-- The offset lies between two items, or at an end of the text. -/
def isBoundary (s : List α) (n : ℕ) : Bool := (cut size n s).isSome

def slice (a b : ℕ) (s : List α) : Option (List α) :=
  if a ≤ b then (cut size b s).bind fun r => (cut size a r.1).map Prod.snd else none

/-- The last boundary up to the offset `n`, looked for downwards. -/
def floorFrom (s : List α) : ℕ → ℕ
  | 0 => 0
  | n + 1 => if isBoundary size s (n + 1) then n + 1 else floorFrom s n

def floor (s : List α) (n : ℕ) : ℕ := floorFrom size s (min n (extent size s))

variable {size}

theorem cut_sound {n : ℕ} {s t u : List α} (h : cut size n s = some (t, u)) :
    s = t ++ u ∧ extent size t = n := by
  induction s generalizing n t with
  | nil =>
    rw [cut] at h
    split at h
    · rename_i hn
      cases h
      exact ⟨rfl, hn.symm⟩
    · cases h
  | cons a s ih =>
    rw [cut] at h
    split at h
    · rename_i hn
      cases h
      exact ⟨rfl, hn.symm⟩
    · split at h
      · obtain ⟨⟨t', u'⟩, hcut, heq⟩ := Option.map_eq_some_iff.mp h
        obtain ⟨rfl, rfl⟩ := Prod.mk.inj heq
        obtain ⟨rfl, hextent⟩ := ih hcut
        refine ⟨rfl, ?_⟩
        rw [extent_cons, hextent]
        omega
      · cases h

section Positive

variable (pos : ∀ a, 0 < size a)

include pos

theorem extent_eq_zero_iff {s : List α} : extent size s = 0 ↔ s = [] := by
  cases s with
  | nil => simp
  | cons a s =>
    have := pos a
    simp only [extent_cons, reduceCtorEq, iff_false]
    omega

variable {b : ℕ} (t s u : List α) (n : ℕ)

theorem cut_append : cut size (extent size t) (t ++ u) = some (t, u) := by
  induction t with
  | nil => cases u <;> simp [cut]
  | cons a t ih =>
    have hne : size a + extent size t ≠ 0 := by
      have := pos a
      omega
    rw [List.cons_append, extent_cons, cut, if_neg hne, if_pos (Nat.le_add_right _ _),
      Nat.add_sub_cancel_left, ih]
    rfl

theorem cut_eq_some_iff {n : ℕ} {s t u : List α} :
    cut size n s = some (t, u) ↔ s = t ++ u ∧ extent size t = n := by
  constructor
  · exact cut_sound
  · rintro ⟨rfl, rfl⟩
    exact cut_append pos t u

theorem isBoundary_iff {s : List α} {n : ℕ} :
    isBoundary size s n = true ↔ ∃ t u, s = t ++ u ∧ extent size t = n := by
  rw [isBoundary, Option.isSome_iff_exists]
  constructor
  · rintro ⟨⟨t, u⟩, h⟩
    exact ⟨t, u, cut_sound h⟩
  · rintro ⟨t, u, h⟩
    exact ⟨(t, u), (cut_eq_some_iff pos).mpr h⟩

theorem prefix_unique {t t' u u' : List α} (h : t ++ u = t' ++ u')
    (hextent : extent size t = extent size t') : t = t' ∧ u = u' := by
  have hleft := cut_append pos t u
  rw [h, hextent, cut_append pos t' u'] at hleft
  obtain ⟨rfl, rfl⟩ := Prod.mk.inj (Option.some.inj hleft)
  exact ⟨rfl, rfl⟩

theorem prefix_of_le {t t' u u' : List α} (h : t ++ u = t' ++ u')
    (hextent : extent size t ≤ extent size t') : t <+: t' := by
  rcases List.append_eq_append_iff.mp h with ⟨m, rfl, -⟩ | ⟨m, rfl, -⟩
  · exact List.prefix_append _ _
  · rw [extent_append] at hextent
    have hzero : extent size m = 0 := by omega
    obtain rfl := (extent_eq_zero_iff pos).mp hzero
    rw [List.append_nil]

theorem slice_append (m u : List α) :
    slice size (extent size t) (extent size t + extent size m) (t ++ (m ++ u)) = some m := by
  rw [slice, if_pos (Nat.le_add_right _ _), ← List.append_assoc, ← extent_append, cut_append pos (t ++ m) u]
  show (cut size (extent size t) (t ++ m)).map Prod.snd = some m
  rw [cut_append pos t m]
  rfl

theorem slice_eq_some_iff {a : ℕ} {s m : List α} :
    slice size a b s = some m ↔
      ∃ t u, s = t ++ (m ++ u) ∧ extent size t = a ∧ extent size t + extent size m = b := by
  constructor
  · intro h
    rw [slice] at h
    split at h
    · obtain ⟨⟨r, u⟩, hcut, hrest⟩ := Option.bind_eq_some_iff.mp h
      obtain ⟨⟨t, m'⟩, hcut', rfl⟩ := Option.map_eq_some_iff.mp hrest
      obtain ⟨rfl, rfl⟩ := cut_sound hcut
      obtain ⟨rfl, rfl⟩ := cut_sound hcut'
      exact ⟨t, u, List.append_assoc _ _ _, rfl, (extent_append _ _ _).symm⟩
    · cases h
  · rintro ⟨t, u, rfl, rfl, rfl⟩
    exact slice_append pos t m u

omit pos in
theorem slice_of_gt {a : ℕ} (h : b < a) (s : List α) : slice size a b s = none := by
  rw [slice, if_neg (by omega)]

/-! ### The last boundary up to an offset -/

omit pos in
theorem isBoundary_zero : isBoundary size s 0 = true := by
  cases s <;> rfl

theorem isBoundary_extent : isBoundary size (t ++ u) (extent size t) = true :=
  (isBoundary_iff pos).mpr ⟨t, u, rfl, rfl⟩

omit pos in
theorem floorFrom_isBoundary : isBoundary size s (floorFrom size s n) = true := by
  induction n with
  | zero => exact isBoundary_zero s
  | succ n ih =>
    rw [floorFrom]
    split
    · assumption
    · exact ih

omit pos in
theorem floor_isBoundary : isBoundary size s (floor size s n) = true :=
  floorFrom_isBoundary s _

omit pos in
theorem floorFrom_le : floorFrom size s n ≤ n := by
  induction n with
  | zero => exact Nat.le_refl 0
  | succ n ih =>
    rw [floorFrom]
    split <;> omega

omit pos in
theorem floor_le : floor size s n ≤ n :=
  Nat.le_trans (floorFrom_le s _) (Nat.min_le_left _ _)

omit pos in
theorem floor_of_isBoundary {s : List α} {n : ℕ} (hn : n ≤ extent size s)
    (h : isBoundary size s n = true) : floor size s n = n := by
  rw [floor, Nat.min_eq_left hn]
  cases n with
  | zero => rfl
  | succ n => rw [floorFrom, if_pos h]

theorem floor_extent : floor size (t ++ u) (extent size t) = extent size t :=
  floor_of_isBoundary (extent_le_prefixed size (List.prefix_append t u)) (isBoundary_extent pos t u)

omit pos in
theorem le_floorFrom {s : List α} {n : ℕ} (hb : isBoundary size s b = true) (h : b ≤ n) :
    b ≤ floorFrom size s n := by
  induction n with
  | zero => exact h
  | succ n ih =>
    rw [floorFrom]
    split
    · exact h
    rename_i hnot
    have hne : b ≠ n + 1 := by
      rintro rfl
      exact hnot hb
    exact ih (by omega)

theorem le_floor {n : ℕ} (h : extent size t ≤ n) : extent size t ≤ floor size (t ++ u) n :=
  le_floorFrom (isBoundary_extent pos t u)
    (Nat.le_min.mpr ⟨h, extent_le_prefixed size (List.prefix_append t u)⟩)

end Positive

end Vexcoder.Lib.Offsets
