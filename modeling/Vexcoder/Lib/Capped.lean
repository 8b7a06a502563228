import Vexcoder.Lib.Offsets

/-!
# A store of limited size that is filled piece by piece

Each item takes up some units of storage.  A piece is pushed item by item until one of its items no
longer fits (`push`); the next piece is pushed in the same way, whether or not an earlier one was cut
short.  `fitting n s` is the longest part of `s` from its start that takes up at most `n` units.

What is stored never exceeds the limit (`extent_stored_le`), and it is shorter than the pieces exactly
when these together exceed it (`extent_stored_lt_iff`).  The store is a prefix of the pieces run together as
long as no piece that arrives behind the limit begins with an item small enough for the room that is
left, and from the first such piece on it never is again (`stored_prefix_iff`).
-/

namespace Vexcoder.Lib.Capped

open Lib.Offsets

variable {α : Type*} (size : α → ℕ)

/-- The longest part from the start that takes up at most `n` units. -/
def fitting : ℕ → List α → List α
  | _, [] => []
  | n, a :: s => if size a ≤ n then a :: fitting (n - size a) s else []

/-- Push the items of a piece until one does not fit; the flag says whether one did not. -/
def push (limit : ℕ) (kept : List α) : List α → List α × Bool
  | [] => (kept, false)
  | a :: s =>
    if limit < extent size kept + size a then (kept, true)
    else push limit (kept ++ [a]) s

/-- What is stored of the pieces. -/
def stored (limit : ℕ) (pieces : List (List α)) : List α :=
  pieces.foldl (fun kept piece => (push size limit kept piece).1) []

/-- No piece that arrives behind the limit begins with an item for which there is room. -/
def NoLateFit (limit : ℕ) (pieces : List (List α)) : Prop :=
  ∀ earlier a rest later, pieces = earlier ++ (a :: rest) :: later →
    limit < extent size earlier.flatten →
    limit < extent size (fitting size limit earlier.flatten) + size a

variable {size}

/-! ### What fits -/

theorem fitting_prefixed (n : ℕ) (s : List α) : fitting size n s <+: s := by
  induction s generalizing n with
  | nil => exact List.nil_prefix
  | cons a s ih =>
    rw [fitting]
    split
    · exact List.cons_prefix_cons.mpr ⟨rfl, ih (n - size a)⟩
    · exact List.nil_prefix

theorem extent_fitting_le (n : ℕ) (s : List α) : extent size (fitting size n s) ≤ n := by
  induction s generalizing n with
  | nil => exact Nat.zero_le n
  | cons a s ih =>
    rw [fitting]
    split
    · have hrest := ih (n - size a)
      rw [extent_cons]
      omega
    · exact Nat.zero_le n

variable {n limit : ℕ} {s kept : List α} {pieces : List (List α)}

theorem fitting_of_le (h : extent size s ≤ n) : fitting size n s = s := by
  induction s generalizing n with
  | nil => rfl
  | cons a s ih =>
    rw [extent_cons] at h
    have hfit : size a ≤ n := by omega
    rw [fitting, if_pos hfit, ih (by omega)]

theorem fitting_append_of_le (t : List α) (h : extent size s ≤ n) :
    fitting size n (s ++ t) = s ++ fitting size (n - extent size s) t := by
  induction s generalizing n with
  | nil => simp
  | cons a s ih =>
    rw [extent_cons] at h ⊢
    have hfit : size a ≤ n := by omega
    rw [List.cons_append, fitting, if_pos hfit, ih (by omega), List.cons_append,
      show n - size a - extent size s = n - (size a + extent size s) from by omega]

/-- A text that does not fit is cut in the same place, whatever comes behind it, and the item at
the cut is the first one without room. -/
theorem fitting_cut (h : n < extent size s) :
    ∃ b rest, s = fitting size n s ++ b :: rest ∧ n < extent size (fitting size n s) + size b ∧
      ∀ t, fitting size n (s ++ t) = fitting size n s := by
  induction s generalizing n with
  | nil =>
    rw [extent_nil] at h
    omega
  | cons a s ih =>
    by_cases hfit : size a ≤ n
    · rw [extent_cons] at h
      have hover : n - size a < extent size s := by omega
      obtain ⟨b, rest, hs, hb, hcut⟩ := ih hover
      refine ⟨b, rest, ?_, ?_, ?_⟩
      · rw [fitting, if_pos hfit, List.cons_append, ← hs]
      · rw [fitting, if_pos hfit, extent_cons]
        omega
      · intro t
        rw [List.cons_append, fitting, fitting, if_pos hfit, if_pos hfit, hcut t]
    · refine ⟨a, s, ?_, ?_, ?_⟩
      · rw [fitting, if_neg hfit]
        rfl
      · omega
      · intro t
        rw [List.cons_append, fitting, fitting, if_neg hfit, if_neg hfit]

theorem fitting_append_of_lt (t : List α) (h : n < extent size s) :
    fitting size n (s ++ t) = fitting size n s := by
  obtain ⟨_, _, _, _, hcut⟩ := fitting_cut h
  exact hcut t

/-! ### One piece -/

theorem push_eq (h : extent size kept ≤ limit) (s : List α) :
    push size limit kept s = (kept ++ fitting size (limit - extent size kept) s,
      decide (limit < extent size kept + extent size s)) := by
  induction s generalizing kept with
  | nil => simp [push, fitting, h]
  | cons a s ih =>
    rw [push, fitting, extent_cons]
    by_cases hfull : limit < extent size kept + size a
    · rw [if_pos hfull, if_neg (by omega), List.append_nil, decide_eq_true (by omega)]
    have hgrown : extent size (kept ++ [a]) = extent size kept + size a := by
      rw [extent_append, extent_cons, extent_nil, Nat.add_zero]
    rw [if_neg hfull, if_pos (by omega), ih (by omega), hgrown, List.append_assoc, Nat.add_assoc, Nat.sub_sub]
    rfl

theorem push_of_le (h : extent size kept + extent size s ≤ limit) :
    push size limit kept s = (kept ++ s, false) := by
  rw [push_eq (by omega), fitting_of_le (by omega), decide_eq_false (by omega)]

theorem push_of_lt {a : α} (s : List α) (h : limit < extent size kept + size a) :
    push size limit kept (a :: s) = (kept, true) := by
  rw [push, if_pos h]

/-! ### All pieces -/

theorem stored_snoc (limit : ℕ) (pieces : List (List α)) (piece : List α) :
    stored size limit (pieces ++ [piece]) = (push size limit (stored size limit pieces) piece).1 := by
  rw [stored, List.foldl_append]
  rfl

theorem extent_stored_le (limit : ℕ) (pieces : List (List α)) :
    extent size (stored size limit pieces) ≤ limit := by
  induction pieces using List.reverseRecOn with
  | nil => exact Nat.zero_le limit
  | append_singleton pieces piece ih =>
    have hroom : extent size (fitting size (limit - extent size (stored size limit pieces)) piece) ≤
        limit - extent size (stored size limit pieces) := extent_fitting_le _ piece
    rw [stored_snoc, push_eq ih, extent_append]
    omega

theorem stored_snoc_eq (limit : ℕ) (pieces : List (List α)) (piece : List α) :
    stored size limit (pieces ++ [piece]) = stored size limit pieces ++
      fitting size (limit - extent size (stored size limit pieces)) piece := by
  rw [stored_snoc, push_eq (extent_stored_le limit pieces)]

theorem stored_of_le (h : extent size pieces.flatten ≤ limit) :
    stored size limit pieces = pieces.flatten := by
  induction pieces using List.reverseRecOn with
  | nil => rfl
  | append_singleton pieces piece ih =>
    rw [List.flatten_append, extent_append, List.flatten_singleton] at h
    rw [stored_snoc_eq, ih (by omega), fitting_of_le (by omega), List.flatten_append, List.flatten_singleton]

theorem extent_stored_lt_iff :
    extent size (stored size limit pieces) < extent size pieces.flatten ↔
      limit < extent size pieces.flatten := by
  constructor
  · intro hlt
    by_contra hle
    rw [stored_of_le (by omega)] at hlt
    omega
  · intro hlimit
    have hle : extent size (stored size limit pieces) ≤ limit := extent_stored_le limit pieces
    omega

/-- The pieces exceed the limit with the next one when they did before or when it is cut short. -/
theorem exceeds_snoc (limit : ℕ) (pieces : List (List α)) (piece : List α) :
    limit < extent size (pieces ++ [piece]).flatten ↔
      limit < extent size pieces.flatten ∨ (push size limit (stored size limit pieces) piece).2 = true := by
  rw [push_eq (extent_stored_le limit pieces), decide_eq_true_iff, List.flatten_append, extent_append,
    List.flatten_singleton]
  by_cases hlimit : limit < extent size pieces.flatten
  · omega
  · rw [stored_of_le (by omega)]
    simp only [hlimit, false_or]

/-! ### When the store is a prefix -/

theorem NoLateFit.of_snoc {piece : List α} (h : NoLateFit size limit (pieces ++ [piece])) :
    NoLateFit size limit pieces := by
  intro earlier a rest later hsplit
  exact h earlier a rest (later ++ [piece]) (by rw [hsplit]; simp)

theorem noLateFit_of_le (h : extent size pieces.flatten ≤ limit) : NoLateFit size limit pieces := by
  intro earlier a rest later hsplit hlimit
  rw [hsplit, List.flatten_append, extent_append] at h
  omega

theorem stored_of_noLateFit (h : NoLateFit size limit pieces) :
    stored size limit pieces = fitting size limit pieces.flatten := by
  induction pieces using List.reverseRecOn with
  | nil => rfl
  | append_singleton pieces piece ih =>
    rw [stored_snoc_eq, ih h.of_snoc, List.flatten_append, List.flatten_singleton]
    by_cases hlimit : limit < extent size pieces.flatten
    · rw [fitting_append_of_lt piece hlimit]
      have hnone : fitting size (limit - extent size (fitting size limit pieces.flatten)) piece = [] := by
        cases piece with
        | nil => rfl
        | cons a rest =>
          have hlate := h pieces a rest [] rfl hlimit
          have hroom : extent size (fitting size limit pieces.flatten) ≤ limit :=
            extent_fitting_le limit pieces.flatten
          rw [fitting, if_neg (by omega)]
      rw [hnone, List.append_nil]
    · rw [fitting_of_le (by omega), fitting_append_of_le piece (by omega)]

section Positive

variable (pos : ∀ a, 0 < size a)

include pos

theorem prefixed_of_snoc {limit : ℕ} {pieces : List (List α)} {piece : List α}
    (h : stored size limit (pieces ++ [piece]) <+: (pieces ++ [piece]).flatten) :
    stored size limit pieces <+: pieces.flatten := by
  rw [stored_snoc_eq, List.flatten_append, List.flatten_singleton] at h
  have hkept : stored size limit pieces <+: pieces.flatten ++ piece :=
    (List.prefix_append _ _).trans h
  rcases List.prefix_or_prefix_of_prefix hkept (List.prefix_append _ _) with hle | hge
  · exact hle
  -- the store is never longer than the pieces, so it is the pieces
  obtain ⟨more, hmore⟩ := hge
  have hextent : extent size (stored size limit pieces) ≤ extent size pieces.flatten := by
    by_cases hlimit : limit < extent size pieces.flatten
    · have := extent_stored_lt_iff.mpr hlimit
      omega
    · rw [stored_of_le (by omega)]
  rw [← hmore, extent_append] at hextent
  have hnil : more = [] := (extent_eq_zero_iff pos).mp (by omega)
  rw [← hmore, hnil, List.append_nil]

/-- The store is a prefix exactly when no piece behind the limit begins with an item that fits. -/
theorem stored_prefix_iff {limit : ℕ} {pieces : List (List α)} :
    stored size limit pieces <+: pieces.flatten ↔ NoLateFit size limit pieces := by
  constructor
  · intro h
    induction pieces using List.reverseRecOn with
    | nil =>
      intro earlier a rest later hsplit
      simp at hsplit
    | append_singleton pieces piece ih =>
      have hkept := ih (prefixed_of_snoc pos h)
      intro earlier a rest later hsplit hlimit
      rcases List.eq_nil_or_concat later with rfl | ⟨later, last, rfl⟩
      · obtain ⟨rfl, hpiece⟩ := List.append_inj' hsplit rfl
        obtain rfl : piece = a :: rest := by simpa using hpiece
        by_contra hfits
        obtain ⟨b, behind, hcut, hb, -⟩ := fitting_cut hlimit
        rw [stored_snoc_eq, stored_of_noLateFit hkept, fitting, if_pos (by omega),
          List.flatten_append] at h
        generalize hK : fitting size limit pieces.flatten = K at *
        rw [hcut, List.append_assoc, List.cons_append, List.prefix_append_right_inj,
          List.cons_prefix_cons] at h
        rw [h.1] at hfits
        omega
      · refine hkept earlier a rest later ?_ hlimit
        have hinit : pieces ++ [piece] = (earlier ++ (a :: rest) :: later) ++ [last] := by
          rw [hsplit, List.concat_eq_append, List.append_assoc, List.cons_append]
        exact (List.append_inj' hinit rfl).1
  · intro h
    rw [stored_of_noLateFit h]
    exact fitting_prefixed limit pieces.flatten

end Positive

end Vexcoder.Lib.Capped
