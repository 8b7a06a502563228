import Vexcoder.Base.Str
import Vexcoder.Lib.Offsets

/-!
# Byte offsets into a string

The slices of the program's text: a string is cut at byte offsets, and a cut inside a character is a
panic.  The rules are those of `Vexcoder.Lib.Offsets` for characters and the bytes of their encoding.
-/

namespace Vexcoder.Base

open Lib.Offsets

theorem utf8Size_pos (c : Char) : 0 < c.utf8Size := Char.utf8Size_pos c

variable (s t u : List Char) (n : ℕ)

theorem byteLen_eq : byteLen s = extent Char.utf8Size s := rfl

@[simp] theorem byteLen_nil : byteLen [] = 0 := rfl

@[simp] theorem byteLen_cons (c : Char) (s : List Char) : byteLen (c :: s) = c.utf8Size + byteLen s :=
  extent_cons _ c s

@[simp] theorem byteLen_append : byteLen (s ++ t) = byteLen s + byteLen t :=
  extent_append _ s t

theorem byteLen_replicate (c : Char) : byteLen (List.replicate n c) = n * c.utf8Size := by
  rw [byteLen, List.map_replicate, List.sum_replicate]
  rfl

theorem byteLen_eq_zero_iff : byteLen s = 0 ↔ s = [] := extent_eq_zero_iff utf8Size_pos

/-- `&s[a..b]`; `none` is the panic. -/
def sliceBytes (a b : ℕ) (s : List Char) : Option (List Char) := slice Char.utf8Size a b s

/-- `&s[a..]` -/
def sliceFrom (a : ℕ) (s : List Char) : Option (List Char) := sliceBytes a (byteLen s) s

/-- `&s[..b]` -/
def sliceTo (b : ℕ) (s : List Char) : Option (List Char) := sliceBytes 0 b s

/-- `str::floor_char_boundary`, and the loops of the program that do the same. -/
def floorCharBoundary (n : ℕ) (s : List Char) : ℕ := floor Char.utf8Size s n

theorem isCharBoundary_iff (s : List Char) :
    isCharBoundary n s = true ↔ ∃ t u, s = t ++ u ∧ byteLen t = n := by
  induction s generalizing n with
  | nil =>
    cases n with
    | zero => exact ⟨fun _ => ⟨[], [], rfl, rfl⟩, fun _ => rfl⟩
    | succ n =>
      refine ⟨fun h => absurd h Bool.false_ne_true, fun ⟨t, u, hs, hlen⟩ => ?_⟩
      obtain ⟨rfl, -⟩ := List.append_eq_nil_iff.mp hs.symm
      cases hlen
  | cons c s ih =>
    cases n with
    | zero => exact ⟨fun _ => ⟨[], c :: s, rfl, rfl⟩, fun _ => rfl⟩
    | succ n =>
      rw [isCharBoundary]
      constructor
      · intro h
        split at h
        · obtain ⟨t, u, rfl, hlen⟩ := (ih _).mp h
          refine ⟨c :: t, u, rfl, ?_⟩
          rw [byteLen_cons]
          omega
        · cases h
      · rintro ⟨t, u, hs, hlen⟩
        cases t with
        | nil => cases hlen
        | cons d t =>
          obtain ⟨rfl, rfl⟩ := List.cons.inj hs
          rw [byteLen_cons] at hlen
          rw [if_pos (by omega)]
          exact (ih _).mpr ⟨t, u, rfl, by omega⟩

theorem isCharBoundary_append : isCharBoundary (byteLen t) (t ++ u) = true :=
  (isCharBoundary_iff _ _).mpr ⟨t, u, rfl, rfl⟩

theorem isCharBoundary_le {n : ℕ} {s : List Char} (h : isCharBoundary n s = true) : n ≤ byteLen s := by
  obtain ⟨t, u, rfl, rfl⟩ := (isCharBoundary_iff _ _).mp h
  rw [byteLen_append]
  exact Nat.le_add_right _ _

theorem isCharBoundary_inside {c : Char} {k : ℕ} (hpos : 0 < k) (hlt : k < c.utf8Size) :
    isCharBoundary (byteLen s + k) (s ++ c :: u) = false := by
  induction s with
  | nil =>
    obtain ⟨n, rfl⟩ := Nat.exists_eq_add_of_lt hpos
    rw [byteLen_nil, Nat.zero_add, List.nil_append, isCharBoundary, if_neg (by omega)]
  | cons d s ih =>
    obtain ⟨n, hn⟩ : ∃ n, d.utf8Size + byteLen s + k = n + 1 :=
      ⟨d.utf8Size + byteLen s + k - 1, by omega⟩
    rw [byteLen_cons, List.cons_append, hn, isCharBoundary, if_pos (by omega),
      show n + 1 - d.utf8Size = byteLen s + k by omega, ih]

theorem floorCharBoundary_isCharBoundary (s : List Char) : isCharBoundary (floorCharBoundary n s) s = true :=
  (isCharBoundary_iff _ _).mpr ((isBoundary_iff utf8Size_pos).mp (floor_isBoundary s n))

theorem floorCharBoundary_of_boundary {n : ℕ} {s : List Char} (h : isCharBoundary n s = true) :
    floorCharBoundary n s = n := by
  obtain ⟨t, u, rfl, rfl⟩ := (isCharBoundary_iff _ _).mp h
  exact floor_extent utf8Size_pos t u

theorem sliceBytes_append (m u : List Char) :
    sliceBytes (byteLen t) (byteLen t + byteLen m) (t ++ (m ++ u)) = some m :=
  slice_append utf8Size_pos t m u

theorem sliceBytes_eq_some_iff {a b : ℕ} {s m : List Char} :
    sliceBytes a b s = some m ↔ ∃ t u, s = t ++ (m ++ u) ∧ byteLen t = a ∧ byteLen t + byteLen m = b :=
  slice_eq_some_iff utf8Size_pos

theorem sliceFrom_append : sliceFrom (byteLen t) (t ++ u) = some u := by
  have h := sliceBytes_append t u []
  rwa [List.append_nil, ← byteLen_append] at h

theorem sliceTo_append : sliceTo (byteLen t) (t ++ u) = some t := by
  have h := sliceBytes_append [] t u
  rwa [byteLen_nil, Nat.zero_add] at h

theorem sliceTo_isSome_iff (s : List Char) : (sliceTo n s).isSome = true ↔ isCharBoundary n s = true := by
  rw [isCharBoundary_iff, Option.isSome_iff_exists]
  constructor
  · rintro ⟨m, h⟩
    obtain ⟨t, u, rfl, ht, hm⟩ := sliceBytes_eq_some_iff.mp h
    refine ⟨t ++ m, u, (List.append_assoc _ _ _).symm, ?_⟩
    rw [byteLen_append]
    exact hm
  · rintro ⟨t, u, rfl, rfl⟩
    exact ⟨t, sliceTo_append t u⟩

end Vexcoder.Base
