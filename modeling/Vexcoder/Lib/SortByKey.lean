import Mathlib.Data.List.Sort

/-!
# Sorting by a key

`sortByKey` is stable: elements with the same key stay in the order they had.  So where the order is
not known, the result is known exactly as far as elements with the same key agree
(`sortByKey_known_iff`).
-/

namespace Vexcoder.Lib.SortByKey

variable {α β : Type*} {key : α → ℕ}

def sortByKey (key : α → ℕ) (l : List α) : List α := l.insertionSort fun a b => key a ≤ key b

theorem sortByKey_perm (l : List α) : (sortByKey key l).Perm l :=
  List.perm_insertionSort _ l

theorem sortByKey_sorted (l : List α) : (sortByKey key l).Pairwise fun a b => key a ≤ key b := by
  exact List.pairwise_insertionSort _ l

theorem sortByKey_of_sorted {l : List α} (h : l.Pairwise fun a b => key a ≤ key b) : sortByKey key l = l :=
  List.Pairwise.insertionSort_eq h

theorem sortByKey_map {γ : Type*} (g : γ → α) (l : List γ) :
    sortByKey key (l.map g) = (sortByKey (key ∘ g) l).map g :=
  (List.map_insertionSort (fun a b => key (g a) ≤ key (g b)) _ g l fun _ _ _ _ => Iff.rfl).symm

/-- Two sorted lists of the same elements show the same, when elements with the same key do. -/
theorem map_eq_of_sorted {f : α → β} {l l' : List α} (hperm : l.Perm l')
    (hl : l.Pairwise fun a b => key a ≤ key b) (hl' : l'.Pairwise fun a b => key a ≤ key b)
    (hagree : ∀ a ∈ l, ∀ b ∈ l, key a = key b → f a = f b) : l.map f = l'.map f := by
  have hpairs : l.map (fun a => (key a, f a)) = l'.map fun a => (key a, f a) := by
    have hsorted : (l.map fun a => (key a, f a)).Pairwise fun p q => p.1 ≤ q.1 :=
      List.pairwise_map.mpr hl
    refine (hperm.map _).eq_of_pairwise ?_ hsorted (List.pairwise_map.mpr hl')
    intro p q hp hq hle hge
    obtain ⟨a, ha, rfl⟩ := List.mem_map.mp hp
    obtain ⟨b, hb, rfl⟩ := List.mem_map.mp hq
    have hkey : key a = key b := Nat.le_antisymm hle hge
    exact Prod.ext hkey (hagree a ha b (hperm.mem_iff.mpr hb) hkey)
  have := congrArg (List.map Prod.snd) hpairs
  rw [List.map_map, List.map_map] at this
  exact this

/-- How many elements come before those with the key of `a`. -/
def rank (key : α → ℕ) (l : List α) (a : α) : ℕ := (l.filter fun b => key b < key a).length

theorem rank_perm {l l' : List α} (h : l.Perm l') (a : α) : rank key l a = rank key l' a :=
  (h.filter _).length_eq

theorem takeWhile_eq_filter {l : List α} (h : l.Pairwise fun a b => key a ≤ key b) (k : ℕ) :
    l.takeWhile (fun b => ¬ k ≤ key b) = l.filter fun b => key b < k := by
  induction l with
  | nil => rfl
  | cons a l ih =>
    obtain ⟨hle, hrest⟩ := List.pairwise_cons.mp h
    by_cases ha : key a < k
    · rw [List.takeWhile_cons_of_pos (by simpa using ha), List.filter_cons_of_pos (by simpa using ha),
        ih hrest]
    rw [List.takeWhile_cons_of_neg (by simpa using ha), List.filter_cons_of_neg (by simpa using ha)]
    refine (List.filter_eq_nil_iff.mpr fun b hb => ?_).symm
    have := hle b hb
    simp only [decide_eq_true_eq]
    omega

/-- What stands first comes out as the first of the elements with its key. -/
theorem sortByKey_cons_getElem? (a : α) (l : List α) :
    (sortByKey key (a :: l))[rank key (a :: l) a]? = some a := by
  have hrank : rank key (a :: l) a = ((sortByKey key l).takeWhile fun b => ¬ key a ≤ key b).length := by
    rw [takeWhile_eq_filter (sortByKey_sorted l), rank, List.filter_cons_of_neg (by simp)]
    exact ((sortByKey_perm l).filter _).length_eq.symm
  have hsort : sortByKey key (a :: l) =
      (sortByKey key l).takeWhile (fun b => ¬ key a ≤ key b) ++
        a :: (sortByKey key l).dropWhile (fun b => ¬ key a ≤ key b) :=
    List.insertionSort_cons_eq_take_drop _ a l
  rw [hrank, hsort, List.getElem?_append_right le_rfl, Nat.sub_self]
  rfl

/-- **Sorting what comes in an unknown order** shows the same for every order exactly when elements
with the same key show the same. -/
theorem sortByKey_known_iff [DecidableEq α] {f : α → β} {l : List α} {shown : List β} :
    (∀ l' : List α, l'.Perm l → (sortByKey key l').map f = shown) ↔
      (sortByKey key l).map f = shown ∧ ∀ a ∈ l, ∀ b ∈ l, key a = key b → f a = f b := by
  constructor
  · intro h
    refine ⟨h l .rfl, fun a ha b hb hkey => ?_⟩
    -- the element put first is the one that is shown at the rank of the key
    have hfirst : ∀ c ∈ l, shown[rank key l c]? = some (f c) := by
      intro c hc
      have hperm : (c :: l.erase c).Perm l := (List.perm_cons_erase hc).symm
      rw [← h _ hperm, ← rank_perm hperm, List.getElem?_map, sortByKey_cons_getElem?]
      rfl
    have hrank : rank key l a = rank key l b := by rw [rank, rank, hkey]
    have := hfirst a ha
    rw [hrank, hfirst b hb] at this
    exact (Option.some.inj this).symm
  · rintro ⟨rfl, hagree⟩ l' hperm
    have hperm' : (sortByKey key l').Perm (sortByKey key l) :=
      (sortByKey_perm l').trans (hperm.trans (sortByKey_perm l).symm)
    refine map_eq_of_sorted hperm' (sortByKey_sorted l') (sortByKey_sorted l) ?_
    intro a ha b hb
    have hmem : ∀ c ∈ sortByKey key l', c ∈ l := fun c hc =>
      ((sortByKey_perm l').trans hperm).mem_iff.mp hc
    exact hagree a (hmem a ha) b (hmem b hb)

theorem rank_getElem {l : List α} (h : l.Pairwise fun a b => key a < key b) {i : ℕ}
    (hi : i < l.length) : rank key l l[i] = i := by
  induction l generalizing i with
  | nil => exact absurd hi (Nat.not_lt_zero i)
  | cons a l ih =>
    obtain ⟨hlt, hrest⟩ := List.pairwise_cons.mp h
    cases i with
    | zero =>
      rw [List.getElem_cons_zero, rank, List.filter_cons_of_neg (by simp)]
      rw [List.filter_eq_nil_iff.mpr, List.length_nil]
      intro b hb
      have := hlt b hb
      simp only [decide_eq_true_eq]
      omega
    | succ i =>
      have hi' : i < l.length := Nat.lt_of_succ_lt_succ hi
      have ha : key a < key l[i] := hlt _ (List.getElem_mem hi')
      have hrank := ih hrest hi'
      rw [rank] at hrank
      rw [List.getElem_cons_succ, rank, List.filter_cons_of_pos (by simpa using ha), List.length_cons, hrank]

end Vexcoder.Lib.SortByKey
