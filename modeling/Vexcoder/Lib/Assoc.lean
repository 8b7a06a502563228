import Mathlib.Data.List.Nodup
import Mathlib.Data.List.Perm.Basic
import Mathlib.Algebra.GroupWithZero.Nat
import Mathlib.Order.Lattice

/-!
# Finite maps and sets as lists

`insertSorted` keeps the keys in order, as a tree map does; `insertLast` puts a new key last, as an
insertion-ordered map does.  Both put the new value in the place of an old one.  A set is a sorted
list of its elements (`insertElem`).
-/

namespace Vexcoder.Lib.Assoc

variable {κ β : Type*} [DecidableEq κ]

def keys (m : List (κ × β)) : List κ := m.map Prod.fst

def find? (k : κ) : List (κ × β) → Option β
  | [] => none
  | (l, v) :: m => if k = l then some v else find? k m

def erase (k : κ) (m : List (κ × β)) : List (κ × β) := m.filter fun entry => entry.1 ≠ k

def insertLast (k : κ) (v : β) : List (κ × β) → List (κ × β)
  | [] => [(k, v)]
  | (l, w) :: m => if k = l then (k, v) :: m else (l, w) :: insertLast k v m

variable {k : κ} {m : List (κ × β)} {v : β}

theorem mem_keys_iff_find? : k ∈ keys m ↔ (find? k m).isSome := by
  induction m with
  | nil => simp [keys, find?]
  | cons entry m ih =>
    obtain ⟨l, v⟩ := entry
    simp only [keys, List.map_cons, List.mem_cons, find?] at ih ⊢
    by_cases h : k = l
    · simp [h]
    · simp only [h, false_or, if_false]
      exact ih

theorem mem_keys_erase {l : κ} : l ∈ keys (erase k m) ↔ l ≠ k ∧ l ∈ keys m := by
  simp only [keys, erase, List.mem_map, List.mem_filter, decide_eq_true_eq]
  constructor
  · rintro ⟨entry, ⟨hm, hne⟩, rfl⟩
    exact ⟨hne, entry, hm, rfl⟩
  · rintro ⟨hne, entry, hm, rfl⟩
    exact ⟨entry, ⟨hm, hne⟩, rfl⟩

theorem find?_insertLast (k l : κ) (v : β) (m : List (κ × β)) :
    find? l (insertLast k v m) = if l = k then some v else find? l m := by
  induction m with
  | nil => simp [insertLast, find?]
  | cons entry m ih =>
    obtain ⟨a, w⟩ := entry
    simp only [insertLast]
    by_cases hk : k = a
    · subst hk
      simp only [if_true, find?]
      by_cases hl : l = k <;> simp [hl]
    · simp only [hk, if_false, find?, ih]
      by_cases hl : l = a
      · simp [hl, Ne.symm hk]
      · simp [hl]

/-! ### Keys without repetition -/

theorem find?_erase (k l : κ) (m : List (κ × β)) :
    find? l (erase k m) = if l = k then none else find? l m := by
  induction m with
  | nil => exact (ite_self none).symm
  | cons entry m ih =>
    obtain ⟨a, v⟩ := entry
    by_cases ha : a = k
    · subst ha
      have herase : erase a ((a, v) :: m) = erase a m :=
        List.filter_cons_of_neg (by simp only [ne_eq, not_true_eq_false, decide_false,
          Bool.false_eq_true, not_false_eq_true])
      rw [herase, ih, find?]
      by_cases hl : l = a
      · rw [if_pos hl, if_pos hl]
      · rw [if_neg hl, if_neg hl, if_neg hl]
    · have herase : erase k ((a, v) :: m) = (a, v) :: erase k m :=
        List.filter_cons_of_pos (decide_eq_true ha)
      rw [herase, find?, find?, ih]
      by_cases hl : l = a
      · rw [if_pos hl, if_pos hl, if_neg (hl ▸ ha)]
      · rw [if_neg hl, if_neg hl]

theorem mem_of_find? (h : find? k m = some v) : (k, v) ∈ m := by
  induction m with
  | nil => cases h
  | cons entry m ih =>
    obtain ⟨l, w⟩ := entry
    rw [find?] at h
    split at h
    · rename_i heq
      cases h
      rw [heq]
      exact List.mem_cons_self
    · exact List.mem_cons_of_mem _ (ih h)

theorem find?_append (k : κ) (m m' : List (κ × β)) : find? k (m ++ m') = (find? k m).or (find? k m') := by
  induction m with
  | nil => rfl
  | cons entry m ih =>
    obtain ⟨l, v⟩ := entry
    rw [List.cons_append, find?, find?]
    split
    · rfl
    · exact ih

theorem find?_filter (p : κ → Bool) (k : κ) (m : List (κ × β)) :
    find? k (m.filter fun entry => p entry.1) = if p k then find? k m else none := by
  induction m with
  | nil => exact (ite_self none).symm
  | cons entry m ih =>
    obtain ⟨l, v⟩ := entry
    rw [List.filter_cons, find?]
    by_cases own : k = l
    · subst own
      rw [if_pos rfl]
      split
      · rw [find?, if_pos rfl]
      · rename_i drop
        rw [ih, if_neg drop]
    · split
      · rw [find?, if_neg own]
        exact ih
      · exact ih

theorem find?_mapKey {f : κ → κ} (inj : ∀ l ∈ keys m, f l = f k → l = k) :
    find? (f k) (m.map fun entry => (f entry.1, entry.2)) = find? k m := by
  induction m with
  | nil => rfl
  | cons entry m ih =>
    obtain ⟨l, v⟩ := entry
    rw [List.map_cons, find?, find?]
    by_cases own : k = l
    · rw [if_pos own, if_pos (congrArg f own)]
    · rw [if_neg own, if_neg fun same => own (inj l List.mem_cons_self same.symm).symm]
      exact ih fun l' mem => inj l' (List.mem_cons_of_mem _ mem)

theorem notMem_keys_erase (k : κ) (m : List (κ × β)) : k ∉ keys (erase k m) := by
  intro h
  exact (mem_keys_erase.mp h).1 rfl

theorem erase_of_notMem_keys (h : k ∉ keys m) : erase k m = m := by
  refine List.filter_eq_self.mpr fun entry hmem => ?_
  simp only [decide_eq_true_eq]
  rintro rfl
  exact h (List.mem_map_of_mem hmem)

theorem erase_cons_self (k : κ) (v : β) (m : List (κ × β)) : erase k ((k, v) :: m) = erase k m :=
  List.filter_cons_of_neg (by simp)

theorem erase_cons_ne {l : κ} (h : ¬ k = l) (v : β) (m : List (κ × β)) :
    erase k ((l, v) :: m) = (l, v) :: erase k m :=
  List.filter_cons_of_pos (by simpa using Ne.symm h)

theorem find?_eq_none_iff : find? k m = none ↔ k ∉ keys m := by
  rw [mem_keys_iff_find?, Option.not_isSome_iff_eq_none]

theorem insertLast_of_notMem (h : k ∉ keys m) (v : β) : insertLast k v m = m ++ [(k, v)] := by
  induction m with
  | nil => rfl
  | cons entry m ih =>
    obtain ⟨l, w⟩ := entry
    simp only [keys, List.map_cons, List.mem_cons, not_or] at h
    rw [insertLast, if_neg h.1, List.cons_append, ih h.2]

theorem nodup_keys_erase (h : (keys m).Nodup) (k : κ) : (keys (erase k m)).Nodup :=
  h.sublist (List.filter_sublist.map Prod.fst)

theorem find?_of_mem (h : (keys m).Nodup) (hmem : (k, v) ∈ m) : find? k m = some v := by
  obtain ⟨w, hw⟩ := Option.isSome_iff_exists.mp
    (mem_keys_iff_find?.mp (List.mem_map_of_mem hmem : k ∈ keys m))
  have hsame := List.inj_on_of_nodup_map h (mem_of_find? hw) hmem rfl
  rw [show find? k m = some w from hw, show w = v from congrArg Prod.snd hsame]

/-- The entry of a key that is there, and the others. -/
theorem perm_of_find? (h : (keys m).Nodup) (hfind : find? k m = some v) : m.Perm ((k, v) :: erase k m) := by
  induction m with
  | nil => cases hfind
  | cons entry m ih =>
    obtain ⟨l, w⟩ := entry
    obtain ⟨hl, hm⟩ := List.nodup_cons.mp h
    rw [find?] at hfind
    split at hfind
    · rename_i heq
      subst heq
      obtain rfl := Option.some.inj hfind
      rw [erase_cons_self, erase_of_notMem_keys hl]
    · rename_i hne
      rw [erase_cons_ne hne]
      exact ((ih hm hfind).cons (l, w)).trans (List.Perm.swap _ _ _)

theorem insertLast_perm (h : (keys m).Nodup) (k : κ) (v : β) :
    (insertLast k v m).Perm ((k, v) :: erase k m) := by
  induction m with
  | nil => exact List.Perm.refl _
  | cons entry m ih =>
    obtain ⟨l, w⟩ := entry
    obtain ⟨hl, hm⟩ := List.nodup_cons.mp h
    rw [insertLast]
    split
    · rename_i heq
      subst heq
      rw [erase_cons_self, erase_of_notMem_keys hl]
    · rename_i hne
      rw [erase_cons_ne hne]
      exact ((ih hm).cons (l, w)).trans (List.Perm.swap _ _ _)

theorem nodup_keys_insertLast (h : (keys m).Nodup) (k : κ) (v : β) : (keys (insertLast k v m)).Nodup := by
  have hperm : (keys (insertLast k v m)).Perm (k :: keys (erase k m)) :=
    (insertLast_perm h k v).map Prod.fst
  exact hperm.nodup_iff.mpr (List.nodup_cons.mpr ⟨notMem_keys_erase k m, nodup_keys_erase h k⟩)

section Sorted

variable [LT κ] [DecidableLT κ]

def insertSorted (k : κ) (v : β) : List (κ × β) → List (κ × β)
  | [] => [(k, v)]
  | (l, w) :: m =>
    if k = l then (k, v) :: m
    else if k < l then (k, v) :: (l, w) :: m
    else (l, w) :: insertSorted k v m

def insertElem (k : κ) : List κ → List κ
  | [] => [k]
  | l :: s =>
    if k = l then l :: s
    else if k < l then k :: l :: s
    else l :: insertElem k s

variable {k : κ}

theorem mem_insertElem {l : κ} {s : List κ} : l ∈ insertElem k s ↔ l = k ∨ l ∈ s := by
  induction s with
  | nil => simp [insertElem]
  | cons a s ih =>
    simp only [insertElem]
    split
    · rename_i h
      subst h
      simp
    · split
      · simp
      · simp only [List.mem_cons, ih]
        exact or_left_comm

theorem keys_insertSorted (k : κ) (v : β) (m : List (κ × β)) :
    keys (insertSorted k v m) = insertElem k (keys m) := by
  induction m with
  | nil => rfl
  | cons entry m ih =>
    show keys (insertSorted k v (entry :: m)) = insertElem k (entry.1 :: keys m)
    rw [insertSorted, insertElem, ← ih]
    split
    · rename_i h
      rw [h]
      rfl
    · split <;> rfl

theorem mem_keys_insertSorted {l : κ} {v : β} {m : List (κ × β)} :
    l ∈ keys (insertSorted k v m) ↔ l = k ∨ l ∈ keys m := by
  rw [keys_insertSorted, mem_insertElem]

theorem find?_insertSorted (k l : κ) (v : β) (m : List (κ × β)) :
    find? l (insertSorted k v m) = if l = k then some v else find? l m := by
  induction m with
  | nil => simp [insertSorted, find?]
  | cons entry m ih =>
    obtain ⟨a, w⟩ := entry
    simp only [insertSorted]
    by_cases hk : k = a
    · subst hk
      simp only [if_true, find?]
      by_cases hl : l = k <;> simp [hl]
    · rw [if_neg hk]
      split
      · simp [find?]
      · simp only [find?, ih]
        by_cases hl : l = a
        · simp [hl, Ne.symm hk]
        · simp [hl]

theorem nodup_insertElem {s : List κ} (h : s.Nodup) (hk : k ∉ s) : (insertElem k s).Nodup := by
  induction s with
  | nil => simp [insertElem]
  | cons a s ih =>
    obtain ⟨ha, hs⟩ := List.nodup_cons.mp h
    simp only [insertElem]
    split
    · exact h
    split
    · exact List.nodup_cons.mpr ⟨hk, h⟩
    refine List.nodup_cons.mpr ⟨?_, ih hs fun hm => hk (List.mem_cons_of_mem _ hm)⟩
    rw [mem_insertElem, not_or]
    refine ⟨?_, ha⟩
    rintro rfl
    exact hk List.mem_cons_self

end Sorted

/-! ### Sorted maps by their lookups -/

section Ordered

variable {κ β : Type*} [LinearOrder κ]

def Sorted (m : List (κ × β)) : Prop := (keys m).Pairwise (· < ·)

theorem sorted_insertElem {s : List κ} (h : s.Pairwise (· < ·)) (k : κ) :
    (insertElem k s).Pairwise (· < ·) := by
  induction s with
  | nil => exact List.pairwise_singleton _ _
  | cons a s ih =>
    obtain ⟨ha, hs⟩ := List.pairwise_cons.mp h
    rw [insertElem]
    split
    · exact h
    rename_i hne
    split
    · rename_i hlt
      refine List.pairwise_cons.mpr ⟨?_, h⟩
      exact List.forall_mem_cons.mpr ⟨hlt, fun l hl => lt_trans hlt (ha l hl)⟩
    · rename_i hnot
      refine List.pairwise_cons.mpr ⟨fun l hl => ?_, ih hs⟩
      rcases mem_insertElem.mp hl with rfl | hl
      · exact lt_of_le_of_ne (not_lt.mp hnot) (Ne.symm hne)
      · exact ha l hl

variable {m : List (κ × β)}

theorem sorted_insertSorted (h : Sorted m) (k : κ) (v : β) : Sorted (insertSorted k v m) := by
  rw [Sorted, keys_insertSorted]
  exact sorted_insertElem h k

theorem find?_mem (h : Sorted m) {k : κ} {v : β} : find? k m = some v ↔ (k, v) ∈ m := by
  induction m with
  | nil => simp [find?]
  | cons entry m ih =>
    obtain ⟨l, w⟩ := entry
    obtain ⟨hl, hm⟩ := List.pairwise_cons.mp h
    rw [find?, List.mem_cons, Prod.mk.injEq]
    by_cases hk : k = l
    · subst hk
      rw [if_pos rfl, Option.some.injEq]
      constructor
      · rintro rfl
        exact .inl ⟨rfl, rfl⟩
      · rintro (⟨-, rfl⟩ | hmem)
        · rfl
        · exact absurd (hl k (List.mem_map_of_mem hmem)) (lt_irrefl k)
    · rw [if_neg hk, ih hm]
      exact (or_iff_right fun h => hk h.1).symm

/-- **A sorted map is what its lookups say.** -/
theorem sorted_ext {m' : List (κ × β)} (h : Sorted m) (h' : Sorted m')
    (hfind : ∀ k, find? k m = find? k m') : m = m' := by
  have hentries : ∀ {m : List (κ × β)}, Sorted m → m.Pairwise fun a b => a.1 < b.1 :=
    fun h => List.pairwise_map.mp h
  refine List.Perm.eq_of_pairwise (fun a b _ _ hab hba => absurd (lt_trans hab hba) (lt_irrefl _))
    (hentries h) (hentries h') ?_
  have hnodup : ∀ {m : List (κ × β)}, Sorted m → m.Nodup := fun h =>
    (hentries h).imp fun hlt heq => absurd (heq ▸ hlt) (lt_irrefl _)
  refine (List.perm_ext_iff_of_nodup (hnodup h) (hnodup h')).mpr fun entry => ?_
  obtain ⟨k, v⟩ := entry
  rw [← find?_mem h, ← find?_mem h', hfind k]

end Ordered

end Vexcoder.Lib.Assoc
