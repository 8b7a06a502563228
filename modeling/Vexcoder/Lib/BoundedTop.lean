import Mathlib.Data.Finset.Card

/-!
# The newest copies, at most so many

Items come one after the other; each has a key and a rank, and two items with one key are copies of one
another.  `TopOf key rank cap seen selected` says that `selected` holds, of the items that were seen, a
copy of the highest rank for each of `cap` keys, and that no key that is left out has a copy above one
of these.

There is one rule for each thing that can be done with the next item: it takes the place of its copy
(`TopOf.update`), it is put to the others while there is room (`TopOf.push`), it is left out
(`TopOf.ignore`), or it takes the place of one of the lowest (`TopOf.replace`).
-/

namespace Vexcoder.Lib.BoundedTop

variable {α κ ρ : Type*} [DecidableEq κ] [LinearOrder ρ] {key : α → κ} {rank : α → ρ}
  {cap : ℕ} {seen selected selected' : List α} {a b : α}

/-- No copy of the item that was seen has a higher rank. -/
def IsNewest (key : α → κ) (rank : α → ρ) (seen : List α) (a : α) : Prop :=
  a ∈ seen ∧ ∀ b ∈ seen, key b = key a → rank b ≤ rank a

structure TopOf (key : α → κ) (rank : α → ρ) (cap : ℕ) (seen selected : List α) : Prop where
  distinct : (selected.map key).Nodup
  newest : ∀ a ∈ selected, IsNewest key rank seen a
  leftOut : ∀ b ∈ seen, key b ∉ selected.map key → ∀ a ∈ selected, rank b ≤ rank a
  size : selected.length = min cap (seen.map key).toFinset.card

omit [DecidableEq κ] in
theorem IsNewest.cons (h : IsNewest key rank seen a) (hb : key b = key a → rank b ≤ rank a) :
    IsNewest key rank (b :: seen) a := by
  refine ⟨List.mem_cons_of_mem b h.1, fun c hc hkey => ?_⟩
  rcases List.mem_cons.mp hc with rfl | hc
  · exact hb hkey
  · exact h.2 c hc hkey

theorem topOf_nil : TopOf key rank cap [] [] where
  distinct := List.nodup_nil
  newest := nofun
  leftOut := nofun
  size := (Nat.min_zero cap).symm

theorem topOf_zero (seen : List α) : TopOf key rank 0 seen [] where
  distinct := List.nodup_nil
  newest := nofun
  leftOut := nofun
  size := (Nat.zero_min _).symm

theorem TopOf.perm (h : TopOf key rank cap seen selected) (hperm : selected'.Perm selected) :
    TopOf key rank cap seen selected' where
  distinct := (hperm.map key).nodup_iff.mpr h.distinct
  newest := fun a ha => h.newest a (hperm.mem_iff.mp ha)
  leftOut := fun b hb hkey a ha =>
    h.leftOut b hb (fun hmem => hkey ((hperm.map key).mem_iff.mpr hmem)) a (hperm.mem_iff.mp ha)
  size := hperm.length_eq.trans h.size

theorem TopOf.keys_subset (h : TopOf key rank cap seen selected) :
    (selected.map key).toFinset ⊆ (seen.map key).toFinset := by
  intro k hk
  rw [List.mem_toFinset] at hk ⊢
  obtain ⟨a, ha, rfl⟩ := List.mem_map.mp hk
  exact List.mem_map_of_mem (h.newest a ha).1

theorem TopOf.card_keys (h : TopOf key rank cap seen selected) :
    (selected.map key).toFinset.card = selected.length := by
  rw [List.toFinset_card_of_nodup h.distinct, List.length_map]

theorem TopOf.full (h : TopOf key rank cap seen selected) (hb : b ∈ seen)
    (hkey : key b ∉ selected.map key) : selected.length = cap := by
  have hlt : selected.length < (seen.map key).toFinset.card := by
    rw [← h.card_keys]
    refine Finset.card_lt_card ⟨h.keys_subset, fun hsub => hkey ?_⟩
    exact List.mem_toFinset.mp (hsub (List.mem_toFinset.mpr (List.mem_map_of_mem hb)))
  have := h.size
  omega

theorem TopOf.length_le (h : TopOf key rank cap seen selected) : selected.length ≤ cap := by
  rw [h.size]
  exact Nat.min_le_left _ _

/-- The number of keys with one more item seen. -/
theorem card_keys_cons (a : α) (seen : List α) :
    (((a :: seen).map key).toFinset).card =
      if key a ∈ seen.map key then (seen.map key).toFinset.card
      else (seen.map key).toFinset.card + 1 := by
  rw [List.map_cons, List.toFinset_cons, Finset.card_insert_eq_ite]
  simp only [List.mem_toFinset]

theorem TopOf.update (h : TopOf key rank cap seen selected) (hkey : key a ∈ selected.map key)
    (hkeys : selected'.map key = selected.map key)
    (hitems : ∀ c ∈ selected', (c ∈ selected ∧ (key c = key a → rank a ≤ rank c)) ∨
      (c = a ∧ ∀ b ∈ selected, key b = key a → rank b ≤ rank a))
    (habove : ∀ c ∈ selected', ∃ b ∈ selected, rank b ≤ rank c) :
    TopOf key rank cap (a :: seen) selected' where
  distinct := by rw [hkeys]; exact h.distinct
  newest := by
    intro c hc
    rcases hitems c hc with ⟨hold, hle⟩ | ⟨rfl, hle⟩
    · exact (h.newest c hold).cons fun heq => hle heq.symm
    refine ⟨List.mem_cons_self, fun b hb hb' => ?_⟩
    rcases List.mem_cons.mp hb with rfl | hb
    · exact le_refl _
    · obtain ⟨d, hd, hd'⟩ := List.mem_map.mp hkey
      exact le_trans ((h.newest d hd).2 b hb (hb'.trans hd'.symm)) (hle d hd hd')
  leftOut := by
    intro b hb hout c hc
    rw [hkeys] at hout
    rcases List.mem_cons.mp hb with rfl | hb
    · exact absurd hkey hout
    · obtain ⟨d, hd, hle⟩ := habove c hc
      exact le_trans (h.leftOut b hb hout d hd) hle
  size := by
    have hlength := congrArg List.length hkeys
    rw [List.length_map, List.length_map] at hlength
    have hseen : key a ∈ seen.map key :=
      List.mem_toFinset.mp (h.keys_subset (List.mem_toFinset.mpr hkey))
    rw [card_keys_cons, if_pos hseen, hlength]
    exact h.size

theorem TopOf.push (h : TopOf key rank cap seen selected) (hkey : key a ∉ selected.map key)
    (hroom : selected.length < cap) : TopOf key rank cap (a :: seen) (selected ++ [a]) := by
  have hall : ∀ b ∈ seen, key b ∈ selected.map key := fun b hb => by
    by_contra hout
    have := h.full hb hout
    omega
  have hnew : key a ∉ seen.map key := fun hmem => by
    obtain ⟨b, hb, heq⟩ := List.mem_map.mp hmem
    exact hkey (heq ▸ hall b hb)
  refine ⟨?_, ?_, ?_, ?_⟩
  · rw [List.map_append, List.nodup_append]
    refine ⟨h.distinct, List.nodup_singleton _, fun k hk k' hk' heq => hkey ?_⟩
    rw [heq, List.mem_singleton.mp hk'] at hk
    exact hk
  · intro c hc
    rcases List.mem_append.mp hc with hc | hc
    · refine (h.newest c hc).cons fun heq => ?_
      exact absurd (heq ▸ List.mem_map_of_mem hc) hkey
    rw [List.mem_singleton.mp hc]
    refine ⟨List.mem_cons_self, fun b hb heq => ?_⟩
    rcases List.mem_cons.mp hb with rfl | hb
    · exact le_refl _
    · exact absurd (heq ▸ List.mem_map_of_mem hb) hnew
  · intro b hb hout
    refine absurd ?_ hout
    rw [List.map_append]
    rcases List.mem_cons.mp hb with rfl | hb
    · exact List.mem_append_right _ List.mem_cons_self
    · exact List.mem_append_left _ (hall b hb)
  · have := h.size
    rw [card_keys_cons, if_neg hnew, List.length_append, List.length_singleton]
    omega

theorem TopOf.ignore (h : TopOf key rank cap seen selected) (hkey : key a ∉ selected.map key)
    (hfull : ¬selected.length < cap) (hlow : ∀ c ∈ selected, rank a ≤ rank c) :
    TopOf key rank cap (a :: seen) selected where
  distinct := h.distinct
  newest := fun c hc => (h.newest c hc).cons fun _ => hlow c hc
  leftOut := by
    intro b hb hout c hc
    rcases List.mem_cons.mp hb with rfl | hb
    · exact hlow c hc
    · exact h.leftOut b hb hout c hc
  size := by
    have := h.size
    rw [card_keys_cons]
    split <;> omega

theorem TopOf.replace {front rest : List α} {e : α}
    (h : TopOf key rank cap seen (front ++ e :: rest)) (hkey : key a ∉ (front ++ e :: rest).map key)
    (hfull : ¬(front ++ e :: rest).length < cap) (hlow : ∀ c ∈ front ++ e :: rest, rank e ≤ rank c)
    (habove : rank e < rank a) : TopOf key rank cap (a :: seen) (front ++ a :: rest) := by
  have hmem : ∀ c ∈ front ++ a :: rest, c = a ∨ c ∈ front ++ e :: rest := by
    intro c hc
    rw [List.mem_append, List.mem_cons] at hc ⊢
    rcases hc with hc | rfl | hc
    · exact Or.inr (Or.inl hc)
    · exact Or.inl rfl
    · exact Or.inr (Or.inr (Or.inr hc))
  have hin : e ∈ front ++ e :: rest := List.mem_append_right _ List.mem_cons_self
  refine ⟨?_, ?_, ?_, ?_⟩
  · have hnodup := h.distinct
    rw [List.map_append, List.map_cons] at hnodup hkey ⊢
    have hperm : ∀ k, (front.map key ++ k :: rest.map key).Perm (k :: (front.map key ++ rest.map key)) :=
      fun k => List.perm_middle
    rw [(hperm _).mem_iff, List.mem_cons, not_or] at hkey
    exact (hperm _).nodup_iff.mpr
      (List.nodup_cons.mpr ⟨hkey.2, (List.nodup_cons.mp ((hperm _).nodup_iff.mp hnodup)).2⟩)
  · intro c hc
    rcases hmem c hc with rfl | hc
    · refine ⟨List.mem_cons_self, fun b hb heq => ?_⟩
      rcases List.mem_cons.mp hb with rfl | hb
      · exact le_refl _
      · exact le_trans (h.leftOut b hb (heq ▸ hkey) e hin) (le_of_lt habove)
    · refine (h.newest c hc).cons fun heq => ?_
      exact absurd (heq ▸ List.mem_map_of_mem hc) hkey
  · intro b hb hout c hc
    have hle : rank b ≤ rank e := by
      rcases List.mem_cons.mp hb with rfl | hb
      · exact absurd (List.mem_map_of_mem (List.mem_append_right _ List.mem_cons_self)) hout
      by_cases hold : key b ∈ (front ++ e :: rest).map key
      · -- of the keys that were selected only that of the item that goes is left out
        obtain ⟨d, hd, hd'⟩ := List.mem_map.mp hold
        have hde : d = e := by
          rw [List.mem_append, List.mem_cons] at hd
          rcases hd with hd | rfl | hd
          · exact absurd (hd' ▸ List.mem_map_of_mem (List.mem_append_left _ hd)) hout
          · rfl
          · exact absurd (hd' ▸ List.mem_map_of_mem
              (List.mem_append_right _ (List.mem_cons_of_mem a hd))) hout
        exact (h.newest e hin).2 b hb (hde ▸ hd'.symm)
      · exact h.leftOut b hb hold e hin
    rcases hmem c hc with rfl | hc
    · exact le_trans hle (le_of_lt habove)
    · exact le_trans hle (hlow c hc)
  · have hsize := h.size
    rw [List.length_append, List.length_cons] at hsize hfull ⊢
    rw [card_keys_cons]
    split <;> omega

end Vexcoder.Lib.BoundedTop
