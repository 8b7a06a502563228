import Mathlib.Data.List.Forall2

/-!
# Lists that grow

`Grows R l l'`: each entry of `l` is still in its place in `l'`, up to a revision that `R` allows, and
others may have come behind.
-/

namespace Vexcoder.Lib.Growing

variable {α : Type*} {R : α → α → Prop} {l l' l'' : List α}

def Grows (R : α → α → Prop) (l l' : List α) : Prop :=
  ∀ (i : ℕ) (a : α), l[i]? = some a → ∃ a', l'[i]? = some a' ∧ R a a'

theorem Grows.refl (hR : ∀ a, R a a) (l : List α) : Grows R l l := fun _ a h => ⟨a, h, hR a⟩

theorem Grows.trans (hR : ∀ a b c, R a b → R b c → R a c) (h : Grows R l l') (h' : Grows R l' l'') :
    Grows R l l'' := by
  intro i a ha
  obtain ⟨b, hb, hab⟩ := h i a ha
  obtain ⟨c, hc, hbc⟩ := h' i b hb
  exact ⟨c, hc, hR a b c hab hbc⟩

theorem grows_of_forall₂ (h : List.Forall₂ R l l') : Grows R l l' := by
  induction h with
  | nil =>
    intro i a ha
    cases ha
  | cons hab _ ih =>
    intro i a ha
    cases i with
    | zero =>
      cases ha
      exact ⟨_, rfl, hab⟩
    | succ i => exact ih i a ha

theorem Grows.append (h : Grows R l l') (more : List α) : Grows R l (l' ++ more) := by
  intro i a ha
  obtain ⟨a', ha', hR⟩ := h i a ha
  exact ⟨a', List.getElem?_append_left (List.getElem?_eq_some_iff.mp ha').1 ▸ ha', hR⟩

theorem Grows.append_left (hR : ∀ a, R a a) (front : List α) (h : Grows R l l') :
    Grows R (front ++ l) (front ++ l') := by
  intro i a ha
  obtain hlt | hge := Nat.lt_or_ge i front.length
  · rw [List.getElem?_append_left hlt] at ha ⊢
    exact ⟨a, ha, hR a⟩
  · rw [List.getElem?_append_right hge] at ha ⊢
    exact h _ a ha

end Vexcoder.Lib.Growing
