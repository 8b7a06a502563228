import Mathlib.Tactic.Common

/-!
# Computations that complete

A computation that can panic is an `Option`, and `none` is the panic.  The rules lead from the steps of
a computation to the whole of it.
-/

namespace Vexcoder.Lib

variable {α β σ : Type}

def Completes (x : Option α) : Prop := ∃ a, x = some a

namespace Completes

theorem pure (a : α) : Completes (some a) := ⟨a, rfl⟩

theorem bind {x : Option α} {f : α → Option β} (hx : Completes x) (hf : ∀ a, Completes (f a)) :
    Completes (x >>= f) := by
  obtain ⟨a, rfl⟩ := hx
  exact hf a

theorem map {x : Option α} (f : α → β) (hx : Completes x) : Completes (x.map f) := by
  obtain ⟨a, rfl⟩ := hx
  exact ⟨f a, rfl⟩

theorem ite {p : Prop} [Decidable p] {x y : Option α} (hx : Completes x) (hy : Completes y) :
    Completes (if p then x else y) := by
  split
  · exact hx
  · exact hy

theorem foldlM {step : σ → α → Option σ} (h : ∀ s a, Completes (step s a)) (l : List α) (s : σ) :
    Completes (l.foldlM step s) := by
  induction l generalizing s with
  | nil => exact pure s
  | cons a l ih =>
    exact bind (h s a) ih

theorem mapM {f : α → Option β} (h : ∀ a, Completes (f a)) (l : List α) : Completes (l.mapM f) := by
  induction l with
  | nil => exact pure []
  | cons a l ih =>
    rw [List.mapM_cons]
    exact bind (h a) fun b => bind ih fun bs => pure (b :: bs)

end Completes

end Vexcoder.Lib
