import Mathlib.Tactic.Common

/-!
# Results of fallible steps

A `do` block over `Except` that succeeds is taken apart one step at a time.
-/

namespace Vexcoder.Lib

theorem bind_eq_ok {ε α β : Type} {x : Except ε α} {f : α → Except ε β} {b : β} :
    x >>= f = .ok b ↔ ∃ a, x = .ok a ∧ f a = .ok b := by
  cases x with
  | error e =>
    constructor
    · intro h
      exact absurd h (by intro h; cases h)
    · rintro ⟨a, h, -⟩
      exact absurd h (by intro h; cases h)
  | ok a =>
    constructor
    · intro h
      exact ⟨a, rfl, h⟩
    · rintro ⟨a', h, hf⟩
      cases h
      exact hf

end Vexcoder.Lib
