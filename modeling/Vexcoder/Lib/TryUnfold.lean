import Mathlib.Data.List.Basic

/-!
# Streams from a function that may fail

`next` gives the next item of a stream and the state behind it, or says that there is none, or fails.
The stream made of it ends at the first of these two (`Unfolds`).  A panic is a call without a result.
-/

namespace Vexcoder.Lib

variable {σ ε α : Type}

inductive StreamEnd (ε : Type) where
  | done
  | failed (error : ε)
  | panicked

inductive Unfolds (next : σ → Option (Except ε (Option α) × σ)) : σ → List α → StreamEnd ε → Prop
  | item {s s' : σ} {a : α} {as : List α} {stop : StreamEnd ε} (h : next s = some (.ok (some a), s'))
      (rest : Unfolds next s' as stop) : Unfolds next s (a :: as) stop
  | done {s s' : σ} (h : next s = some (.ok none, s')) : Unfolds next s [] .done
  | failed {s s' : σ} {error : ε} (h : next s = some (.error error, s')) : Unfolds next s [] (.failed error)
  | panicked {s : σ} (h : next s = none) : Unfolds next s [] .panicked

section Unfolds

variable {next : σ → Option (Except ε (Option α) × σ)} {s s' : σ} {as as' : List α} {stop stop' : StreamEnd ε}

theorem Unfolds.unique (h : Unfolds next s as stop) (h' : Unfolds next s as' stop') :
    as' = as ∧ stop' = stop := by
  induction h generalizing as' with
  | item hnext _ ih =>
    cases h' with
    | item hnext' hrest' =>
      rw [hnext] at hnext'
      cases hnext'
      obtain ⟨rfl, rfl⟩ := ih hrest'
      exact ⟨rfl, rfl⟩
    | _ hnext' =>
      rw [hnext] at hnext'
      cases hnext'
  | done hnext =>
    cases h' with
    | done => exact ⟨rfl, rfl⟩
    | _ hnext' =>
      rw [hnext] at hnext'
      cases hnext'
  | failed hnext =>
    cases h' with
    | failed hnext' =>
      rw [hnext] at hnext'
      cases hnext'
      exact ⟨rfl, rfl⟩
    | _ hnext' =>
      rw [hnext] at hnext'
      cases hnext'
  | panicked hnext =>
    cases h' with
    | panicked => exact ⟨rfl, rfl⟩
    | _ hnext' =>
      rw [hnext] at hnext'
      cases hnext'

theorem Unfolds.of_next_eq (hnext : next s = next s') (h : Unfolds next s' as stop) :
    Unfolds next s as stop := by
  cases h with
  | item h rest => exact .item (hnext.trans h) rest
  | done h => exact .done (hnext.trans h)
  | failed h => exact .failed (hnext.trans h)
  | panicked h => exact .panicked (hnext.trans h)

theorem Unfolds.append (queued : List α → σ)
    (hpop : ∀ a items, next (queued (a :: items)) = some (.ok (some a), queued items))
    (items : List α) (h : Unfolds next (queued []) as stop) :
    Unfolds next (queued items) (items ++ as) stop := by
  induction items with
  | nil => exact h
  | cons a items ih => exact .item (hpop a items) ih

end Unfolds

end Vexcoder.Lib
