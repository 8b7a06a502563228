import Mathlib.Data.List.Infix

/-!
# Undo and redo

What can be undone, what there is, and what can be redone.  Going back and forth moves along
the values, which stay the same; a new value takes the place of those ahead.
-/

namespace Vexcoder.Lib

/-- The value gone back to next is the head of `past`. -/
structure Timeline (α : Type*) where
  past : List α
  here : α
  future : List α

namespace Timeline

variable {α : Type*} (t t' : Timeline α)

def back : Timeline α :=
  match t.past with
  | [] => t
  | a :: past => ⟨past, a, t.here :: t.future⟩

def forth : Timeline α :=
  match t.future with
  | [] => t
  | a :: future => ⟨t.here :: t.past, a, future⟩

def record (a : α) : Timeline α := ⟨t.here :: t.past, a, []⟩

def upTo : List α := t.past.reverse ++ [t.here]

def all : List α := t.upTo ++ t.future

variable {t t'}

@[simp] theorem length_upTo (t : Timeline α) : t.upTo.length = t.past.length + 1 := by simp [upTo]

theorem upTo_eq_take (t : Timeline α) : t.upTo = t.all.take (t.past.length + 1) := by
  rw [all, List.take_append_of_le_length (by simp), List.take_of_length_le (by simp)]

theorem past_of_upTo (h : t.upTo = t'.upTo) : t.past = t'.past ∧ t.here = t'.here := by
  obtain ⟨hpast, hhere⟩ := List.append_inj' h rfl
  exact ⟨List.reverse_injective hpast, List.singleton_inj.mp hhere⟩

theorem upTo_record (t : Timeline α) (a : α) : (t.record a).upTo = t.upTo ++ [a] := by
  simp [upTo, record]

/-- The values and the place determine the rest. -/
theorem eq_of_all (hall : t.all = t'.all) (hpast : t.past.length = t'.past.length) : t = t' := by
  have hupTo : t.upTo = t'.upTo := by rw [upTo_eq_take, upTo_eq_take, hall, hpast]
  obtain ⟨hpast, hhere⟩ := past_of_upTo hupTo
  have hfuture : t.future = t'.future := by
    rw [all, hupTo] at hall
    exact List.append_cancel_left hall
  cases t
  cases t'
  simp_all

/-! ### Going back and forth -/

theorem back_spec (t : Timeline α) : t.back.all = t.all ∧ t.back.past.length = t.past.length - 1 := by
  rw [back]
  split <;> simp_all [all, upTo]

theorem forth_spec (t : Timeline α) :
    t.forth.all = t.all ∧ t.forth.past.length = min (t.past.length + 1) (t.all.length - 1) := by
  rw [forth]
  split
  · rename_i h
    simp [all, h]
  · rename_i a future h
    simp only [all, upTo, h]
    refine ⟨by simp, ?_⟩
    simp only [List.length_append, List.length_reverse, List.length_cons, List.length_nil]
    omega

theorem iterate_back (n : ℕ) (t : Timeline α) :
    (back^[n] t).all = t.all ∧ (back^[n] t).past.length = t.past.length - n := by
  induction n with
  | zero => exact ⟨rfl, rfl⟩
  | succ n ih =>
    rw [Function.iterate_succ_apply']
    obtain ⟨hall, hpast⟩ := back_spec (back^[n] t)
    refine ⟨hall.trans ih.1, ?_⟩
    rw [hpast]
    omega

theorem iterate_forth (n : ℕ) (t : Timeline α) (h : t.past.length + n < t.all.length) :
    (forth^[n] t).all = t.all ∧ (forth^[n] t).past.length = t.past.length + n := by
  induction n with
  | zero => exact ⟨rfl, rfl⟩
  | succ n ih =>
    rw [Function.iterate_succ_apply']
    obtain ⟨hall, hpast⟩ := forth_spec (forth^[n] t)
    obtain ⟨ihall, ihpast⟩ := ih (by omega)
    refine ⟨hall.trans ihall, ?_⟩
    rw [hpast, ihpast, ihall]
    omega

/-- Going back over all that came behind `t`, and forth again. -/
theorem back_forth (h : t.upTo <+: t'.upTo) (n : ℕ) (hn : t'.past.length = t.past.length + n) :
    (back^[n] t').past = t.past ∧ (back^[n] t').here = t.here ∧ forth^[n] (back^[n] t') = t' := by
  obtain ⟨hall, hpast⟩ := iterate_back n t'
  have hplace : (back^[n] t').past.length = t.past.length := by omega
  have hupTo : (back^[n] t').upTo = t.upTo := by
    obtain ⟨more, hmore⟩ := h
    rw [upTo_eq_take, hall, hplace, all, ← hmore, List.append_assoc,
      List.take_append_of_le_length (by simp), List.take_of_length_le (by simp)]
  obtain ⟨hsame, hhere⟩ := past_of_upTo hupTo
  have hlength : (back^[n] t').all.length = t'.past.length + 1 + t'.future.length := by
    rw [hall, all, List.length_append, length_upTo]
  obtain ⟨hagain, hback⟩ := iterate_forth n (back^[n] t') (by omega)
  exact ⟨hsame, hhere, eq_of_all (hagain.trans hall) (by omega)⟩

end Timeline

end Vexcoder.Lib
