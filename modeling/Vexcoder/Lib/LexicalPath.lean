import Mathlib.Data.List.Induction

/-!
# Lexical normalisation of paths

A path is a list of steps: down to a name, up again, or none.  `normalise` carries them out on the
names passed so far, the last one first, and asks no file system.  A step up where no name is left
takes nothing back.

`next_to_iff` says from the steps alone when two names stand next to each other at the end: the second
one comes behind the first after steps that return, and no later step leaves it again.
-/

namespace Vexcoder.Lib.LexicalPath

variable {α : Type*}

inductive Step (α : Type*) where
  | stay
  | up
  | down (name : α)

/-- The names that are left of `names` and the steps behind them, the last one first. -/
def normalise : List α → List (Step α) → List α
  | names, [] => names
  | names, .stay :: steps => normalise names steps
  | names, .up :: steps => normalise names.tail steps
  | names, .down name :: steps => normalise (name :: names) steps

/-- No step up finds all of `names` and of the steps before it taken back. -/
def Stays : List α → List (Step α) → Prop
  | _, [] => True
  | names, .stay :: steps => Stays names steps
  | [], .up :: _ => False
  | _ :: names, .up :: steps => Stays names steps
  | names, .down name :: steps => Stays (name :: names) steps

/-- The steps end where they start, and are never above it. -/
def Returns (steps : List (Step α)) : Prop := Stays [] steps ∧ normalise [] steps = []

theorem normalise_append (names : List α) (s t : List (Step α)) :
    normalise names (s ++ t) = normalise (normalise names s) t := by
  induction s generalizing names with
  | nil => rfl
  | cons step s ih =>
    cases step with
    | stay => exact ih names
    | up => exact ih names.tail
    | down name => exact ih (name :: names)

theorem stays_append (names : List α) (s t : List (Step α)) :
    Stays names (s ++ t) ↔ Stays names s ∧ Stays (normalise names s) t := by
  induction s generalizing names with
  | nil => simp [Stays, normalise]
  | cons step s ih =>
    cases step with
    | stay => exact ih names
    | up =>
      cases names with
      | nil => simp [Stays]
      | cons name names => exact ih names
    | down name => exact ih (name :: names)

/-- Steps that stay leave alone what lies below. -/
theorem Stays.frame {names : List α} {steps : List (Step α)} (h : Stays names steps)
    (below : List α) : normalise (names ++ below) steps = normalise names steps ++ below := by
  induction steps generalizing names with
  | nil => rfl
  | cons step steps ih =>
    cases step with
    | stay => exact ih h
    | up =>
      cases names with
      | nil => exact absurd h id
      | cons name names => exact ih h
    | down name => exact ih h

/-- **Where a name comes from**: a step down to it that no later step takes back. -/
theorem normalise_split {steps : List (Step α)} {above below : List α} {name : α} :
    normalise [] steps = above ++ name :: below ↔
      ∃ before after, steps = before ++ .down name :: after ∧ normalise [] before = below ∧
        Stays [] after ∧ normalise [] after = above := by
  constructor
  · intro h
    -- the last step is undone, with what it pushed or took away
    induction steps using List.reverseRecOn generalizing above with
    | nil => simp [normalise] at h
    | append_singleton steps step ih =>
      rw [normalise_append] at h
      cases step with
      | stay =>
        obtain ⟨before, after, rfl, hbelow, hstays, habove⟩ := ih h
        refine ⟨before, after ++ [.stay], by simp, hbelow, ?_, ?_⟩
        · simp [stays_append, hstays, Stays]
        · rw [normalise_append, habove]
          rfl
      | up =>
        cases hnames : normalise [] steps with
        | nil => simp [hnames, normalise] at h
        | cons taken names =>
          simp only [hnames, normalise, List.tail_cons] at h
          have hlong : normalise [] steps = (taken :: above) ++ name :: below := by
            rw [hnames, h]
            rfl
          obtain ⟨before, after, rfl, hbelow, hstays, habove⟩ := ih hlong
          refine ⟨before, after ++ [.up], by simp, hbelow, ?_, ?_⟩
          · simp [stays_append, hstays, habove, Stays]
          · rw [normalise_append, habove]
            rfl
      | down last =>
        cases above with
        | nil =>
          obtain ⟨rfl, hbelow⟩ := List.cons.inj h
          exact ⟨steps, [], rfl, hbelow, trivial, rfl⟩
        | cons first above =>
          obtain ⟨rfl, hrest⟩ := List.cons.inj h
          obtain ⟨before, after, rfl, hbelow, hstays, habove⟩ := ih hrest
          refine ⟨before, after ++ [.down last], by simp, hbelow, ?_, ?_⟩
          · simp [stays_append, hstays, Stays]
          · rw [normalise_append, habove]
            rfl
  · intro h
    obtain ⟨before, after, rfl, rfl, hstays, rfl⟩ := h
    rw [normalise_append]
    exact hstays.frame (name :: normalise [] before)

/-- **Names next to each other.** -/
theorem next_to_iff {steps : List (Step α)} {a b : α} :
    (∃ above below, normalise [] steps = above ++ b :: a :: below) ↔
      ∃ before inside after, steps = before ++ .down a :: (inside ++ .down b :: after) ∧
        Returns inside ∧ Stays [] after := by
  constructor
  · intro h
    obtain ⟨above, below, h⟩ := h
    have hfirst : normalise [] steps = (above ++ [b]) ++ a :: below := by
      rw [h, List.append_assoc]
      rfl
    obtain ⟨before, rest, rfl, -, hstays, hrest⟩ := normalise_split.mp hfirst
    obtain ⟨inside, after, rfl, hinside, hafter, -⟩ := normalise_split.mp hrest
    exact ⟨before, inside, after, rfl, ⟨((stays_append _ _ _).mp hstays).1, hinside⟩, hafter⟩
  · intro h
    obtain ⟨before, inside, after, rfl, hreturns, hstays⟩ := h
    refine ⟨normalise [] after, normalise [] before, ?_⟩
    rw [normalise_append, normalise, normalise_append]
    have hinside := hreturns.1.frame (a :: normalise [] before)
    rw [hreturns.2, List.nil_append] at hinside
    rw [hinside]
    exact hstays.frame (b :: a :: normalise [] before)

end Vexcoder.Lib.LexicalPath
