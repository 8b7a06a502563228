import Mathlib.Data.List.Perm.Subperm
import Mathlib.Order.MinMax

/-!
# Reading a log behind a cursor

Writers append stamped entries to a log.  A reader polls it for the entries it wants, a batch at a
time in the order of the log, and asks for stamps above the largest one it has received.  Once a
poll finds nothing it has received every entry it wants exactly when no step of the run was unsafe
(`received_all_iff`).
-/

namespace Vexcoder.Lib.CursorLog

structure Reader (α : Type*) where
  stamp : α → ℕ
  /-- The entries that are meant for the reader. -/
  wanted : α → Bool
  /-- The entries that a poll can hand out. -/
  readable : α → Bool
  batch : ℕ

structure State (α : Type*) where
  log : List α := []
  received : List α := []

inductive Event (α : Type*) where
  | append (a : α)
  | poll

variable {α : Type*} (r : Reader α)

/-- The largest stamp received. -/
def cursor (received : List α) : ℕ := received.foldr (fun a n => max (r.stamp a) n) 0

/-- What is in the log above the cursor. -/
def pending (s : State α) : List α :=
  s.log.filter fun a => r.wanted a && r.readable a && decide (cursor r s.received < r.stamp a)

def step (s : State α) : Event α → State α
  | .append a => { s with log := s.log ++ [a] }
  | .poll => { s with received := s.received ++ (pending r s).take r.batch }

def run (s : State α) (events : List (Event α)) : State α := events.foldl (step r) s

/-- An entry is appended above the cursor, and a poll leaves behind only what is above the stamps of
its batch. -/
def Safe (s : State α) : Event α → Prop
  | .append a => r.wanted a → r.readable a ∧ cursor r s.received < r.stamp a
  | .poll => ∀ a ∈ (pending r s).drop r.batch, ∀ b ∈ (pending r s).take r.batch, r.stamp b < r.stamp a

def AllSafe (s : State α) : List (Event α) → Prop
  | [] => True
  | event :: events => Safe r s event ∧ AllSafe (step r s event) events

/-- The wanted entries that no later poll hands out. -/
def passed (s : State α) : List α :=
  s.log.filter fun a =>
    r.wanted a && !(r.readable a && decide (cursor r s.received < r.stamp a))

def lost (s : State α) : ℕ := (passed r s).length - s.received.length

variable {r} {s : State α}

theorem cursor_cons (a : α) (received : List α) :
    cursor r (a :: received) = max (r.stamp a) (cursor r received) := rfl

theorem cursor_append (received batch : List α) :
    cursor r (received ++ batch) = max (cursor r received) (cursor r batch) := by
  induction received with
  | nil => exact (Nat.zero_max _).symm
  | cons a received ih =>
    rw [List.cons_append, cursor_cons, cursor_cons, ih, max_assoc]

theorem cursor_lt_iff {n : ℕ} {received : List α} (hn : 0 < n) :
    cursor r received < n ↔ ∀ a ∈ received, r.stamp a < n := by
  induction received with
  | nil => simpa [cursor] using hn
  | cons a received ih => rw [cursor_cons, List.forall_mem_cons, max_lt_iff, ih]

theorem stamp_le_cursor {received : List α} {a : α} (h : a ∈ received) : r.stamp a ≤ cursor r received := by
  induction received with
  | nil => exact absurd h List.not_mem_nil
  | cons b received ih =>
    rcases List.mem_cons.mp h with rfl | h
    · exact le_max_left _ _
    · exact (ih h).trans (le_max_right _ _)

theorem stamp_pending {a : α} (h : a ∈ pending r s) : cursor r s.received < r.stamp a := by
  simp only [pending, List.mem_filter, Bool.and_eq_true, decide_eq_true_eq] at h
  exact h.2.2

theorem filter_or_perm {p q : α → Bool} (hdisjoint : ∀ a, p a = true → q a = false) (l : List α) :
    (l.filter fun a => p a || q a).Perm (l.filter p ++ l.filter q) := by
  have hparts := List.filter_append_perm p (l.filter fun a => p a || q a)
  rw [List.filter_filter, List.filter_filter] at hparts
  refine hparts.symm.trans (.of_eq (congrArg₂ _ ?_ ?_))
  · exact List.filter_congr fun a _ => by cases p a <;> rfl
  · refine List.filter_congr fun a _ => ?_
    cases hp : p a with
    | true => exact (hdisjoint a hp).symm
    | false => rfl

/-! ### Steps -/

theorem passed_append (a : α) :
    passed r (step r s (.append a)) = passed r s ++
      [a].filter fun a =>
        r.wanted a && !(r.readable a && decide (cursor r s.received < r.stamp a)) :=
  List.filter_append _ _

theorem safe_append_iff (a : α) :
    Safe r s (.append a) ↔
      ([a].filter fun a => r.wanted a &&
        !(r.readable a && decide (cursor r s.received < r.stamp a))).length = 0 := by
  rw [List.length_eq_zero_iff, List.filter_eq_nil_iff]
  simp only [List.mem_singleton, forall_eq, Safe]
  cases r.wanted a <;> cases r.readable a <;> simp

/-- What a poll leaves behind, and passes all the same. -/
def skipped (r : Reader α) (s : State α) : List α :=
  ((pending r s).drop r.batch).filter fun a =>
    decide (r.stamp a ≤ cursor r ((pending r s).take r.batch))

/-- Of what is above the cursor, that which the next batch brings the cursor past. -/
theorem pending_passed :
    ((pending r s).filter fun a => decide (r.stamp a ≤ cursor r ((pending r s).take r.batch))) =
      (pending r s).take r.batch ++ skipped r s := by
  have hbatch : ((pending r s).take r.batch).filter (fun a =>
      decide (r.stamp a ≤ cursor r ((pending r s).take r.batch))) = (pending r s).take r.batch := by
    refine List.filter_eq_self.mpr fun a ha => ?_
    simpa using stamp_le_cursor ha
  rw [skipped]
  conv_lhs =>
    arg 2
    rw [← List.take_append_drop r.batch (pending r s)]
  rw [List.filter_append, hbatch]

theorem passed_poll :
    (passed r (step r s .poll)).Perm (passed r s ++ ((pending r s).take r.batch ++ skipped r s)) := by
  have hsplit : passed r (step r s .poll) = s.log.filter fun a =>
      (r.wanted a && !(r.readable a && decide (cursor r s.received < r.stamp a))) ||
        (decide (r.stamp a ≤ cursor r ((pending r s).take r.batch)) &&
          (r.wanted a && r.readable a && decide (cursor r s.received < r.stamp a))) := by
    refine List.filter_congr fun a _ => ?_
    simp only [step, cursor_append]
    generalize cursor r ((pending r s).take r.batch) = c
    rw [Bool.eq_iff_iff]
    cases r.wanted a
    · simp
    cases r.readable a
    · simp
    simp only [Bool.true_and, Bool.or_eq_true, Bool.and_eq_true, Bool.not_eq_true',
      decide_eq_true_eq, decide_eq_false_iff_not]
    omega
  rw [hsplit, ← pending_passed, pending, List.filter_filter]
  refine filter_or_perm (fun a h => ?_) s.log
  simp only [Bool.and_eq_true, Bool.not_eq_true', Bool.and_eq_false_iff] at h ⊢
  rcases h.2 with h' | h' <;> simp [h']

theorem safe_poll_iff : Safe r s .poll ↔ (skipped r s).length = 0 := by
  rw [List.length_eq_zero_iff, skipped, List.filter_eq_nil_iff]
  refine forall₂_congr fun a ha => ?_
  have hpos : 0 < r.stamp a :=
    Nat.zero_lt_of_lt (stamp_pending (List.mem_of_mem_drop ha))
  rw [decide_eq_true_eq, not_le, cursor_lt_iff hpos]

/-! ### Runs -/

/-- What is received is passed. -/
def Sound (r : Reader α) (s : State α) : Prop := s.received.Subperm (passed r s)

/-- No step brings an entry back that was lost, and the unsafe ones lose one. -/
theorem step_spec (event : Event α) (h : Sound r s) :
    Sound r (step r s event) ∧ lost r s ≤ lost r (step r s event) ∧
      (lost r (step r s event) = lost r s ↔ Safe r s event) := by
  have hle := h.length_le
  cases event with
  | append a =>
    have hpassed := passed_append (r := r) (s := s) a
    have hsafe := safe_append_iff (r := r) (s := s) a
    generalize ([a].filter fun a => r.wanted a &&
      !(r.readable a && decide (cursor r s.received < r.stamp a))) = new at hpassed hsafe
    have hlength := congrArg List.length hpassed
    rw [List.length_append] at hlength
    have hreceived : (step r s (.append a)).received.length = s.received.length := rfl
    refine ⟨?_, ?_, ?_⟩
    · rw [Sound, hpassed]
      exact h.trans (List.sublist_append_left _ _).subperm
    · rw [lost, lost, hreceived]
      omega
    · rw [hsafe, lost, lost, hreceived]
      omega
  | poll =>
    have hperm := passed_poll (r := r) (s := s)
    have hlength := hperm.length_eq
    rw [List.length_append, List.length_append] at hlength
    have hreceived : (step r s .poll).received.length =
        s.received.length + ((pending r s).take r.batch).length := List.length_append
    refine ⟨?_, ?_, ?_⟩
    · rw [Sound, hperm.subperm_left, ← List.append_assoc]
      exact (List.subperm_append_right _ |>.mpr h).trans (List.sublist_append_left _ _).subperm
    · rw [lost, lost, hreceived]
      omega
    · rw [safe_poll_iff, lost, lost, hreceived]
      omega

theorem run_spec (events : List (Event α)) (h : Sound r s) :
    Sound r (run r s events) ∧ lost r s ≤ lost r (run r s events) ∧
      (lost r (run r s events) = lost r s ↔ AllSafe r s events) := by
  induction events generalizing s with
  | nil => exact ⟨h, le_rfl, iff_of_true rfl trivial⟩
  | cons event events ih =>
    obtain ⟨hsound, hle, hsafe⟩ := step_spec event h
    obtain ⟨hsound', hle', hsafe'⟩ := ih hsound
    refine ⟨hsound', hle.trans hle', ?_⟩
    show lost r (run r (step r s event) events) = lost r s ↔ _
    rw [AllSafe, ← hsafe, ← hsafe']
    omega

/-- **Every entry**: when the last poll finds nothing, the reader has received what it wants exactly
when all steps were safe. -/
theorem received_all_iff (events : List (Event α)) (hdone : pending r (run r {} events) = []) :
    (run r {} events).received.Perm ((run r {} events).log.filter r.wanted) ↔ AllSafe r {} events := by
  obtain ⟨hsound, -, hsafe⟩ := run_spec (r := r) (s := {}) events List.nil_subperm
  have hpassed : passed r (run r {} events) = (run r {} events).log.filter r.wanted := by
    refine List.filter_congr fun a ha => ?_
    have hnot := List.filter_eq_nil_iff.mp hdone a ha
    revert hnot
    cases r.wanted a <;> cases r.readable a <;> simp
  have hzero : lost r ({} : State α) = 0 := rfl
  rw [hzero] at hsafe
  rw [← hsafe, ← hpassed, lost]
  constructor
  · intro h
    rw [h.length_eq, Nat.sub_self]
  · intro h
    exact hsound.perm_of_length_le (by omega)

end Vexcoder.Lib.CursorLog
