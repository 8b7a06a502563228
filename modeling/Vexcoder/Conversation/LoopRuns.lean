import Vexcoder.Conversation.LoopBound

/-!
# The loop along a run

The streams opened, the failures since the last of them and the passes of the loop, counted along a
run of one call, and what the moves of the loop make of them (`LoopInv`).  The weight of the phases
bounds the steps of a pass, so that a call whose streams end comes to its end; until then there is
always an event that leads on.
-/

namespace Vexcoder.Conversation

open Base Lib Lib.Emitter Vexcoder.Runtime Vexcoder.Task

/-! ### What is counted -/

def Event.isOpening : Event → Bool
  | .streamOpened => true
  | _ => false

def Event.isFailure : Event → Bool
  | .streamFailed _ => true
  | _ => false

def Event.isSignal : Event → Bool
  | .signal _ => true
  | _ => false

def Event.isBetweenCalls : Event → Bool
  | .send .. | .clear => true
  | _ => false

def LoopPlace.isTop : LoopPlace → Bool
  | .top _ => true
  | _ => false

structure LoopCount where
  opened : ℕ := 0
  /-- The failures since the last stream was opened. -/
  failed : ℕ := 0
  passes : ℕ := 0

def LoopCount.note (n : LoopCount) (place : LoopPlace) (event : Event) : LoopCount where
  opened := if event.isOpening then n.opened + 1 else n.opened
  failed := if event.isOpening then 0 else if event.isFailure then n.failed + 1 else n.failed
  passes := if place.isTop then n.passes + 1 else n.passes

/-- How the counts bound each other, and the variables of the turn follow them. -/
def LoopInv (maxRounds : ℕ) (place : LoopPlace) (n : LoopCount) : Prop :=
  match place with
  | .outside => n.opened ≤ maxRounds + 1 ∧ n.passes ≤ 4 * (maxRounds + 1) ∧ n.failed ≤ 4
  | .opening k => k = {} ∧ n = {}
  | .top k =>
    k.rounds = n.opened ∧ k.overflowRetryCount = n.failed ∧ n.failed ≤ 3 ∧
      if k.finalAnswerAttempted then
        maxRounds ≤ n.opened ∧ n.opened ≤ maxRounds + 1 ∧ n.passes ≤ 4 * maxRounds + 1
      else
        (n.opened < maxRounds ∨ n.opened = maxRounds ∧ n.failed = 0) ∧ n.passes ≤ 4 * n.opened + n.failed
  | .requesting k =>
    k.rounds = n.opened + 1 ∧ k.overflowRetryCount = n.failed ∧ n.failed ≤ 3 ∧
      if k.finalAnswerAttempted then n.opened = maxRounds ∧ n.passes ≤ 4 * maxRounds + 1
      else n.opened < maxRounds ∧ n.passes ≤ 4 * n.opened + n.failed + 1
  | .inside k =>
    k.rounds = n.opened ∧ k.overflowRetryCount = n.failed ∧ n.failed = 0 ∧
      if k.finalAnswerAttempted then n.opened = maxRounds + 1 ∧ n.passes ≤ 4 * maxRounds + 1
      else n.opened ≤ maxRounds ∧ n.passes ≤ 4 * n.opened

section Moves

variable {maxRounds : ℕ} {k : LoopCounters} {n : LoopCount}

theorem note_work {event : Event} (h : event.isWork = true) : n.note (.inside k) event = n := by
  cases event <;> first | rfl | cases h

theorem keeps_round (hgoes : k.limitReached maxRounds = false) (hinv : LoopInv maxRounds (.top k) n) :
    LoopInv maxRounds (.requesting (k.beginRound maxRounds)) (n.note (.top k) .tick) := by
  obtain ⟨hrounds, hretries, hfailed, hcase⟩ := hinv
  refine ⟨congrArg (· + 1) hrounds, hretries, hfailed, ?_⟩
  simp only [LoopCounters.limitReached, Bool.and_eq_false_iff, decide_eq_false_iff_not] at hgoes
  by_cases hfinal : k.finalAnswerAttempted = true
  · -- the limit was reached before
    rw [if_pos hfinal] at hcase
    rcases hgoes with hroom | hnot
    · omega
    · rw [hfinal] at hnot
      cases hnot
  · rw [if_neg hfinal] at hcase
    obtain ⟨hopened, hpasses⟩ := hcase
    have hfinal' : (k.beginRound maxRounds).finalAnswerAttempted =
        decide (maxRounds < k.rounds + 1) := by
      simp only [LoopCounters.beginRound, hfinal, Bool.false_or]
    rw [hfinal', hrounds]
    show if decide (maxRounds < n.opened + 1) = true then
        n.opened = maxRounds ∧ n.passes + 1 ≤ 4 * maxRounds + 1
      else n.opened < maxRounds ∧ n.passes + 1 ≤ 4 * n.opened + n.failed + 1
    by_cases hlast : maxRounds < n.opened + 1
    · rw [if_pos (decide_eq_true hlast)]
      omega
    · rw [if_neg (by simpa using hlast)]
      omega

theorem keeps_streamOpened (hinv : LoopInv maxRounds (.requesting k) n) :
    LoopInv maxRounds (.inside { k with overflowRetryCount := 0 })
      (n.note (.requesting k) .streamOpened) := by
  obtain ⟨hrounds, -, hfailed, hcase⟩ := hinv
  refine ⟨hrounds, rfl, rfl, ?_⟩
  show if k.finalAnswerAttempted = true then
      n.opened + 1 = maxRounds + 1 ∧ n.passes ≤ 4 * maxRounds + 1
    else n.opened + 1 ≤ maxRounds ∧ n.passes ≤ 4 * (n.opened + 1)
  split at hcase
  · rename_i hfinal
    rw [if_pos hfinal]
    omega
  · rename_i hfinal
    rw [if_neg hfinal]
    omega

theorem keeps_overflow {message : String} (hretry : k.overflowRetryCount < 3)
    (hinv : LoopInv maxRounds (.requesting k) n) :
    LoopInv maxRounds (.top k.retry) (n.note (.requesting k) (.streamFailed message)) := by
  obtain ⟨hrounds, hretries, hfailed, hcase⟩ := hinv
  refine ⟨?_, congrArg (· + 1) hretries, ?_, ?_⟩
  · show k.rounds - 1 = n.opened
    omega
  · show n.failed + 1 ≤ 3
    omega
  · show if k.finalAnswerAttempted = true then
        maxRounds ≤ n.opened ∧ n.opened ≤ maxRounds + 1 ∧ n.passes ≤ 4 * maxRounds + 1
      else (n.opened < maxRounds ∨ n.opened = maxRounds ∧ n.failed + 1 = 0) ∧
        n.passes ≤ 4 * n.opened + (n.failed + 1)
    split at hcase
    · rename_i hfinal
      rw [if_pos hfinal]
      omega
    · rename_i hfinal
      rw [if_neg hfinal]
      omega

/-- Whatever ends the call, the counts are within the bounds. -/
theorem LoopInv.bounded {place : LoopPlace} (hinv : LoopInv maxRounds place n) :
    n.opened ≤ maxRounds + 1 ∧ n.passes ≤ 4 * (maxRounds + 1) ∧ n.failed ≤ 4 := by
  cases place with
  | outside => exact hinv
  | opening k =>
    obtain ⟨-, rfl⟩ := hinv
    exact ⟨Nat.zero_le _, Nat.zero_le _, Nat.zero_le _⟩
  | top k | requesting k | inside k =>
    obtain ⟨-, -, hfailed, hcase⟩ := hinv
    split at hcase <;> omega

theorem keeps_limit (hlimit : k.limitReached maxRounds = true) (hinv : LoopInv maxRounds (.top k) n) :
    LoopInv maxRounds .outside (n.note (.top k) .tick) := by
  obtain ⟨-, -, hfailed, hcase⟩ := hinv
  rw [if_pos (Bool.and_eq_true_iff.mp hlimit).2] at hcase
  show n.opened ≤ maxRounds + 1 ∧ n.passes + 1 ≤ 4 * (maxRounds + 1) ∧ n.failed ≤ 4
  omega

theorem LoopMove.keeps {place place' : LoopPlace} {event : Event}
    (h : LoopMove maxRounds place event place') (hcall : event.isBetweenCalls = false)
    (hinv : LoopInv maxRounds place n) : LoopInv maxRounds place' (n.note place event) := by
  cases h with
  | sent | answered | cleared => cases hcall
  | opening => exact hinv
  | entered =>
    obtain ⟨rfl, rfl⟩ := hinv
    refine ⟨rfl, rfl, Nat.zero_le 3, ?_⟩
    show (0 < maxRounds ∨ 0 = maxRounds ∧ 0 = 0) ∧ 0 ≤ 4 * 0 + 0
    omega
  | limit hlimit => exact keeps_limit hlimit hinv
  | round hgoes => exact keeps_round hgoes hinv
  | streamOpened => exact keeps_streamOpened hinv
  | overflow hretry => exact keeps_overflow hretry hinv
  | failed =>
    obtain ⟨-, -, hfailed, hcase⟩ := hinv
    show n.opened ≤ maxRounds + 1 ∧ n.passes ≤ 4 * (maxRounds + 1) ∧ n.failed + 1 ≤ 4
    split at hcase <;> omega
  | work hwork =>
    rw [note_work hwork]
    exact hinv
  | again hwork =>
    rw [note_work hwork]
    obtain ⟨hrounds, hretries, hfailed, hcase⟩ := hinv
    refine ⟨hrounds, hretries, by omega, ?_⟩
    split at hcase
    · rename_i hfinal
      rw [if_pos hfinal]
      omega
    · rename_i hfinal
      rw [if_neg hfinal]
      omega
  | returned hwork =>
    rw [note_work hwork]
    exact hinv.bounded
  | cancelled hawaits =>
    cases place with
    | requesting k => exact hinv.bounded
    | inside k => exact hinv.bounded
    | _ => cases hawaits

end Moves

/-! ### Runs -/

variable (env : Environment)

def loopTrace : Machine → List Event → List (LoopPlace × Event)
  | _, [] => []
  | c, event :: events =>
    (c.phase.place, event) ::
      match step env event c with
      | some (_, _, c') => loopTrace c' events
      | none => []

theorem loopTrace_cons {c c' : Machine} {event : Event} {out : List Report}
    (h : step env event c = some ((), out, c')) (events : List Event) :
    loopTrace env c (event :: events) = (c.phase.place, event) :: loopTrace env c' events := by
  rw [loopTrace, h]

def loopPasses (c : Machine) (events : List Event) : ℕ :=
  (loopTrace env c events).countP fun entry => entry.1.isTop

def LoopCount.noteAll (n : LoopCount) (trace : List (LoopPlace × Event)) : LoopCount :=
  trace.foldl (fun n entry => n.note entry.1 entry.2) n

/-- What is known of a run: the counts, and the weight that is left. -/
structure LoopRun (c : Machine) (events : List Event) (c' : Machine) (n : LoopCount) : Prop where
  inv : LoopInv env.resolveMaxToolRounds c'.phase.place (n.noteAll (loopTrace env c events))
  length : events.length + c'.phase.weight ≤
    c.phase.weight + 7 * loopPasses env c events + 4 * events.countP Event.isSignal
  opened : (n.noteAll (loopTrace env c events)).opened = n.opened + events.countP Event.isOpening
  passes : (n.noteAll (loopTrace env c events)).passes = n.passes + loopPasses env c events
  failed : events.countP Event.isOpening = 0 →
    (n.noteAll (loopTrace env c events)).failed = n.failed + events.countP Event.isFailure

theorem step_weight {c c' : Machine} {event : Event} {out : List Report}
    (hstep : step env event c = some ((), out, c')) (hcall : event.isBetweenCalls = false) :
    c'.phase.weight + 1 ≤ c.phase.weight + 7 * (if c.phase.place.isTop then 1 else 0) +
      4 * (if event.isSignal then 1 else 0) := by
  obtain ⟨-, hweight⟩ := advance_moves env c.phase event c.manager c'.phase out c'.manager
    (advance_of_step env hstep)
  cases event with
  | send | clear => cases hcall
  | signal signal =>
    have hle : c'.phase.weight ≤ c.phase.weight + 3 := hweight
    rw [if_pos (show (Event.signal signal).isSignal = true from rfl)]
    omega
  | _ =>
    simp only [WeightMove] at hweight
    split at hweight
    · rename_i hphase
      rw [if_pos (by rw [hphase]; rfl)]
      omega
    · omega

theorem loopRun {events : List Event} (hcalls : ∀ event ∈ events, event.isBetweenCalls = false)
    {c c' : Machine} {n : LoopCount} {reports : List Report}
    (hinv : LoopInv env.resolveMaxToolRounds c.phase.place n)
    (hrun : run env events c = some ((), reports, c')) : LoopRun env c events c' n := by
  induction events generalizing c n reports with
  | nil =>
    obtain ⟨-, rfl⟩ := by simpa [run, forEach] using hrun
    refine ⟨hinv, ?_, rfl, rfl, fun _ => rfl⟩
    show 0 + c.phase.weight ≤ c.phase.weight + 7 * 0 + 4 * 0
    omega
  | cons event events ih =>
    obtain ⟨⟨⟩, out, c₁, out', hstep, hrest, -⟩ := bind_eq_some hrun
    have hcall := hcalls event List.mem_cons_self
    obtain ⟨hmove, -⟩ := advance_moves env c.phase event c.manager c₁.phase out c₁.manager
      (advance_of_step env hstep)
    have hrest' := ih (fun other h => hcalls other (List.mem_cons_of_mem event h))
      (hmove.keeps hcall hinv) hrest
    have hweight := step_weight env hstep hcall
    have htrace := loopTrace_cons env hstep events
    have hpasses : loopPasses env c (event :: events) =
        loopPasses env c₁ events + if c.phase.place.isTop then 1 else 0 := by
      rw [loopPasses, htrace, List.countP_cons, ← loopPasses]
    obtain ⟨hinv', hlength, hopened, hcount, hfailed⟩ := hrest'
    refine ⟨?_, ?_, ?_, ?_, ?_⟩
    · rw [htrace]
      exact hinv'
    · rw [List.length_cons, List.countP_cons]
      omega
    · rw [htrace]
      show ((n.note c.phase.place event).noteAll (loopTrace env c₁ events)).opened = _
      rw [hopened, List.countP_cons]
      show (if event.isOpening then n.opened + 1 else n.opened) + _ = _
      split <;> omega
    · rw [htrace]
      show ((n.note c.phase.place event).noteAll (loopTrace env c₁ events)).passes = _
      rw [hcount, hpasses]
      show (if c.phase.place.isTop then n.passes + 1 else n.passes) + _ = _
      split <;> omega
    · intro hnone
      rw [List.countP_cons] at hnone
      have hother : event.isOpening = false := by
        cases hevent : event.isOpening with
        | false => rfl
        | true =>
          rw [hevent] at hnone
          cases hnone
      rw [htrace]
      show ((n.note c.phase.place event).noteAll (loopTrace env c₁ events)).failed = _
      rw [hfailed (by omega), List.countP_cons]
      show (if event.isOpening then 0 else if event.isFailure then n.failed + 1 else n.failed) + _ = _
      rw [hother, if_neg (by decide)]
      split <;> omega

end Vexcoder.Conversation
