import Vexcoder.Task.ChannelFile

/-!
# Senders at one channel

Any number of senders append to the file of a channel.  One at a time has the lock; it counts the lines,
and then writes its own, some bytes at a time.  A write may fail, and then the lock is free again and
what was written of the line stays.
-/

namespace Vexcoder.Task

open Base Lib
open Lib.LineChunks
open Vexcoder.Stream (lineFeed)

inductive AppendPhase where
  | idle
  | waiting (message : PeerMessage)
  /-- The sender has the lock. -/
  | locked (message : PeerMessage)
  /-- The bytes of the line that are not yet written. -/
  | writing (left : List UInt8)

structure Senders where
  file : List UInt8 := []
  lock : Option ℕ := none
  phases : ℕ → AppendPhase := fun _ => .idle

inductive SenderEvent where
  | call (i : ℕ) (message : PeerMessage)
  | acquire (i : ℕ)
  /-- The sender counts the lines and opens the file, or finds the channel full. -/
  | check (i : ℕ)
  | write (i n : ℕ)
  /-- The append returns, with or without an error, or its process ends. -/
  | leave (i : ℕ)

namespace Senders

variable (codec : PeerMessageCodec)

def setPhase (i : ℕ) (phase : AppendPhase) (s : Senders) : Senders :=
  { s with phases := Function.update s.phases i phase }

def release (i : ℕ) (s : Senders) : Senders :=
  { s with lock := if s.lock = some i then none else s.lock }.setPhase i .idle

def step (s : Senders) : SenderEvent → Senders
  | .call i message =>
    match s.phases i with
    | .idle => s.setPhase i (.waiting message)
    | _ => s
  | .acquire i =>
    match s.phases i with
    | .waiting message =>
      if s.lock = none then { s with lock := some i }.setPhase i (.locked message) else s
    | _ => s
  | .check i =>
    match s.phases i with
    | .locked message =>
      match appendToFile codec s.file message with
      | .error _ => s.release i
      | .ok _ => s.setPhase i (.writing (messageBytes codec message ++ [lineFeed]))
    | _ => s
  | .write i n =>
    match s.phases i with
    | .writing left => { s with file := s.file ++ left.take n }.setPhase i (.writing (left.drop n))
    | _ => s
  | .leave i => s.release i

def run (s : Senders) (events : List SenderEvent) : Senders := events.foldl (step codec) s

/-! ### The depth of the channel -/

/-- A sender that writes has counted fewer lines than the channel may have, before its own. -/
def Holds (i : ℕ) (s : Senders) : AppendPhase → Prop
  | .idle | .waiting _ => True
  | .locked _ => s.lock = some i
  | .writing left => s.lock = some i ∧ ∃ base part text, s.file = base ++ part ∧
      countFileLines base < maxChannelDepth ∧ lineFeed ∉ text ∧ part ++ left = text ++ [lineFeed]

/-- No more messages than the channel may have, and the lock with the one sender that uses it. -/
structure DepthInv (s : Senders) : Prop where
  depth : countFileLines s.file ≤ maxChannelDepth
  holds : ∀ i, s.Holds i (s.phases i)

/-- The lines of the messages have no line feed in them. -/
def OneLine (codec : PeerMessageCodec) : Prop := ∀ message, '\n' ∉ (codec.toString message).toList

variable {codec} {s : Senders} {i : ℕ} {phase : AppendPhase}

theorem countFileLines_append_le {text part : List UInt8} (htext : lineFeed ∉ text)
    (hpart : part <+: text ++ [lineFeed]) (file : List UInt8) :
    countFileLines (file ++ part) ≤ countFileLines file + 1 :=
  countP_append_le _ htext hpart

theorem Holds.of_same {s' : Senders} (h : s.Holds i phase) (hfile : s'.file = s.file)
    (hlock : s.lock = some i → s'.lock = some i) : s'.Holds i phase := by
  cases phase with
  | idle | waiting message => trivial
  | locked message => exact hlock h
  | writing left =>
    obtain ⟨hholds, base, part, text, hsplit, hrest⟩ := h
    exact ⟨hlock hholds, base, part, text, hfile.trans hsplit, hrest⟩

theorem DepthInv.setPhase {s' : Senders} (h : s.DepthInv) (hfile : s'.file = s.file)
    (hphases : s'.phases = s.phases) (hlock : ∀ j, j ≠ i → s.lock = some j → s'.lock = some j)
    (hphase : (s'.setPhase i phase).Holds i phase) : (s'.setPhase i phase).DepthInv := by
  refine ⟨?_, fun j => ?_⟩
  · show countFileLines s'.file ≤ maxChannelDepth
    rw [hfile]
    exact h.depth
  · show (s'.setPhase i phase).Holds j (Function.update s'.phases i phase j)
    by_cases hj : j = i
    · subst hj
      rw [Function.update_self]
      exact hphase
    · rw [Function.update_of_ne hj, hphases]
      exact (h.holds j).of_same hfile (hlock j hj)

theorem DepthInv.release (h : s.DepthInv) (i : ℕ) : (s.release i).DepthInv := by
  refine DepthInv.setPhase h rfl rfl (fun j hj hlock => ?_) trivial
  have hother : s.lock ≠ some i := by
    rw [hlock]
    exact fun heq => hj (Option.some.inj heq)
  show (if s.lock = some i then none else s.lock) = some j
  rw [if_neg hother]
  exact hlock

/-- **One step** of a sender. -/
theorem DepthInv.step (hcodec : OneLine codec) (h : s.DepthInv) (event : SenderEvent) :
    (s.step codec event).DepthInv := by
  cases event with
  | call i message =>
    rw [Senders.step]
    cases hphase : s.phases i with
    | idle => exact h.setPhase rfl rfl (fun _ _ => id) trivial
    | waiting _ | locked _ | writing _ => exact h
  | acquire i =>
    rw [Senders.step]
    cases hphase : s.phases i with
    | waiting message =>
      dsimp only
      split
      · rename_i hfree
        refine h.setPhase rfl rfl (fun j _ hlock => ?_) rfl
        rw [hfree] at hlock
        cases hlock
      · exact h
    | idle | locked _ | writing _ => exact h
  | check i =>
    rw [Senders.step]
    cases hphase : s.phases i with
    | locked message =>
      have hlock : s.lock = some i := by
        have := h.holds i
        rwa [hphase] at this
      dsimp only
      cases happend : appendToFile codec s.file message with
      | error error => exact h.release i
      | ok file =>
        refine h.setPhase rfl rfl (fun _ _ => id) ⟨hlock, s.file, [], messageBytes codec message, ?_, ?_,
          lineFeed_notMem_utf8 (hcodec message), rfl⟩
        · exact (List.append_nil _).symm
        · rw [appendToFile] at happend
          split at happend
          · cases happend
          · rename_i hroom
            exact Nat.lt_of_not_le hroom
    | idle | waiting _ | writing _ => exact h
  | write i n =>
    rw [Senders.step]
    cases hphase : s.phases i with
    | writing left =>
      have hi := h.holds i
      rw [hphase] at hi
      obtain ⟨hlock, base, part, text, hfile, hcount, htext, hline⟩ := hi
      have hfile' : s.file ++ left.take n = base ++ (part ++ left.take n) := by
        rw [hfile, List.append_assoc]
      have hline' : part ++ left.take n ++ left.drop n = text ++ [lineFeed] := by
        rw [List.append_assoc, List.take_append_drop, hline]
      refine ⟨?_, fun j => ?_⟩
      · show countFileLines (s.file ++ left.take n) ≤ maxChannelDepth
        have := countFileLines_append_le htext ⟨left.drop n, hline'⟩ base
        rw [hfile']
        omega
      · show Holds j _ (Function.update s.phases i (.writing (left.drop n)) j)
        by_cases hj : j = i
        · subst hj
          rw [Function.update_self]
          exact ⟨hlock, base, part ++ left.take n, text, hfile', hcount, htext, hline'⟩
        · -- no other sender has the lock
          rw [Function.update_of_ne hj]
          have hj' := h.holds j
          cases hphasej : s.phases j with
          | idle => trivial
          | waiting message => trivial
          | locked message =>
            rw [hphasej] at hj'
            exact absurd (Option.some.inj (hj'.symm.trans hlock)) hj
          | writing left' =>
            rw [hphasej] at hj'
            exact absurd (Option.some.inj (hj'.1.symm.trans hlock)) hj
    | idle | waiting _ | locked _ => exact h
  | leave i => exact h.release i

theorem depthInv_run (hcodec : OneLine codec) (h : s.DepthInv) (events : List SenderEvent) :
    (s.run codec events).DepthInv := by
  induction events generalizing s with
  | nil => exact h
  | cons event events ih => exact ih (h.step hcodec event)

theorem length_messagesOf_le (codec : PeerMessageCodec) (file : List UInt8) :
    (messagesOf codec file).length ≤ countFileLines file := by
  rw [messagesOf, countFileLines]
  induction chunks lineFeed file with
  | nil => exact Nat.le_refl 0
  | cons chunk cs ih =>
    rw [List.countP_cons]
    cases hparse : parseChunk codec chunk with
    | none =>
      rw [List.filterMap_cons_none hparse]
      omega
    | some message =>
      rw [List.filterMap_cons_some hparse, List.length_cons]
      obtain ⟨line, hline, hmessage⟩ := Option.bind_eq_some_iff.mp hparse
      rw [hline]
      split at hmessage
      · cases hmessage
      · rename_i hblank
        rw [if_pos (by simpa using hblank)]
        omega

/-- **The depth of the channel**, whatever the senders do. -/
theorem depth_run (hcodec : OneLine codec) {file : List UInt8}
    (hfile : countFileLines file ≤ maxChannelDepth) (events : List SenderEvent) :
    countFileLines (run codec { file } events).file ≤ maxChannelDepth ∧
      (messagesOf codec (run codec { file } events).file).length ≤ maxChannelDepth := by
  have hstart : DepthInv { file } := ⟨hfile, fun _ => trivial⟩
  have hdepth := (depthInv_run hcodec hstart events).depth
  exact ⟨hdepth, (length_messagesOf_le codec _).trans hdepth⟩

end Senders

end Vexcoder.Task
