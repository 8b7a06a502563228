import Vexcoder.Stream.SseFraming

/-!
# The frames of a byte stream

`splitStep` is a machine that reads the stream a byte at a time: a frame ends at the first line
terminator that follows another, and terminators at the head of a frame are skipped.  The machine has
no buffer, so cutting the stream changes nothing (`split_append`).  The search of the source for the
next delimiter finds the frames of the machine (`split_cutFrames`); what it leaves in its buffer may
differ by terminators at the head.
-/

namespace Vexcoder.Stream.FrameSplit

open Base Lib

def isTerminator (b : UInt8) : Bool := b == lineFeed || b == carriageReturn

/-- Where the machine stands: at the head of a frame, behind a byte of text, or behind a line
terminator that ended a line of text. -/
inductive SplitState where
  | head
  | line (text : List UInt8)
  | terminated (text terminator : List UInt8)
  deriving DecidableEq

/-- One byte, and the frame that it ends. -/
def splitStep : SplitState → UInt8 → SplitState × List (List UInt8)
  | .head, b => if isTerminator b then (.head, []) else (.line [b], [])
  | .line text, b =>
    if isTerminator b then (.terminated text [b], []) else (.line (text ++ [b]), [])
  | .terminated text terminator, b =>
    if terminator = [carriageReturn] ∧ b = lineFeed then (.terminated text [carriageReturn, b], [])
    else if isTerminator b then (.head, [text])
    else (.line (text ++ terminator ++ [b]), [])

/-- The frames that a machine run ends, and where it stands then. -/
def split : SplitState → List UInt8 → List (List UInt8) × SplitState
  | q, [] => ([], q)
  | q, b :: bytes =>
    ((splitStep q b).2 ++ (split (splitStep q b).1 bytes).1, (split (splitStep q b).1 bytes).2)

def addFrames (frames : List (List UInt8)) (r : List (List UInt8) × SplitState) :
    List (List UInt8) × SplitState := (frames ++ r.1, r.2)

@[simp] theorem addFrames_nil (r : List (List UInt8) × SplitState) : addFrames [] r = r := rfl

theorem addFrames_addFrames (frames frames' : List (List UInt8)) (r : List (List UInt8) × SplitState) :
    addFrames frames (addFrames frames' r) = addFrames (frames ++ frames') r := by
  simp [addFrames]

theorem split_cons (q : SplitState) (b : UInt8) (bytes : List UInt8) :
    split q (b :: bytes) = addFrames (splitStep q b).2 (split (splitStep q b).1 bytes) := rfl

theorem split_append (q : SplitState) (bytes bytes' : List UInt8) :
    split q (bytes ++ bytes') = addFrames (split q bytes).1 (split (split q bytes).2 bytes') := by
  induction bytes generalizing q with
  | nil => rfl
  | cons b bytes ih => rw [List.cons_append, split_cons, ih, addFrames_addFrames]; rfl

/-! ### Text without the terminators at its head -/

def body (frame : List UInt8) : List UInt8 := frame.dropWhile isTerminator

def bodyFrames (frame : List UInt8) : List (List UInt8) :=
  if body frame = [] then [] else [body frame]

variable {b : UInt8} {buffer : List UInt8} {n fuel : ℕ}

theorem body_cons_terminator (hb : isTerminator b = true) (frame : List UInt8) :
    body (b :: frame) = body frame := by simp [body, hb]

theorem bodyFrames_cons_terminator (hb : isTerminator b = true) (frame : List UInt8) :
    bodyFrames (b :: frame) = bodyFrames frame := by
  simp only [bodyFrames, body_cons_terminator hb]

theorem bodyFrames_cons_text (hb : isTerminator b = false) (frame : List UInt8) :
    bodyFrames (b :: frame) = [b :: frame] := by simp [bodyFrames, body, hb]

/-! ### Line terminators -/

/-- The three line terminators. -/
theorem terminator_cases (h : sseLineTerminatorLen buffer = some n) :
    (∃ rest, buffer = lineFeed :: rest ∧ n = 1) ∨
      (∃ rest, buffer = carriageReturn :: lineFeed :: rest ∧ n = 2) ∨
      ∃ rest, buffer = carriageReturn :: rest ∧ rest.head? ≠ some lineFeed ∧ n = 1 := by
  cases buffer with
  | nil => cases h
  | cons b rest =>
    simp only [sseLineTerminatorLen] at h
    split at h
    · rename_i hb
      subst hb
      exact Or.inl ⟨rest, rfl, (Option.some.inj h).symm⟩
    split at h
    · rename_i hb
      subst hb
      split at h
      · rename_i hhead
        cases rest with
        | nil => cases hhead
        | cons c rest =>
          obtain rfl := Option.some.inj hhead
          exact Or.inr (Or.inl ⟨rest, rfl, (Option.some.inj h).symm⟩)
      · rename_i hhead
        exact Or.inr (Or.inr ⟨rest, rfl, hhead, (Option.some.inj h).symm⟩)
    · cases h

theorem isTerminator_of_none {rest : List UInt8} (h : sseLineTerminatorLen (b :: rest) = none) :
    isTerminator b = false := by
  simp only [sseLineTerminatorLen] at h
  split at h
  · cases h
  split at h
  · split at h <;> cases h
  · rename_i hlf hcr
    simp [isTerminator, hlf, hcr]

theorem terminator_le (h : sseLineTerminatorLen buffer = some n) : 0 < n ∧ n ≤ buffer.length := by
  rcases terminator_cases h with ⟨rest, rfl, rfl⟩ | ⟨rest, rfl, rfl⟩ | ⟨rest, rfl, -, rfl⟩ <;>
    simp

/-- A terminator behind text: all of it is read as one. -/
theorem split_line_terminator (h : sseLineTerminatorLen buffer = some n) (text : List UInt8) :
    split (.line text) buffer = split (.terminated text (buffer.take n)) (buffer.drop n) := by
  rcases terminator_cases h with ⟨rest, rfl, rfl⟩ | ⟨rest, rfl, rfl⟩ | ⟨rest, rfl, -, rfl⟩ <;> rfl

/-- A terminator at the head is skipped. -/
theorem split_head_terminator (h : sseLineTerminatorLen buffer = some n) :
    split .head buffer = split .head (buffer.drop n) ∧
      ∀ k, bodyFrames (buffer.take (n + k)) = bodyFrames ((buffer.drop n).take k) := by
  rcases terminator_cases h with ⟨rest, rfl, rfl⟩ | ⟨rest, rfl, rfl⟩ | ⟨rest, rfl, -, rfl⟩
  · refine ⟨rfl, fun k => ?_⟩
    rw [Nat.add_comm]
    exact bodyFrames_cons_terminator rfl _
  · refine ⟨rfl, fun k => ?_⟩
    rw [Nat.add_comm]
    exact (bodyFrames_cons_terminator rfl _).trans (bodyFrames_cons_terminator rfl _)
  · refine ⟨rfl, fun k => ?_⟩
    rw [Nat.add_comm]
    exact bodyFrames_cons_terminator rfl _

/-- The second terminator ends the frame. -/
theorem split_terminated_terminator {firstLen secondLen : ℕ} (h : sseLineTerminatorLen buffer = some firstLen)
    (h' : sseLineTerminatorLen (buffer.drop firstLen) = some secondLen) (text : List UInt8) :
    split (.terminated text (buffer.take firstLen)) (buffer.drop firstLen) =
      addFrames [text] (split .head (buffer.drop (firstLen + secondLen))) := by
  have hfirst : ¬ (buffer.take firstLen = [carriageReturn] ∧
      (buffer.drop firstLen).head? = some lineFeed) := by
    rcases terminator_cases h with ⟨rest, rfl, rfl⟩ | ⟨rest, rfl, rfl⟩ | ⟨rest, rfl, hhead, rfl⟩
    · rintro ⟨hcr, -⟩
      cases hcr
    · rintro ⟨hcr, -⟩
      cases hcr
    · exact fun hboth => hhead hboth.2
  rw [← List.drop_drop]
  generalize buffer.take firstLen = terminator at hfirst ⊢
  generalize buffer.drop firstLen = buffer at hfirst h' ⊢
  rcases terminator_cases h' with ⟨rest, rfl, rfl⟩ | ⟨rest, rfl, rfl⟩ | ⟨rest, rfl, -, rfl⟩
  · have hne : ¬ (terminator = [carriageReturn] ∧ lineFeed = lineFeed) := fun hboth =>
      hfirst ⟨hboth.1, rfl⟩
    rw [split_cons, splitStep, if_neg hne]
    rfl
  all_goals
    rw [split_cons, splitStep, if_neg (fun hboth => absurd hboth.2 (by decide))]
    rfl

/-- Text behind a terminator: the line goes on. -/
theorem split_terminated_text {rest : List UInt8} (hb : isTerminator b = false)
    (text terminator : List UInt8) :
    split (.terminated text terminator) (b :: rest) =
      split (.line (text ++ terminator)) (b :: rest) := by
  have hne : ¬ (terminator = [carriageReturn] ∧ b = lineFeed) := by
    rintro ⟨-, rfl⟩
    cases hb
  rw [split_cons, split_cons]
  simp only [splitStep, if_neg hne, hb, Bool.false_eq_true, if_false]

/-! ### The search for a delimiter -/

/-- Without a delimiter no frame ends. -/
theorem split_of_no_delimiter {index : ℕ} (hfuel : buffer.length ≤ fuel)
    (h : findSseFrameDelimiterFrom fuel index buffer = none) :
    (∀ text, (split (.line text) buffer).1 = []) ∧ (split .head buffer).1 = [] := by
  induction fuel generalizing index buffer with
  | zero =>
    obtain rfl := List.eq_nil_of_length_eq_zero (Nat.le_zero.mp hfuel)
    exact ⟨fun _ => rfl, rfl⟩
  | succ fuel ih =>
    cases buffer with
    | nil => exact ⟨fun _ => rfl, rfl⟩
    | cons b rest =>
      have hrest : rest.length ≤ fuel := Nat.le_of_succ_le_succ hfuel
      simp only [findSseFrameDelimiterFrom, List.isEmpty_cons, Bool.false_eq_true, if_false] at h
      cases hterm : sseLineTerminatorLen (b :: rest) with
      | none =>
        simp only [hterm] at h
        have hb := isTerminator_of_none hterm
        obtain ⟨hline, -⟩ := ih hrest h
        simp only [split_cons, splitStep, hb, Bool.false_eq_true, if_false, addFrames, List.nil_append]
        exact ⟨fun text => hline _, hline _⟩
      | some firstLen =>
        simp only [hterm] at h
        cases hsecond : sseLineTerminatorLen ((b :: rest).drop firstLen) with
        | some secondLen => rw [hsecond] at h; cases h
        | none =>
          simp only [hsecond] at h
          have hshort : ((b :: rest).drop firstLen).length ≤ fuel := by
            obtain ⟨hpos, -⟩ := terminator_le hterm
            simp only [List.length_drop, List.length_cons]
            omega
          obtain ⟨hline, hhead⟩ := ih hshort h
          refine ⟨fun text => ?_, ?_⟩
          · rw [split_line_terminator hterm]
            cases hdrop : (b :: rest).drop firstLen with
            | nil => rfl
            | cons c rest' =>
              rw [hdrop] at hsecond hline
              rw [split_terminated_text (isTerminator_of_none hsecond)]
              exact hline _
          · rw [(split_head_terminator hterm).1]
            exact hhead

/-- At a delimiter the frame in front of it ends, and the next one begins behind it. -/
theorem split_of_delimiter {index pos delimLen : ℕ}
    (h : findSseFrameDelimiterFrom fuel index buffer = some (pos, delimLen)) :
    ∃ k, pos = index + k ∧ 0 < delimLen ∧ k + delimLen ≤ buffer.length ∧
      (∀ text, split (.line text) buffer =
        addFrames [text ++ buffer.take k] (split .head (buffer.drop (k + delimLen)))) ∧
      split .head buffer =
        addFrames (bodyFrames (buffer.take k)) (split .head (buffer.drop (k + delimLen))) := by
  induction fuel generalizing index buffer with
  | zero => cases h
  | succ fuel ih =>
    cases buffer with
    | nil => cases h
    | cons b rest =>
      simp only [findSseFrameDelimiterFrom, List.isEmpty_cons, Bool.false_eq_true, if_false] at h
      cases hterm : sseLineTerminatorLen (b :: rest) with
      | none =>
        simp only [hterm] at h
        have hb := isTerminator_of_none hterm
        obtain ⟨k, rfl, hpos, hle, hline, -⟩ :=
          ih (show findSseFrameDelimiterFrom fuel (index + 1) rest = some (pos, delimLen) from h)
        refine ⟨k + 1, by omega, hpos, by simp only [List.length_cons]; omega, fun text => ?_, ?_⟩
        · rw [split_cons, Nat.add_right_comm]
          simp only [splitStep, hb, Bool.false_eq_true, if_false, hline, List.take_succ_cons,
            List.drop_succ_cons, addFrames_nil, List.append_assoc, List.singleton_append]
        · rw [split_cons, Nat.add_right_comm]
          simp only [splitStep, hb, Bool.false_eq_true, if_false, hline, List.take_succ_cons,
            List.drop_succ_cons, addFrames_nil, List.singleton_append, bodyFrames_cons_text hb]
      | some firstLen =>
        simp only [hterm] at h
        cases hsecond : sseLineTerminatorLen ((b :: rest).drop firstLen) with
        | some secondLen =>
          simp only [hsecond] at h
          obtain ⟨rfl, rfl⟩ := by simpa using h
          obtain ⟨hpos, hle⟩ := terminator_le hterm
          obtain ⟨-, hle'⟩ := terminator_le hsecond
          rw [List.length_drop] at hle'
          refine ⟨0, rfl, by omega, by omega, fun text => ?_, ?_⟩
          · rw [split_line_terminator hterm, split_terminated_terminator hterm hsecond, Nat.zero_add,
              List.take_zero, List.append_nil]
          · rw [(split_head_terminator hterm).1, (split_head_terminator hsecond).1, List.drop_drop,
              Nat.zero_add]
            rfl
        | none =>
          simp only [hsecond] at h
          obtain ⟨k, rfl, hpos, hle, hline, hhead⟩ := ih h
          rw [List.length_drop] at hle
          refine ⟨firstLen + k, by omega, hpos, by omega, fun text => ?_, ?_⟩
          · rw [split_line_terminator hterm]
            cases hdrop : (b :: rest).drop firstLen with
            | nil =>
              have hlen := congrArg List.length hdrop
              rw [List.length_drop, List.length_nil] at hlen
              omega
            | cons c rest' =>
              have hc := isTerminator_of_none (hdrop ▸ hsecond)
              rw [split_terminated_text hc, ← hdrop, hline, List.drop_drop, List.take_add,
                List.append_assoc, Nat.add_assoc]
          · obtain ⟨hskip, hbody⟩ := split_head_terminator hterm
            rw [hskip, hhead, hbody, List.drop_drop, Nat.add_assoc]

/-! ### Cutting a buffer -/

/-- The frames that the loop of `process` cuts off, and what it leaves in the buffer. -/
def cutFrames : ℕ → List UInt8 → List (List UInt8) × List UInt8
  | 0, buffer => ([], buffer)
  | fuel + 1, buffer =>
    match findSseFrameDelimiter buffer with
    | none => ([], buffer)
    | some (pos, delimLen) =>
      let cut := cutFrames fuel (buffer.drop (pos + delimLen))
      (buffer.take pos :: cut.1, cut.2)

/-- The loop cuts off the frames of the machine, and leaves nothing that ends a frame. -/
theorem split_cutFrames (hfuel : buffer.length ≤ fuel) :
    split .head buffer = addFrames ((cutFrames fuel buffer).1.flatMap bodyFrames)
      (split .head (cutFrames fuel buffer).2) ∧
      (split .head (cutFrames fuel buffer).2).1 = [] := by
  induction fuel generalizing buffer with
  | zero =>
    obtain rfl := List.eq_nil_of_length_eq_zero (Nat.le_zero.mp hfuel)
    exact ⟨rfl, rfl⟩
  | succ fuel ih =>
    rw [cutFrames]
    cases hfind : findSseFrameDelimiter buffer with
    | none => exact ⟨rfl, (split_of_no_delimiter (Nat.le_refl _) hfind).2⟩
    | some delimiter =>
      obtain ⟨pos, delimLen⟩ := delimiter
      obtain ⟨k, rfl, hpos, hle, -, hhead⟩ := split_of_delimiter hfind
      have hshort : (buffer.drop (0 + k + delimLen)).length ≤ fuel := by
        rw [List.length_drop]
        omega
      obtain ⟨hcut, hleft⟩ := ih hshort
      refine ⟨?_, hleft⟩
      simp only [Nat.zero_add] at hcut ⊢
      rw [hhead, hcut, addFrames_addFrames, List.flatMap_cons]

end Vexcoder.Stream.FrameSplit
