import Mathlib.Data.List.Infix
import Vexcoder.Stream.FrameSplit

/-!
# Framing does not depend on the chunks

The parser's work on a stream is determined by the frames of its bytes (`sseFrames`), whatever the
chunks are: `processChunks_run` says that the calls of `process` together handle exactly these frames,
in order, as long as none of them finds the buffer too long.  Two ways of cutting one stream are then
compared through it (`process_chunk_invariant`).
-/

namespace Vexcoder.Base

theorem fromUtf8_cons {b : UInt8} {c : Char} (hc : String.utf8EncodeChar c = [b])
    (bytes : List UInt8) : fromUtf8 (b :: bytes) = (fromUtf8 bytes).map (c :: ·) := by
  have hsplit : ByteArray.mk (b :: bytes).toArray = [c].utf8Encode ++ ByteArray.mk bytes.toArray := by
    apply ByteArray.ext
    simp [List.utf8Encode, hc, ByteArray.data_append]
  rw [fromUtf8, hsplit, ByteArray.utf8Decode?_utf8Encode_singleton_append, fromUtf8,
    Option.map_map, Option.map_map]
  congr 1
  funext decoded
  simp

/-- Decoding inverts encoding. -/
theorem fromUtf8_encode (text : List Char) : fromUtf8 (text.flatMap String.utf8EncodeChar) = some text := by
  have hencode : ByteArray.mk (text.flatMap String.utf8EncodeChar).toArray = text.utf8Encode := by
    apply ByteArray.ext
    simp [List.utf8Encode]
  rw [fromUtf8, hencode, List.utf8Decode?_utf8Encode]
  rfl

end Vexcoder.Base

namespace Vexcoder.Stream

open Base Lib Lib.Emitter Vexcoder.Runtime Handoff
open Vexcoder.Stream.FrameSplit

/-! ### Text of a frame -/

theorem normaliseSseLineEndings_cons {c : Char} (hc : c = '\n' ∨ c = '\r') (text : List Char) :
    normaliseSseLineEndings (c :: text) = '\n' :: normaliseSseLineEndings text ∨
      normaliseSseLineEndings (c :: text) = normaliseSseLineEndings text := by
  rcases hc with rfl | rfl
  · exact Or.inl (by rw [normaliseSseLineEndings]; rfl; simp)
  cases text with
  | nil => exact Or.inl rfl
  | cons d text =>
    by_cases hd : d = '\n'
    · subst hd
      refine Or.inr ?_
      rw [normaliseSseLineEndings, normaliseSseLineEndings]
      · rfl
      · simp
    · refine Or.inl ?_
      rw [normaliseSseLineEndings]
      · rfl
      · rintro rest - hrest
        exact hd (List.cons.inj hrest).1

theorem splitOn_newline (text : List Char) : splitOn '\n' ('\n' :: text) = [] :: splitOn '\n' text := by
  simp [splitOn]

theorem splitOn_terminator {c : Char} (hc : c = '\n' ∨ c = '\r') (text : List Char) :
    splitOn '\n' (normaliseSseLineEndings (c :: text)) = [] :: splitOn '\n' (normaliseSseLineEndings text) ∨
      splitOn '\n' (normaliseSseLineEndings (c :: text)) =
        splitOn '\n' (normaliseSseLineEndings text) := by
  rcases normaliseSseLineEndings_cons hc text with h | h
  · exact Or.inl (by rw [h, splitOn_newline])
  · exact Or.inr (by rw [h])

theorem terminator_char {b : UInt8} (hb : isTerminator b = true) :
    ∃ c, (c = '\n' ∨ c = '\r') ∧ String.utf8EncodeChar c = [b] := by
  simp only [isTerminator, Bool.or_eq_true, beq_iff_eq] at hb
  rcases hb with rfl | rfl
  · exact ⟨'\n', Or.inl rfl, rfl⟩
  · exact ⟨'\r', Or.inr rfl, rfl⟩

/-! ### Frames of a stream -/

def stripBom (bytes : List UInt8) : List UInt8 :=
  if utf8Bom <+: bytes then bytes.drop utf8Bom.length else bytes

/-- The text of the frames that the stream contains in full. -/
def sseFrames (bytes : List UInt8) : List (List UInt8) := (split .head (stripBom bytes)).1

/-- More bytes are needed to tell whether the stream starts with a byte order mark. -/
def Undecided (bytes : List UInt8) : Prop := bytes <+: utf8Bom ∧ bytes ≠ utf8Bom

variable {bytes : List UInt8}

theorem undecided_cases (h : Undecided bytes) : bytes = [] ∨ bytes = [0xEF] ∨ bytes = [0xEF, 0xBB] := by
  obtain ⟨hpre, hne⟩ := h
  have hmem : bytes ∈ [[], [0xEF], [0xEF, 0xBB], utf8Bom] := (List.mem_inits _ _).mpr hpre
  simp only [List.mem_cons, List.not_mem_nil, or_false] at hmem
  rcases hmem with rfl | rfl | rfl | rfl
  · exact Or.inl rfl
  · exact Or.inr (Or.inl rfl)
  · exact Or.inr (Or.inr rfl)
  · exact absurd rfl hne

theorem split_undecided (h : Undecided bytes) :
    stripBom bytes = bytes ∧ (split .head bytes).1 = [] ∧ cutFrames bytes.length bytes = ([], bytes) := by
  rcases undecided_cases h with rfl | rfl | rfl <;> decide

theorem stripBom_append (h : ¬ Undecided bytes) (chunk : List UInt8) :
    stripBom (bytes ++ chunk) = stripBom bytes ++ chunk := by
  unfold stripBom
  by_cases hbom : utf8Bom <+: bytes
  · rw [if_pos hbom, if_pos (hbom.trans (List.prefix_append _ _)),
      List.drop_append_of_le_length hbom.length_le]
  have hnot : ¬ utf8Bom <+: bytes ++ chunk := fun hpre => by
    rcases List.prefix_or_prefix_of_prefix hpre (List.prefix_append bytes chunk) with hp | hp
    · exact hbom hp
    · exact h ⟨hp, fun heq => hbom (heq ▸ List.prefix_rfl)⟩
  rw [if_neg hbom, if_neg hnot]

theorem sseFrames_append (bytes chunk : List UInt8) :
    ∃ frames, sseFrames (bytes ++ chunk) = sseFrames bytes ++ frames := by
  by_cases h : Undecided bytes
  · obtain ⟨hstrip, hnone, -⟩ := split_undecided h
    exact ⟨_, by rw [show sseFrames bytes = [] by rw [sseFrames, hstrip, hnone], List.nil_append]⟩
  · refine ⟨(split (split .head (stripBom bytes)).2 chunk).1, ?_⟩
    rw [sseFrames, stripBom_append h, split_append]
    rfl

namespace StreamParser

variable (decoder : SseDecoder)

theorem parseSseFrameText_cons {c : Char} (hc : c = '\n' ∨ c = '\r') (text : List Char) :
    parseSseFrameText decoder (c :: text) = parseSseFrameText decoder text := by
  have hfold : ∀ fields : FrameFields,
      (splitOn '\n' (normaliseSseLineEndings (c :: text))).foldl readLine fields =
        (splitOn '\n' (normaliseSseLineEndings text)).foldl readLine fields := fun fields => by
    rcases splitOn_terminator hc text with h | h <;> rw [h]
    rfl
  have herror : sseFrameWithoutDataShouldError decoder.codec (normaliseSseLineEndings (c :: text)) =
      sseFrameWithoutDataShouldError decoder.codec (normaliseSseLineEndings text) := by
    unfold sseFrameWithoutDataShouldError
    rcases splitOn_terminator hc text with h | h <;> rw [h]
    rfl
  simp only [parseSseFrameText, hfold, herror]

/-- `parse_sse_frame_bytes`, where a frame that is not UTF-8 ends the run. -/
def parseFrame (frame : List UInt8) : Parse Unit :=
  match fromUtf8 frame with
  | none => crash
  | some frameText => parseSseFrameText decoder frameText

theorem parseFrame_cons {b : UInt8} (hb : isTerminator b = true) (frame : List UInt8) :
    parseFrame decoder (b :: frame) = parseFrame decoder frame := by
  obtain ⟨c, hc, hbyte⟩ := terminator_char hb
  rw [parseFrame, fromUtf8_cons hbyte, parseFrame]
  cases fromUtf8 frame with
  | none => rfl
  | some frameText => exact parseSseFrameText_cons decoder hc frameText

theorem parseFrame_eq (frame : List UInt8) :
    parseFrame decoder frame = forEach (bodyFrames frame) (parseFrame decoder) := by
  induction frame with
  | nil => rfl
  | cons b frame ih =>
    cases hb : isTerminator b with
    | true => rw [parseFrame_cons decoder hb, bodyFrames_cons_terminator hb, ih]
    | false => rw [bodyFrames_cons_text hb, forEach_singleton]

def ValidFrame (frame : List UInt8) : Prop := (fromUtf8 frame).isSome = true

theorem validFrame_of_bodyFrames {frame : List UInt8} (h : ∀ f ∈ bodyFrames frame, ValidFrame f) :
    ValidFrame frame := by
  induction frame with
  | nil => rfl
  | cons b frame ih =>
    cases hb : isTerminator b with
    | true =>
      obtain ⟨c, -, hbyte⟩ := terminator_char hb
      rw [bodyFrames_cons_terminator hb] at h
      rw [ValidFrame, fromUtf8_cons hbyte, Option.isSome_map]
      exact ih h
    | false =>
      rw [bodyFrames_cons_text hb] at h
      exact h _ List.mem_cons_self

/-! ### The parser without its buffer -/

def core (s : StreamParser) : StreamParser :=
  { s with buffer := [], bomChecked := false, overflowed := false }

/-- The parser with the framing state of `s`. -/
def withFraming (c s : StreamParser) : StreamParser :=
  { c with buffer := s.buffer, bomChecked := s.bomChecked, overflowed := s.overflowed }

theorem core_withFraming (c s : StreamParser) : (c.withFraming s).core = c.core := rfl

theorem withFraming_core (s : StreamParser) : s.core.withFraming s = s := rfl

/-- `x` neither reads nor changes the framing state. -/
def Indifferent {α : Type} (x : Parse α) : Prop :=
  ∀ s, x s = (x s.core).map fun (a, out, c) => (a, out, c.withFraming s)

variable {decoder} (ingress : Ingress)

variable {α : Type} {s : StreamParser} {bytes : List UInt8}

theorem Indifferent.core_eq {x : Parse α} (hx : Indifferent x) {c : StreamParser} {a : α}
    {out : List RuntimeEnvelope} (h : x s.core = some (a, out, c)) : c.core = c := by
  have hcore := hx s.core
  rw [show s.core.core = s.core from rfl, h] at hcore
  have hc : c = c.withFraming s.core := by simpa using hcore
  rw [hc]
  rfl

theorem Indifferent.pure (a : α) : Indifferent (pure a) := fun _ => rfl

theorem Indifferent.emit (e : RuntimeEnvelope) : Indifferent (emit e) := fun _ => rfl

theorem Indifferent.bind {β : Type} {x : Parse α} {f : α → Parse β} (hx : Indifferent x)
    (hf : ∀ a, Indifferent (f a)) : Indifferent (x >>= f) := by
  intro s
  rw [bind_run, bind_run, hx s]
  cases hrun : x s.core with
  | none => rfl
  | some r =>
    obtain ⟨a, out, c⟩ := r
    simp only [Option.map_some]
    rw [hf a (c.withFraming s), hf a c, core_withFraming]
    cases f a c.core with
    | none => rfl
    | some r => rfl

theorem Indifferent.modify {f : StreamParser → StreamParser}
    (hf : ∀ s, f s = (f s.core).withFraming s) : Indifferent (modify f) := fun s => by
  exact congrArg (fun t => some ((), [], t)) (hf s)

theorem Indifferent.read {f : StreamParser → Parse α} (hf : ∀ s, Indifferent (f s))
    (hcore : ∀ s, f s = f s.core) : Indifferent (Emitter.read >>= f) := by
  intro s
  rw [bind_of_some (read_run s), bind_of_some (read_run s.core), prepend_nil, prepend_nil, hf s s, hcore s]

theorem Indifferent.withAdapter (x : Emit α) : Indifferent (withAdapter x) := by
  intro s
  rw [StreamParser.withAdapter, StreamParser.withAdapter]
  cases hadapter : s.protocolAdapter with
  | none =>
    rw [show s.core.protocolAdapter = none from hadapter]
    simp only [show s.core.nextTaskId = s.nextTaskId from rfl]
    cases x { taskId := s.nextTaskId } with
    | none => rfl
    | some r => rfl
  | some normalizer =>
    rw [show s.core.protocolAdapter = some normalizer from hadapter]
    cases hx : x normalizer with
    | none => simp [hx]
    | some r => simp [hx]; rfl

theorem Indifferent.withFreshNormalizer (x : Emit α) : Indifferent (withFreshNormalizer x) := by
  intro s
  rw [StreamParser.withFreshNormalizer, StreamParser.withFreshNormalizer,
    show s.core.nextTaskId = s.nextTaskId from rfl]
  cases x { taskId := s.nextTaskId } with
  | none | some r => rfl

theorem indifferent_protocolStreamErrorEnvelope (code message : String) :
    Indifferent (protocolStreamErrorEnvelope ingress code message) := by
  refine Indifferent.read (fun s => ?_) fun _ => rfl
  split
  · exact Indifferent.withFreshNormalizer _
  · exact Indifferent.bind (Indifferent.modify fun _ => rfl) fun _ => Indifferent.withAdapter _

theorem indifferent_adaptProtocolPayload (payload : IngressPayload) :
    Indifferent (adaptProtocolPayload ingress payload) := by
  refine Indifferent.read (fun s => ?_) fun _ => rfl
  split
  · exact Indifferent.bind (indifferent_protocolStreamErrorEnvelope ingress _ _) Indifferent.emit
  · exact Indifferent.bind (Indifferent.modify fun _ => rfl) fun _ => Indifferent.withAdapter _

theorem indifferent_enterRuntimeEnvelopeMode (envelope : RuntimeEnvelope) :
    Indifferent (enterRuntimeEnvelopeMode ingress envelope) := by
  refine Indifferent.read (fun s => ?_) fun _ => rfl
  split
  · exact Indifferent.bind (indifferent_protocolStreamErrorEnvelope ingress _ _) Indifferent.emit
  · exact Indifferent.bind (Indifferent.modify fun _ => rfl) fun _ => Indifferent.emit _

variable (decoder)

theorem indifferent_parseSseFrameText (frameText : List Char) :
    Indifferent (parseSseFrameText decoder frameText) := by
  refine Indifferent.read (fun s => ?_) fun _ => rfl
  refine Indifferent.bind (Indifferent.modify fun _ => rfl) fun _ => ?_
  split
  · split
    · exact Indifferent.bind (indifferent_protocolStreamErrorEnvelope _ _ _) Indifferent.emit
    · exact Indifferent.pure ()
  · unfold decodeFramePayload
    split
    · exact Indifferent.pure ()
    · split
      · exact indifferent_enterRuntimeEnvelopeMode _ _
      · exact indifferent_adaptProtocolPayload _ _

/-! ### Calls of `process` -/

theorem parseFrame_of_valid {frame : List UInt8} {frameText : List Char}
    (h : fromUtf8 frame = some frameText) :
    parseFrame decoder frame = parseSseFrameText decoder frameText := by
  rw [parseFrame, h]

theorem processFrames_eq {fuel : ℕ} {frames : List RuntimeEnvelope}
    (hvalid : ∀ frame ∈ (cutFrames fuel s.buffer).1, ValidFrame frame) :
    processFrames decoder fuel frames s =
      (forEach (cutFrames fuel s.buffer).1 (parseFrame decoder) s.core).map fun (_, out, c) =>
        (.ok (frames ++ out), c.withFraming { s with buffer := (cutFrames fuel s.buffer).2 }) := by
  induction fuel generalizing frames s with
  | zero => simp [processFrames, cutFrames, forEach, withFraming_core]
  | succ fuel ih =>
    rw [cutFrames] at hvalid ⊢
    rw [processFrames]
    cases hfind : findSseFrameDelimiter s.buffer with
    | none => simp [forEach, withFraming_core]
    | some delimiter =>
      obtain ⟨pos, delimLen⟩ := delimiter
      simp only [hfind] at hvalid ⊢
      obtain ⟨frameText, htext⟩ :=
        Option.isSome_iff_exists.mp (hvalid _ List.mem_cons_self)
      have hparse := indifferent_parseSseFrameText decoder frameText
      simp only [htext]
      rw [hparse, forEach, bind_run, parseFrame_of_valid decoder htext]
      rw [show ({ s with buffer := s.buffer.drop (pos + delimLen) } : StreamParser).core = s.core from rfl]
      cases hrun : parseSseFrameText decoder frameText s.core with
      | none => rfl
      | some r =>
        obtain ⟨⟨⟩, out, c⟩ := r
        simp only [Option.map_some]
        rw [ih fun frame hframe => hvalid frame (List.mem_cons_of_mem _ hframe), core_withFraming,
          hparse.core_eq hrun]
        cases hrest : forEach (cutFrames fuel (s.buffer.drop (pos + delimLen))).1 (parseFrame decoder) c with
        | none =>
          rw [show (c.withFraming { s with buffer := s.buffer.drop (pos + delimLen) }).buffer =
            s.buffer.drop (pos + delimLen) from rfl, hrest]
          rfl
        | some r =>
          rw [show (c.withFraming { s with buffer := s.buffer.drop (pos + delimLen) }).buffer =
            s.buffer.drop (pos + delimLen) from rfl, hrest]
          simp only [Option.map_some, List.append_assoc]
          rfl

/-- The parser behind the bytes it has been fed: its buffer is what the machine has not finished. -/
structure Fed (bytes : List UInt8) (s : StreamParser) : Prop where
  fits : s.overflowed = false
  checked : s.bomChecked = true → ¬ Undecided bytes ∧
    split .head s.buffer = ([], (split .head (stripBom bytes)).2)
  unchecked : s.bomChecked = false → Undecided bytes ∧ s.buffer = bytes

theorem fed_new (taskCounter : ℕ) : Fed [] { nextStreamTaskId := taskCounter } :=
  ⟨rfl, fun h => absurd h Bool.noConfusion, fun _ => ⟨⟨List.nil_prefix, by decide⟩, rfl⟩⟩

theorem fed_stripUtf8BomOnce (hs : Fed bytes s) (chunk : List UInt8) :
    ∃ buffer checked,
      stripUtf8BomOnce { s with buffer := s.buffer ++ chunk } =
        { s with buffer, bomChecked := checked } ∧
      split .head (stripBom (bytes ++ chunk)) = addFrames (sseFrames bytes) (split .head buffer) ∧
      (checked = true → ¬ Undecided (bytes ++ chunk)) ∧
      (checked = false → Undecided (bytes ++ chunk) ∧ buffer = bytes ++ chunk) := by
  unfold stripUtf8BomOnce
  cases hchecked : s.bomChecked with
  | true =>
    obtain ⟨hdecided, hbuffer⟩ := hs.checked hchecked
    refine ⟨s.buffer ++ chunk, true, by simp, ?_, fun _ => ?_, Bool.noConfusion⟩
    · rw [stripBom_append hdecided, split_append, split_append, hbuffer]
      rfl
    · rintro ⟨hpre, hne⟩
      refine hdecided ⟨(List.prefix_append _ _).trans hpre, fun heq => hne ?_⟩
      exact List.IsPrefix.eq_of_length_le hpre (by rw [heq, List.length_append]; omega)
  | false =>
    obtain ⟨hundecided, hbuffer⟩ := hs.unchecked hchecked
    have hframes : sseFrames bytes = [] := by
      obtain ⟨hstrip, hnone, -⟩ := split_undecided hundecided
      rw [sseFrames, hstrip, hnone]
    simp only [hbuffer, hframes, addFrames_nil, Bool.false_eq_true, if_false]
    generalize bytes ++ chunk = stream
    by_cases hbom : utf8Bom <+: stream
    · rw [if_pos hbom]
      refine ⟨_, _, rfl, by rw [stripBom, if_pos hbom], fun _ => ?_, Bool.noConfusion⟩
      rintro ⟨hpre, hne⟩
      exact hne (hpre.eq_of_length_le hbom.length_le)
    have hstrip : stripBom stream = stream := by rw [stripBom, if_neg hbom]
    rw [if_neg hbom, hstrip]
    by_cases hempty : stream.isEmpty = true
    · rw [if_pos hempty]
      obtain rfl := List.isEmpty_iff.mp hempty
      exact ⟨[], false, by rw [← hchecked], rfl, Bool.noConfusion,
        fun _ => ⟨⟨List.nil_prefix, by decide⟩, rfl⟩⟩
    rw [if_neg hempty]
    by_cases hdecided : min stream.length utf8Bom.length = utf8Bom.length ∨
        stream.take (min stream.length utf8Bom.length) ≠ utf8Bom.take (min stream.length utf8Bom.length)
    · rw [if_pos hdecided]
      refine ⟨_, _, rfl, rfl, fun _ => ?_, Bool.noConfusion⟩
      rintro ⟨hpre, hne⟩
      rcases hdecided with hlen | htake
      · exact hne (hpre.eq_of_length_le (by omega))
      · rw [Nat.min_eq_left hpre.length_le, List.take_length] at htake
        exact htake (List.prefix_iff_eq_take.mp hpre)
    · rw [if_neg hdecided]
      obtain ⟨hlen, htake⟩ := not_or.mp hdecided
      have hmin : min stream.length utf8Bom.length = stream.length := by omega
      rw [hmin, List.take_length, not_not] at htake
      refine ⟨stream, false, by rw [← hchecked], rfl, Bool.noConfusion, fun _ => ⟨⟨?_, ?_⟩, rfl⟩⟩
      · exact List.prefix_iff_eq_take.mpr htake
      · rintro rfl
        exact hlen rfl

theorem indifferent_frames (frames : List (List UInt8)) :
    Indifferent (forEach frames (parseFrame decoder)) := by
  induction frames with
  | nil => exact Indifferent.pure ()
  | cons frame frames ih =>
    refine Indifferent.bind ?_ fun _ => ih
    unfold parseFrame
    split
    · exact fun _ => rfl
    · exact indifferent_parseSseFrameText decoder _

theorem forEach_bodyFrames (frames : List (List UInt8)) :
    forEach frames (parseFrame decoder) = forEach (frames.flatMap bodyFrames) (parseFrame decoder) := by
  rw [forEach_flatMap]
  congr 1
  funext frame
  exact parseFrame_eq decoder frame

/-- One call of `process` handles the frames that its chunk completes. -/
theorem process_fed {chunk : List UInt8} (hs : Fed bytes s)
    (hfit : s.buffer.length + chunk.length ≤ maxSseBufferBytes)
    (hvalid : ∀ frame ∈ sseFrames (bytes ++ chunk), ValidFrame frame) :
    ∃ frames, sseFrames (bytes ++ chunk) = sseFrames bytes ++ frames ∧
      ((forEach frames (parseFrame decoder) s.core = none ∧ process decoder chunk s = none) ∨
        ∃ out s', forEach frames (parseFrame decoder) s.core = some ((), out, s'.core) ∧
          process decoder chunk s = some (.ok out, s') ∧ Fed (bytes ++ chunk) s') := by
  obtain ⟨buffer, checked, hstrip, hsplit, hdecided, hundecided⟩ := fed_stripUtf8BomOnce hs chunk
  obtain ⟨hcut, hleft⟩ := split_cutFrames (Nat.le_refl buffer.length)
  have hframes : sseFrames (bytes ++ chunk) =
      sseFrames bytes ++ (cutFrames buffer.length buffer).1.flatMap bodyFrames := by
    rw [sseFrames, hsplit, hcut, addFrames, addFrames, hleft, List.append_nil]
  refine ⟨_, hframes, ?_⟩
  have hall : ∀ frame ∈ (cutFrames buffer.length buffer).1, ValidFrame frame :=
    fun frame hframe => validFrame_of_bodyFrames fun f hf => hvalid f (by
      rw [hframes]
      exact List.mem_append_right _ (List.mem_flatMap.mpr ⟨frame, hframe, hf⟩))
  have hprocess : process decoder chunk s =
      (forEach (cutFrames buffer.length buffer).1 (parseFrame decoder) s.core).map fun (_, out, c) =>
        (.ok ([] ++ out), c.withFraming { s with
          buffer := (cutFrames buffer.length buffer).2, bomChecked := checked }) := by
    rw [process, if_neg (by simp [hs.fits]), if_neg (Nat.not_lt.mpr hfit)]
    simp only [hstrip]
    exact processFrames_eq decoder hall
  rw [← forEach_bodyFrames, hprocess]
  cases hrun : forEach (cutFrames buffer.length buffer).1 (parseFrame decoder) s.core with
  | none => exact Or.inl ⟨rfl, rfl⟩
  | some r =>
    obtain ⟨⟨⟩, out, c⟩ := r
    have hc := (indifferent_frames decoder _).core_eq hrun
    refine Or.inr ⟨out, _, ?_, rfl, hs.fits, fun hchecked => ⟨hdecided hchecked, ?_⟩,
      fun hchecked => ?_⟩
    · rw [core_withFraming, hc]
    · show split .head (cutFrames buffer.length buffer).2 = _
      rw [hsplit, hcut]
      exact Prod.ext hleft rfl
    · obtain ⟨hund, rfl⟩ := hundecided hchecked
      exact ⟨hund, congrArg Prod.snd (split_undecided hund).2.2⟩

/-- No call of `process` finds the buffer too long. -/
def NoOverflow : List (List UInt8) → StreamParser → Prop
  | [], _ => True
  | chunk :: chunks, s =>
    s.buffer.length + chunk.length ≤ maxSseBufferBytes ∧
      match process decoder chunk s with
      | none => True
      | some (_, s') => NoOverflow chunks s'

instance decidableNoOverflow : (chunks : List (List UInt8)) → (s : StreamParser) →
    Decidable (NoOverflow decoder chunks s)
  | [], _ => .isTrue trivial
  | chunk :: chunks, s =>
    @instDecidableAnd _ _ _ (match process decoder chunk s with
      | none => .isTrue trivial
      | some (_, s') => decidableNoOverflow chunks s')

theorem processChunks_run (chunks : List (List UInt8)) (hs : Fed bytes s) (hfit : NoOverflow decoder chunks s)
    (hvalid : ∀ frame ∈ sseFrames (bytes ++ chunks.flatten), ValidFrame frame) :
    ∃ frames, sseFrames (bytes ++ chunks.flatten) = sseFrames bytes ++ frames ∧
      ((forEach frames (parseFrame decoder) s.core = none ∧ processChunks decoder chunks s = none) ∨
        ∃ (outs : List (List RuntimeEnvelope)) (s' : StreamParser),
          forEach frames (parseFrame decoder) s.core = some ((), outs.flatten, s'.core) ∧
          processChunks decoder chunks s = some (outs.map .ok, s')) := by
  induction chunks generalizing bytes s with
  | nil => exact ⟨[], by simp, Or.inr ⟨[], s, rfl, rfl⟩⟩
  | cons chunk chunks ih =>
    rw [List.flatten_cons, ← List.append_assoc] at hvalid ⊢
    obtain ⟨hlen, hrest⟩ := hfit
    obtain ⟨more, hmore⟩ := sseFrames_append (bytes ++ chunk) chunks.flatten
    obtain ⟨frames, hframes, hrun⟩ := process_fed decoder hs hlen fun frame hframe =>
      hvalid frame (by rw [hmore]; exact List.mem_append_left _ hframe)
    rw [processChunks]
    rcases hrun with ⟨hnone, hprocess⟩ | ⟨out, s₁, hsome, hprocess, hfed⟩
    · refine ⟨frames ++ more, by rw [hmore, hframes, List.append_assoc], Or.inl ⟨?_, ?_⟩⟩
      · rw [forEach_append, bind_run, hnone]
      · rw [hprocess]
    · rw [hprocess] at hrest ⊢
      obtain ⟨frames', hframes', hrun'⟩ := ih hfed hrest hvalid
      refine ⟨frames ++ frames', by rw [hframes', hframes, List.append_assoc], ?_⟩
      rw [forEach_append, bind_of_some hsome]
      rcases hrun' with ⟨hnone, hchunks⟩ | ⟨outs, s', hsome', hchunks⟩
      · exact Or.inl ⟨by rw [hnone]; rfl, by simp only [hchunks, Option.map_none]⟩
      · exact Or.inr ⟨out :: outs, s', by rw [hsome']; rfl, by simp only [hchunks]; rfl⟩

/-! ### Two ways of cutting a stream -/

/-- What the calls of `process` returned, all together; `none` when one of them failed. -/
def concatenated : List (Except FrameError (List RuntimeEnvelope)) → Option (List RuntimeEnvelope)
  | [] => some []
  | .error _ :: _ => none
  | .ok out :: results => (concatenated results).map (out ++ ·)

/-- What can be seen of the calls: their envelopes, and the id and the delay that were set. -/
def observed (chunks : List (List UInt8)) (s : StreamParser) :
    Option (Option (List RuntimeEnvelope) × Option String × Option ℕ) :=
  (processChunks decoder chunks s).map fun (results, s') =>
    (concatenated results, s'.lastFrameId, s'.reconnectDelayMs)

theorem concatenated_ok (outs : List (List RuntimeEnvelope)) :
    concatenated (outs.map .ok) = some outs.flatten := by
  induction outs with
  | nil => rfl
  | cons out outs ih => simp [concatenated, ih]

/-- What can be seen is what the frames of the stream make of a new parser. -/
theorem observed_eq (taskCounter : ℕ) (chunks : List (List UInt8))
    (hfit : NoOverflow decoder chunks { nextStreamTaskId := taskCounter })
    (hvalid : ∀ frame ∈ sseFrames chunks.flatten, ValidFrame frame) :
    observed decoder chunks { nextStreamTaskId := taskCounter } =
      (forEach (sseFrames chunks.flatten) (parseFrame decoder)
        { nextStreamTaskId := taskCounter }).map fun (_, out, c) =>
          (some out, c.lastFrameId, c.reconnectDelayMs) := by
  obtain ⟨frames, hframes, hrun⟩ :=
    processChunks_run decoder chunks (fed_new taskCounter) hfit hvalid
  obtain rfl : sseFrames chunks.flatten = frames := hframes
  rw [observed]
  rw [show ({ nextStreamTaskId := taskCounter } : StreamParser).core =
    { nextStreamTaskId := taskCounter } from rfl] at hrun
  rcases hrun with ⟨hnone, hchunks⟩ | ⟨outs, s', hsome, hchunks⟩
  · rw [hchunks, hnone]
    rfl
  · simp only [hchunks, hsome, Option.map_some, concatenated_ok]
    rfl

/-- **Framing is chunk-invariant**: two ways of cutting a stream of valid frames, neither of which
finds the buffer too long, return the same envelopes and set the same id and delay. -/
theorem process_chunk_invariant (taskCounter : ℕ) (chunks chunks' : List (List UInt8))
    (hstream : chunks.flatten = chunks'.flatten)
    (hvalid : ∀ frame ∈ sseFrames chunks.flatten, ValidFrame frame)
    (hfit : NoOverflow decoder chunks { nextStreamTaskId := taskCounter })
    (hfit' : NoOverflow decoder chunks' { nextStreamTaskId := taskCounter }) :
    observed decoder chunks { nextStreamTaskId := taskCounter } =
        observed decoder chunks' { nextStreamTaskId := taskCounter } ∧
      ∀ seen, observed decoder chunks { nextStreamTaskId := taskCounter } = some seen →
        seen.1.isSome = true := by
  have hseen := observed_eq decoder taskCounter chunks hfit hvalid
  refine ⟨?_, fun seen h => ?_⟩
  · rw [hseen, observed_eq decoder taskCounter chunks' hfit' (hstream ▸ hvalid), hstream]
  · rw [hseen] at h
    obtain ⟨r, -, rfl⟩ := Option.map_eq_some_iff.mp h
    rfl

def sampleDecoder : SseDecoder where
  toIngress := sampleIngress
  envelope _ := none
  providerItem _ := .ok (.contentBlockDelta 0 { text := some "hi" })
  chatCompatChunk _ := none

def sampleChunks : List (List UInt8) :=
  [[0xEF, 0xBB], [0xBF, 100, 97, 116, 97, 58, 0xC3], [0xA9, 13], [10, 13], [10, 100, 97, 116, 97, 58],
    [120, 13, 13]]

theorem sseFrames_sampleChunks : sseFrames sampleChunks.flatten =
    [['d', 'a', 't', 'a', ':', 'é'].flatMap String.utf8EncodeChar,
      ['d', 'a', 't', 'a', ':', 'x'].flatMap String.utf8EncodeChar] := by decide +kernel

theorem process_chunk_invariant_sample :
    observed sampleDecoder sampleChunks { nextStreamTaskId := 1 } =
        observed sampleDecoder [sampleChunks.flatten] { nextStreamTaskId := 1 } ∧
      ∀ seen, observed sampleDecoder sampleChunks { nextStreamTaskId := 1 } = some seen →
        seen.1.isSome = true := by
  refine process_chunk_invariant sampleDecoder 1 sampleChunks [sampleChunks.flatten] (by decide)
    ?_ (by decide +kernel) (by decide +kernel)
  rw [sseFrames_sampleChunks]
  intro frame hframe
  simp only [List.mem_cons, List.not_mem_nil, or_false] at hframe
  rcases hframe with rfl | rfl
  all_goals exact congrArg Option.isSome (fromUtf8_encode _)

end StreamParser

end Vexcoder.Stream
