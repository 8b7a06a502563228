import Vexcoder.Stream.NormaliserStep

/-!
# What the normaliser holds back

Text waits for one of three reasons only: it may be the start of a tag, or it is a call that is not closed
yet, in one of the two grammars.  So text outside calls is never more than twelve characters late.
-/

namespace Vexcoder.Stream

open Base Lib.Search

inductive Held (pending : List Char) : Prop
  | start (short : pending.length ≤ 12) (h : pending = [] ∨ looksLikePartialToolTag pending = true)
  | function (tag : functionTag <+: pending) (opened : find functionClose pending = none)
  | hermes (tag : hermesHere pending = true) (opened : find toolCallClose pending = none)

variable {codec : JsonCodec} {b p rest : List Char} {o : List NormalisedChunk}

theorem partialTag_length (h : looksLikePartialToolTag p = true) : p.length ≤ 12 := by
  obtain ⟨tag, htag, hpre⟩ := List.any_eq_true.mp h
  have hle := (List.isPrefixOf_iff_prefix.mp hpre).length_le
  have hshort : ∀ tag ∈ partialToolTags, tag.length ≤ 12 := by decide
  rw [toAsciiLowercase, List.length_map] at hle
  exact hle.trans (hshort tag htag)

theorem normaliseStep_held (h : (normaliseStep codec b).2 = .wait rest) : Held rest := by
  rw [normaliseStep] at h
  cases hn : nextTag b with
  | none =>
    rw [hn] at h
    cases h
    rcases split_cases b with hnone | ⟨t, r, hsplit, -, -, hpart⟩
    · rw [hnone]
      exact .start (Nat.zero_le _) (.inl rfl)
    · rw [hsplit]
      exact .start (partialTag_length hpart) (.inr hpart)
  | function i =>
    rw [hn] at h
    dsimp only [functionOutcome] at h
    split at h
    · cases h
      exact .function (nextTag_function hn).2.1 ‹_›
    · split at h <;> cases h
  | hermes i =>
    rw [hn] at h
    dsimp only [hermesOutcome] at h
    split at h
    · cases h
      exact .hermes (nextTag_hermes hn).2.1 ‹_›
    · cases h

theorem normaliseLoop_held {fuel : ℕ} (h : normaliseLoop codec fuel b = some (o, p)) : Held p := by
  induction fuel generalizing b o with
  | zero => cases h
  | succ fuel ih =>
    rw [normaliseLoop] at h
    split at h
    · rename_i rest hwait
      cases h
      exact normaliseStep_held hwait
    · obtain ⟨⟨later, left⟩, hrest, heq⟩ := Option.map_eq_some_iff.mp h
      cases heq
      exact ih hrest
    · cases h

namespace StreamTextNormaliser

def after (codec : JsonCodec) (n : StreamTextNormaliser) : List (List Char) → Option StreamTextNormaliser
  | [] => some n
  | chunk :: chunks => (n.normalise codec chunk).bind fun (_, n') => n'.after codec chunks

/-- **Behind any chunks, only an unfinished tag or call is held back.** -/
theorem after_held {n n' : StreamTextNormaliser} (hn : Held n.pending) (chunks : List (List Char))
    (h : n.after codec chunks = some n') : Held n'.pending := by
  induction chunks generalizing n with
  | nil =>
    cases h
    exact hn
  | cons chunk chunks ih =>
    obtain ⟨⟨pushed, next⟩, hnormalise, hrest⟩ := Option.bind_eq_some_iff.mp h
    refine ih ?_ hrest
    rw [normalise] at hnormalise
    split at hnormalise
    · cases hnormalise
      exact hn
    · obtain ⟨⟨chunks, left⟩, hbuffer, heq⟩ := Option.map_eq_some_iff.mp hnormalise
      cases heq
      exact normaliseLoop_held hbuffer

theorem new_after_held (chunks : List (List Char)) {n : StreamTextNormaliser}
    (h : ({} : StreamTextNormaliser).after codec chunks = some n) : Held n.pending :=
  after_held (.start (Nat.zero_le _) (.inl rfl)) chunks h

def heldChunks : List (List Char) := ["a<", "function=x>b</funct", "ion>c<tool"].map String.toList

theorem new_after_held_sample : ∃ n,
    ({} : StreamTextNormaliser).after ⟨fun _ => none, fun _ => [], fun _ => none⟩ heldChunks = some n ∧
      n.pending = "<tool".toList ∧ Held n.pending := by
  have hpending : (({} : StreamTextNormaliser).after ⟨fun _ => none, fun _ => [], fun _ => none⟩
      heldChunks).map pending = some "<tool".toList := by decide +kernel
  obtain ⟨n, hn, hleft⟩ := Option.map_eq_some_iff.mp hpending
  exact ⟨n, hn, hleft, new_after_held heldChunks hn⟩

end StreamTextNormaliser

end Vexcoder.Stream
