import Vexcoder.Stream.Chunking

/-!
# Text without tags

A text in which none of `<function=`, `<tool_call>` and `</tool_call>` occurs passes the normaliser
as it is, however it is cut: what has been pushed, followed by what is pending, is the text received so
far (`plainRun_released`).  What is still pending at the end is held back because it may be the start
of a tag, and `finish` drops it.
-/

namespace Vexcoder.Stream

open Base Lib.Search

/-- The text of the chunks, run together. -/
def chunksText (chunks : List NormalisedChunk) : List Char :=
  chunks.flatMap fun chunk =>
    match chunk with
    | .text s => s
    | .taggedToolCall .. => []

@[simp] theorem chunksText_append (a b : List NormalisedChunk) :
    chunksText (a ++ b) = chunksText a ++ chunksText b := List.flatMap_append

theorem chunksText_push (s : List Char) : chunksText (pushTextChunk s) = s := by
  cases s with
  | nil => rfl
  | cons c s => exact List.append_nil _

def AllText (chunks : List NormalisedChunk) : Prop :=
  ∀ chunk ∈ chunks, ∃ s, chunk = .text s

theorem allText_push (s : List Char) : AllText (pushTextChunk s) := by
  cases s with
  | nil => exact nofun
  | cons c s => exact fun chunk h => ⟨c :: s, List.mem_singleton.mp h⟩

/-! ### Texts without tags -/

/-- None of the three tags occurs in the text. -/
structure PlainText (s : List Char) : Prop where
  function : ¬ functionTag <:+: s
  toolCall : ¬ toolCallTag <:+: s
  toolCallClose : ¬ toolCallClose <:+: s

instance (s : List Char) : Decidable (PlainText s) :=
  decidable_of_iff (¬ functionTag <:+: s ∧ ¬ toolCallTag <:+: s ∧ ¬ toolCallClose <:+: s)
    ⟨fun ⟨h₁, h₂, h₃⟩ => ⟨h₁, h₂, h₃⟩, fun ⟨h₁, h₂, h₃⟩ => ⟨h₁, h₂, h₃⟩⟩

theorem PlainText.inside {s t : List Char} (h : PlainText s) (ht : t <:+: s) : PlainText t :=
  ⟨fun hf => h.function (hf.trans ht), fun hf => h.toolCall (hf.trans ht),
    fun hf => h.toolCallClose (hf.trans ht)⟩

theorem not_prefix_drop {pat s : List Char} (h : ¬ pat <:+: s) (i : ℕ) : ¬ pat <+: s.drop i :=
  fun hpre => h (hpre.isInfix.trans (List.drop_suffix i s).isInfix)

theorem PlainText.nextTag {s : List Char} (h : PlainText s) : nextTag s = .none := by
  have hfunction : find functionTag s = none :=
    (find_eq_none_iff _ _).mpr fun i _ => not_prefix_drop h.function i
  have hhermes : findHermesJsonToolCall s = none := by
    refine (findFirst_eq_none_iff _ _).mpr fun i _ => ?_
    rw [← Bool.not_eq_true]
    intro hhere
    exact not_prefix_drop h.toolCall i ((hermesHere_iff _).mp hhere).1
  rw [Stream.nextTag, hfunction, hhermes]

theorem PlainText.strip {s : List Char} (h : PlainText s) : stripToolCallWrappers s = s := by
  have hopen : replaceAll toolCallTag [] s = s :=
    replaceAll_eq_self [] fun i _ => not_prefix_drop h.toolCall i
  rw [stripToolCallWrappers, hopen]
  exact replaceAll_eq_self [] fun i _ => not_prefix_drop h.toolCallClose i

/-! ### One call and a run -/

variable (codec : JsonCodec)

theorem PlainText.normaliseBuffer {s : List Char} (h : PlainText s) :
    normaliseBuffer codec s =
      some (pushTextChunk (splitIncompleteToolTagSuffix s).1, (splitIncompleteToolTagSuffix s).2) := by
  have hreleased : PlainText (splitIncompleteToolTagSuffix s).1 :=
    h.inside ⟨[], (splitIncompleteToolTagSuffix s).2, splitIncomplete_append s⟩
  rw [normaliseBuffer_wait codec (normaliseStep_none codec h.nextTag), textChunks, hreleased.strip]

/-- What has been pushed, with what is pending, is the text received; what is pending is what would be
held back of it. -/
structure Released (received : List Char) (pushed : List NormalisedChunk)
    (n : StreamTextNormaliser) : Prop where
  allText : AllText pushed
  text : chunksText pushed ++ n.pending = received
  held : splitIncompleteToolTagSuffix received = (chunksText pushed, n.pending)

theorem released_start : Released [] [] {} :=
  ⟨nofun, rfl, rfl⟩

/-- The text behind a held `<` decides about it, the text in front of it does not. -/
theorem split_of_held {t p c : List Char} (h : splitIncompleteToolTagSuffix (t ++ p) = (t, p)) :
    splitIncompleteToolTagSuffix (t ++ (p ++ c)) =
      (t ++ (splitIncompleteToolTagSuffix (p ++ c)).1, (splitIncompleteToolTagSuffix (p ++ c)).2) := by
  refine split_release t (p ++ c) ?_
  rcases split_cases (t ++ p) with hall | ⟨t', r, hsplit, -, -, -⟩
  · rw [h] at hall
    obtain ⟨-, rfl⟩ := Prod.mk.inj hall
    rw [List.append_nil] at h
    exact .inl (congrArg Prod.snd h)
  · rw [h] at hsplit
    obtain ⟨-, rfl⟩ := Prod.mk.inj hsplit
    exact .inr (by simp)

/-- **One call** of `normalise` on plain text. -/
theorem Released.normalise {received chunk : List Char} {pushed : List NormalisedChunk}
    {n : StreamTextNormaliser} (h : Released received pushed n) (hplain : PlainText (received ++ chunk)) :
    ∃ new n', n.normalise codec chunk = some (new, n') ∧ Released (received ++ chunk) (pushed ++ new) n' := by
  cases chunk with
  | nil =>
    refine ⟨[], n, rfl, ?_⟩
    rw [List.append_nil, List.append_nil]
    exact h
  | cons c rest =>
    have hbuffer : PlainText (n.pending ++ c :: rest) :=
      hplain.inside ⟨chunksText pushed, [], by rw [← h.text]; simp⟩
    have hheld := split_of_held (c := c :: rest) (h.text ▸ h.held)
    rw [← List.append_assoc, h.text] at hheld
    refine ⟨pushTextChunk (splitIncompleteToolTagSuffix (n.pending ++ c :: rest)).1,
      ⟨(splitIncompleteToolTagSuffix (n.pending ++ c :: rest)).2⟩, ?_, ⟨?_, ?_, ?_⟩⟩
    · show (normaliseBuffer codec (n.pending ++ c :: rest)).map _ = _
      rw [hbuffer.normaliseBuffer codec]
      rfl
    · intro piece hpiece
      rcases List.mem_append.mp hpiece with hold | hnew
      · exact h.allText piece hold
      · exact allText_push _ piece hnew
    · rw [chunksText_append, chunksText_push, List.append_assoc, splitIncomplete_append,
        ← List.append_assoc, h.text]
    · rw [hheld, chunksText_append, chunksText_push]

/-- **A run** on plain text: what is pending at the end is dropped. -/
theorem plainRun_released {received : List Char} {pushed : List NormalisedChunk}
    {n : StreamTextNormaliser} (h : Released received pushed n) (chunks : List (List Char))
    (hplain : PlainText (received ++ chunks.flatten)) :
    ∃ new, n.feed codec chunks = some new ∧ AllText (pushed ++ new) ∧
      chunksText (pushed ++ new) = stripIncompleteToolTagSuffix (received ++ chunks.flatten) := by
  induction chunks generalizing received pushed n with
  | nil =>
    have hfinish : n.finish = [] := by
      have := finish_split received
      rwa [h.held] at this
    refine ⟨[], congrArg some hfinish, ?_, ?_⟩
    · rw [List.append_nil]
      exact h.allText
    · rw [List.append_nil, List.flatten_nil, List.append_nil, stripIncompleteToolTagSuffix, h.held]
  | cons chunk chunks ih =>
    rw [List.flatten_cons, ← List.append_assoc] at hplain ⊢
    obtain ⟨new, n', hnew, hreleased⟩ := h.normalise codec (hplain.inside (List.prefix_append _ _).isInfix)
    obtain ⟨later, hlater, hall, htext⟩ := ih hreleased hplain
    refine ⟨new ++ later, ?_, ?_, ?_⟩
    · rw [StreamTextNormaliser.feed, hnew]
      exact congrArg (Option.map _) hlater
    · rw [← List.append_assoc]
      exact hall
    · rw [← List.append_assoc]
      exact htext

/-! ### What is dropped -/

theorem toLower_eq_open {c : Char} (h : c.toLower = '<') : c = '<' := by
  rcases toLower_cases c with heq | ⟨hlow, -, hval⟩
  · exact heq.symm.trans h
  · rw [h] at hval
    have hopen : '<'.toNat = 60 := rfl
    omega

theorem looksLikePartialToolTag_open {x : List Char} (h : looksLikePartialToolTag x = true)
    (hx : x ≠ []) : ∃ r, x = '<' :: r ∧ '<' ∉ r := by
  obtain ⟨tag, htag, hpre⟩ := List.any_eq_true.mp h
  have hpre := List.isPrefixOf_iff_prefix.mp hpre
  have hopen : ∀ tag ∈ partialToolTags, tag.head? = some '<' ∧ '<' ∉ tag.tail := by decide
  obtain ⟨hhead, htail⟩ := hopen tag htag
  obtain ⟨c, r, rfl⟩ := List.exists_cons_of_ne_nil hx
  obtain ⟨rest, rfl⟩ := hpre
  refine ⟨r, ?_, ?_⟩
  · have hc : c.toLower = '<' := Option.some.inj hhead
    rw [toLower_eq_open hc]
  · intro hmem
    exact htail (List.mem_append_left _ (List.mem_map.mpr ⟨'<', hmem, rfl⟩))

/-- What is dropped of a text is its end from the last `<` on, when this may be the start of a tag; a
text that has no such end is kept whole. -/
theorem stripIncomplete_eq_iff (s : List Char) :
    stripIncompleteToolTagSuffix s = s ↔ ∀ x, x <:+ s → x ≠ [] → looksLikePartialToolTag x = false := by
  rw [stripIncompleteToolTagSuffix]
  constructor
  · rintro hkeep x ⟨t, rfl⟩ hx
    rw [← Bool.not_eq_true]
    intro hpart
    obtain ⟨r, rfl, hr⟩ := looksLikePartialToolTag_open hpart hx
    rw [split_of_lastOpen hr, if_pos hpart] at hkeep
    exact hx (List.append_right_eq_self.mp hkeep.symm)
  · intro hno
    rcases split_cases s with hall | ⟨t, r, -, rfl, -, hpart⟩
    · rw [hall]
    · have := hno _ (List.suffix_append t ('<' :: r)) (List.cons_ne_nil _ _)
      rw [hpart] at this
      cases this

/-- **Plain text is kept up to the incomplete tag it ends with.** -/
theorem feed_plain (chunks : List (List Char)) (h : PlainText chunks.flatten) :
    ∃ pushed, StreamTextNormaliser.feed codec {} chunks = some pushed ∧ AllText pushed ∧
      chunksText pushed = stripIncompleteToolTagSuffix chunks.flatten ∧
      (chunksText pushed = chunks.flatten ↔
        ∀ x, x <:+ chunks.flatten → x ≠ [] → looksLikePartialToolTag x = false) := by
  obtain ⟨pushed, hfeed, hall, htext⟩ := plainRun_released codec released_start chunks h
  refine ⟨pushed, hfeed, hall, htext, ?_⟩
  rw [← stripIncomplete_eq_iff]
  exact Eq.congr_left htext

theorem feed_plain_sample :
    ∃ pushed, StreamTextNormaliser.feed sampleCodec {} ["1 < 2, a<".toList, "b<Par".toList] =
        some pushed ∧ AllText pushed ∧
      chunksText pushed = stripIncompleteToolTagSuffix "1 < 2, a<b<Par".toList ∧
      (chunksText pushed = "1 < 2, a<b<Par".toList ↔
        ∀ x, x <:+ "1 < 2, a<b<Par".toList → x ≠ [] → looksLikePartialToolTag x = false) :=
  feed_plain sampleCodec ["1 < 2, a<".toList, "b<Par".toList] (by decide)

/-- **The end that is lost**: a text that ends with `<`. -/
theorem trailing_open_is_dropped :
    PlainText "if a <".toList ∧
      (StreamTextNormaliser.feed sampleCodec {} ["if a <".toList]).map chunksText =
        some "if a ".toList := by
  decide

end Vexcoder.Stream
