import Mathlib.Data.List.Infix
import Vexcoder.Stream.NormaliserStep

/-!
# The text normaliser and the cuts of the network

Two runs of the normaliser are compared by the characters and the calls they emit, in order
(`items`); adjacent texts run together there, as in `mergeAdjacentText` (`group_items`).

`whole b` is what a run emits that receives `b` at once.  The main lemma, `whole_resume`, cuts a run
in two: what `b` emits, and then what its pending text emits together with the text to come.  Two
kinds of cut fall outside it, both at a text that has been released too early:

* `HermesCut` — the delta ends between `<tool_call>` and the brace of its JSON object, behind at
  least one white space character;
* `WrapperCut` — a closing wrapper that appears only once the opening wrappers in it are stripped is
  spread over the cut.

`feed_eq_of_safeCuts` is the invariance under every other cut, and `hermesCut_loses_call` a run in
which a cut of the first kind loses the call.
-/

namespace Vexcoder.Stream

open Base Lib.Search StreamTextNormaliser

/-! ### Output up to the division of text into chunks -/

inductive Item where
  | char (c : Char)
  | call (name : String) (input : Value)

def NormalisedChunk.items : NormalisedChunk → List Item
  | .text s => s.map .char
  | .taggedToolCall name input => [.call name input]

def items (chunks : List NormalisedChunk) : List Item := chunks.flatMap NormalisedChunk.items

def prependText (s : List Char) : List NormalisedChunk → List NormalisedChunk
  | .text t :: rest => .text (s ++ t) :: rest
  | merged => .text s :: merged

def mergeAdjacentText : List NormalisedChunk → List NormalisedChunk
  | [] => []
  | .text s :: chunks => prependText s (mergeAdjacentText chunks)
  | .taggedToolCall name input :: chunks => .taggedToolCall name input :: mergeAdjacentText chunks

def group : List Item → List NormalisedChunk
  | [] => []
  | .char c :: l => prependText [c] (group l)
  | .call name input :: l => .taggedToolCall name input :: group l

@[simp] theorem items_nil : items [] = [] := rfl

@[simp] theorem items_append (a b : List NormalisedChunk) : items (a ++ b) = items a ++ items b :=
  List.flatMap_append

theorem prependText_append (c : Char) (s : List Char) (l : List NormalisedChunk) :
    prependText [c] (prependText s l) = prependText (c :: s) l := by
  cases l with
  | nil => rfl
  | cons chunk l => cases chunk <;> rfl

theorem group_text (s : List Char) (hs : s ≠ []) (l : List Item) :
    group (s.map .char ++ l) = prependText s (group l) := by
  induction s with
  | nil => exact absurd rfl hs
  | cons c s ih =>
    simp only [List.map_cons, List.cons_append, group]
    cases s with
    | nil => rfl
    | cons d s => rw [ih (List.cons_ne_nil d s), prependText_append]

/-- Without empty texts, the items determine the merged chunks. -/
theorem group_items (chunks : List NormalisedChunk) (h : .text [] ∉ chunks) :
    group (items chunks) = mergeAdjacentText chunks := by
  induction chunks with
  | nil => rfl
  | cons chunk chunks ih =>
    have htail := ih fun hm => h (List.mem_cons_of_mem _ hm)
    cases chunk with
    | text s =>
      have hs : s ≠ [] := by rintro rfl; exact h List.mem_cons_self
      show group (s.map .char ++ items chunks) = prependText s (mergeAdjacentText chunks)
      rw [group_text s hs, htail]
    | taggedToolCall name input =>
      show .taggedToolCall name input :: group (items chunks) = _
      rw [htail]
      rfl

/-! ### The loop, turn by turn -/

variable (codec : JsonCodec)

variable {b t rest p v : List Char} {chunks o : List NormalisedChunk}

theorem normaliseLoop_fuel {fuel fuel' : ℕ} (h : b.length < fuel) (h' : b.length < fuel') :
    normaliseLoop codec fuel b = normaliseLoop codec fuel' b := by
  induction fuel generalizing fuel' b with
  | zero => exact absurd h (Nat.not_lt_zero _)
  | succ fuel ih =>
    cases fuel' with
    | zero => exact absurd h' (Nat.not_lt_zero _)
    | succ fuel' =>
      simp only [normaliseLoop]
      cases hout : (normaliseStep codec b).2 with
      | wait rest => rfl
      | panic => rfl
      | closed chunks rest =>
        have hlt := normaliseStep_closed_length hout
        simp only
        rw [ih (show rest.length < fuel by omega) (show rest.length < fuel' by omega)]

def textChunks (t : List Char) : List NormalisedChunk := pushTextChunk (stripToolCallWrappers t)

theorem normaliseBuffer_wait (h : normaliseStep codec b = (t, .wait rest)) :
    normaliseBuffer codec b = some (textChunks t, rest) := by
  simp only [normaliseBuffer, normaliseLoop, h, textChunks]

theorem normaliseBuffer_panic (h : normaliseStep codec b = (t, .panic)) : normaliseBuffer codec b = none := by
  simp only [normaliseBuffer, normaliseLoop, h]

theorem normaliseBuffer_closed (h : normaliseStep codec b = (t, .closed chunks rest)) :
    normaliseBuffer codec b =
      (normaliseBuffer codec rest).map fun r => (textChunks t ++ chunks ++ r.1, r.2) := by
  have hlt : rest.length < b.length := normaliseStep_closed_length (by rw [h])
  simp only [normaliseBuffer, normaliseLoop, h]
  rw [normaliseLoop_fuel codec hlt (Nat.lt_succ_self rest.length)]
  rfl

/-- What a run emits that receives `b` at once. -/
def whole (b : List Char) : Option (List Item) :=
  (normaliseBuffer codec b).map fun r => items r.1 ++ items (StreamTextNormaliser.finish ⟨r.2⟩)

theorem whole_wait (h : normaliseStep codec b = (t, .wait rest)) :
    whole codec b = some (items (textChunks t) ++ items (StreamTextNormaliser.finish ⟨rest⟩)) := by
  simp only [whole, normaliseBuffer_wait codec h, Option.map_some]

theorem whole_panic (h : normaliseStep codec b = (t, .panic)) : whole codec b = none := by
  simp only [whole, normaliseBuffer_panic codec h, Option.map_none]

theorem whole_closed (h : normaliseStep codec b = (t, .closed chunks rest)) :
    whole codec b = (whole codec rest).map (items (textChunks t) ++ items chunks ++ ·) := by
  simp only [whole, normaliseBuffer_closed codec h, Option.map_map]
  congr 1
  funext r
  simp

/-- Two buffers that meet the same tag emit the same from there on. -/
theorem whole_of_same_tag {x y u : List Char} {out : TagOutcome} {l : List Item}
    (hx : normaliseStep codec x = (t, out)) (hy : normaliseStep codec y = (u, out))
    (htext : items (textChunks t) = l ++ items (textChunks u)) :
    whole codec x = (whole codec y).map (l ++ ·) := by
  cases out with
  | wait rest =>
    rw [whole_wait codec hx, whole_wait codec hy, htext]
    simp
  | panic =>
    rw [whole_panic codec hx, whole_panic codec hy]
    rfl
  | closed chunks rest =>
    rw [whole_closed codec hx, whole_closed codec hy, htext, Option.map_map]
    congr 1
    funext r
    simp

theorem items_textChunks (t : List Char) : items (textChunks t) = (stripToolCallWrappers t).map .char := by
  unfold textChunks
  cases stripToolCallWrappers t with
  | nil => rfl
  | cons c s => simp [pushTextChunk, items, NormalisedChunk.items]

theorem finish_split (b : List Char) :
    StreamTextNormaliser.finish ⟨(splitIncompleteToolTagSuffix b).2⟩ = [] := by
  simp only [finish, strip_snd]
  rfl

theorem normaliseStep_none (h : nextTag b = .none) :
    normaliseStep codec b =
      ((splitIncompleteToolTagSuffix b).1, .wait (splitIncompleteToolTagSuffix b).2) := by
  simp only [normaliseStep, h]

theorem whole_none (h : nextTag b = .none) :
    whole codec b = some (items (textChunks (splitIncompleteToolTagSuffix b).1)) := by
  rw [whole_wait codec (normaliseStep_none codec h), finish_split, items_nil, List.append_nil]

/-! ### Closing wrappers behind a call -/

theorem eq_zero_of_prefix_close {tag x : List Char} {i : ℕ} (htag : tag.head? = some '<')
    (hi : i < toolCallClose.length) (hpre : tag <+: toolCallClose.drop i ++ x) : i = 0 := by
  have hhead : ∀ i < toolCallClose.length, i ≠ 0 → (toolCallClose.drop i).head? ≠ some '<' := by
    decide
  by_contra h0
  obtain ⟨c, r, hc⟩ := List.exists_cons_of_ne_nil (show toolCallClose.drop i ≠ [] by simpa using hi)
  obtain ⟨tag', rfl⟩ : ∃ tag', tag = '<' :: tag' := List.head?_eq_some_iff.mp htag
  obtain ⟨z, hz⟩ := hpre
  obtain rfl : '<' = c := by
    rw [hc, List.cons_append] at hz
    exact (List.cons.inj hz).1
  exact hhead i hi h0 (by rw [hc]; rfl)

theorem not_prefix_close {tag : List Char} (htag : tag.head? = some '<')
    (hlen : tag.length ≤ toolCallClose.length) (hno : ¬ tag <+: toolCallClose) (x : List Char) :
    ∀ i < toolCallClose.length, ¬ tag <+: toolCallClose.drop i ++ x := by
  intro i hi hpre
  obtain rfl := eq_zero_of_prefix_close htag hi hpre
  exact hno (prefix_of_append hpre hlen)

theorem noTagIn_toolCallClose (x : List Char) : NoTagIn toolCallClose x := by
  refine ⟨not_prefix_close (by decide) (by decide) (by decide) x, fun i hi => ?_⟩
  rw [← Bool.not_eq_true]
  intro hherm
  exact not_prefix_close (by decide) (by decide) (by decide) x i hi ((hermesHere_iff _).mp hherm).1

theorem stripToolCallWrappers_close (t : List Char) :
    stripToolCallWrappers (toolCallClose ++ t) = stripToolCallWrappers t := by
  have htag : NoStraddle toolCallTag toolCallClose t := fun i hi hpre =>
    absurd hpre (not_prefix_close (by decide) (by decide) (by decide) t i hi)
  have hclose : NoStraddle toolCallClose toolCallClose (replaceAll toolCallTag [] t) := by
    intro i hi hpre
    rw [eq_zero_of_prefix_close (by decide) hi hpre, Nat.zero_add]
  have htagOnly : replaceAll toolCallTag [] toolCallClose = toolCallClose := by decide
  have hcloseOnly : replaceAll toolCallClose [] toolCallClose = [] := by decide
  simp only [stripToolCallWrappers]
  rw [replaceAll_append [] htag, htagOnly, replaceAll_append [] hclose, hcloseOnly, List.nil_append]

/-- A closing wrapper in front of the text changes nothing. -/
theorem whole_close (x : List Char) : whole codec (toolCallClose ++ x) = whole codec x := by
  have hno := noTagIn_toolCallClose x
  by_cases hx : nextTag x = .none
  · have hcx : nextTag (toolCallClose ++ x) = .none := by rw [nextTag_append hno, hx]; rfl
    rw [whole_none codec hx, whole_none codec hcx, items_textChunks, items_textChunks]
    congr 2
    rcases lastOpen_cases x with hopen | ⟨t, r, rfl, hr⟩
    · rw [split_of_notMem hopen]
      have hc : toolCallClose = [] ++ '<' :: toolCallClose.tail := by decide
      have hr : '<' ∉ toolCallClose.tail ++ x := by
        rw [List.mem_append, not_or]
        exact ⟨by decide, hopen⟩
      rw [hc, List.append_assoc, List.cons_append, split_of_lastOpen hr]
      cases x with
      | nil => decide
      | cons c x =>
        have hpart : ¬ looksLikePartialToolTag ('<' :: (toolCallClose.tail ++ c :: x)) = true := by
          intro hpart
          obtain ⟨tag, hmem, hpre⟩ := List.any_eq_true.mp hpart
          have hlen := (List.isPrefixOf_iff_prefix.mp hpre).length_le
          have hshort : ∀ tag ∈ partialToolTags, tag.length ≤ 12 := by decide
          have htail : toolCallClose.tail.length = 11 := by decide
          have := hshort tag hmem
          simp only [toAsciiLowercase, List.length_map, List.length_cons, List.length_append, htail] at hlen
          omega
        rw [if_neg hpart]
        exact stripToolCallWrappers_close (c :: x)
    · rw [split_release _ _ (Or.inr (by simp)), stripToolCallWrappers_close]
  · have hstep := normaliseStep_append codec hno hx
    rw [whole_of_same_tag codec (y := x) (u := (normaliseStep codec x).1) (l := []) hstep rfl]
    · simp
    · rw [items_textChunks, items_textChunks, stripToolCallWrappers_close, List.nil_append]

theorem whole_skip (fuel : ℕ) (x v : List Char) :
    whole codec (skipToolCallClosesFrom fuel x ++ v) = whole codec (x ++ v) := by
  induction fuel generalizing x with
  | zero => rfl
  | succ fuel ih =>
    simp only [skipToolCallClosesFrom]
    split
    · rename_i h
      obtain ⟨y, rfl⟩ := h
      rw [ih, List.drop_left, List.append_assoc, whole_close]
    · rfl

/-! ### Cuts -/

/-- The text released ends with a `<tool_call>` and white space, and the brace follows. -/
def HermesCut (b p v : List Char) : Prop :=
  p = [] ∧ (trimStart v).head? = some '{' ∧
    ∃ s ∈ b.tails, toolCallTag <+: s ∧ (s.drop toolCallTag.length).all isWhitespace = true

/-- The text released ends with the first `k` characters of the closing wrapper, once its opening
wrappers are stripped, and the other characters of it follow in the same way. -/
def WrapperCut (b p v : List Char) : Prop :=
  v ≠ [] ∧ ∃ x ∈ (b.take (b.length - p.length)).tails, ∃ k < toolCallClose.length, 0 < k ∧
    replaceAll toolCallTag [] x = toolCallClose.take k ∧
    toolCallClose.drop k <+: replaceAll toolCallTag [] (p ++ v)

instance (b p v : List Char) : Decidable (HermesCut b p v) := by
  unfold HermesCut; infer_instance

instance (b p v : List Char) : Decidable (WrapperCut b p v) := by
  unfold WrapperCut; infer_instance

/-- The cut between a buffer `b`, of which `p` stays pending, and the text `v` still to come. -/
def CutSafe (b p v : List Char) : Prop := ¬ HermesCut b p v ∧ ¬ WrapperCut b p v

instance (b p v : List Char) : Decidable (CutSafe b p v) := by
  unfold CutSafe; infer_instance

theorem CutSafe.of_suffix (h : CutSafe b p v) (hrest : rest <:+ b) : CutSafe rest p v := by
  refine ⟨fun ⟨hp, hv, s, hs, hcut⟩ => h.1 ⟨hp, hv, s, ?_, hcut⟩,
    fun ⟨hv, x, hx, hcut⟩ => h.2 ⟨hv, x, ?_, hcut⟩⟩
  · exact (List.mem_tails _ _).mpr (((List.mem_tails _ _).mp hs).trans hrest)
  · refine (List.mem_tails _ _).mpr (((List.mem_tails _ _).mp hx).trans ?_)
    obtain ⟨z, rfl⟩ := hrest
    by_cases hp : p.length ≤ rest.length
    · have hlen : (z ++ rest).length - p.length = z.length + (rest.length - p.length) := by
        rw [List.length_append]; omega
      rw [hlen, List.take_length_add_append]
      exact List.suffix_append _ _
    · have hlen : rest.length - p.length = 0 := by omega
      rw [hlen]
      exact List.nil_suffix

/-! ### Cutting a run in two -/

/-- The wrappers of released text and of what is released next are stripped separately. -/
theorem strip_release {l r : List Char} (hl : (splitIncompleteToolTagSuffix b).2 ++ v = l ++ r)
    (hr : ∀ c ∈ r.head?, c = '<') (hcut : ¬ WrapperCut b (splitIncompleteToolTagSuffix b).2 v) (hv : v ≠ []) :
    stripToolCallWrappers ((splitIncompleteToolTagSuffix b).1 ++ l) =
      stripToolCallWrappers (splitIncompleteToolTagSuffix b).1 ++ stripToolCallWrappers l := by
  obtain ⟨t, ht⟩ : ∃ t, (splitIncompleteToolTagSuffix b).1 = t := ⟨_, rfl⟩
  obtain ⟨p, hp⟩ : ∃ p, (splitIncompleteToolTagSuffix b).2 = p := ⟨_, rfl⟩
  have hb : t ++ p = b := by rw [← ht, ← hp, splitIncomplete_append]
  have htag : NoStraddle toolCallTag t l := by
    have := noStraddle_split toolCallTag_held b v
    rw [ht, hl] at this
    exact this.of_prefix (List.prefix_append l r)
  rw [hp] at hl hcut
  have hlr : replaceAll toolCallTag [] (p ++ v) =
      replaceAll toolCallTag [] l ++ replaceAll toolCallTag [] r := by
    rw [hl, replaceAll_append [] (toolCallTag_headOnce.noStraddle hr)]
  have hclose : NoStraddle toolCallClose (replaceAll toolCallTag [] t) (replaceAll toolCallTag [] l) := by
    intro i hi hpre
    by_contra hlen
    obtain ⟨x, hx⟩ : ∃ x, (replaceAll toolCallTag [] t).drop i = x := ⟨_, rfl⟩
    have hxlen : x.length = (replaceAll toolCallTag [] t).length - i := by
      rw [← hx, List.length_drop]
    rw [hx] at hpre
    -- the wrapper is cut at `x`: `x` is its start, and the rest of it follows
    obtain ⟨y, hy⟩ : x <+: toolCallClose :=
      List.prefix_of_prefix_length_le (List.prefix_append x _) hpre (by omega)
    have hxne : x ≠ [] := by
      rintro rfl
      simp only [List.length_nil] at hxlen
      omega
    have hreleased : replaceAll toolCallTag [] t = (replaceAll toolCallTag [] t).take i ++ x := by
      rw [← hx, List.take_append_drop]
    obtain ⟨s, hs, hsx⟩ := replaceAll_suffix hxne hreleased
    refine hcut ⟨hv, s, ?_, x.length, by omega, List.length_pos_of_ne_nil hxne, ?_, ?_⟩
    · have hbt : b.take (b.length - p.length) = t := by
        rw [← hb, List.length_append, Nat.add_sub_cancel, List.take_left]
      rw [hbt]
      exact (List.mem_tails _ _).mpr hs
    · rw [hsx, ← hy, List.take_left]
    · rw [← hy, List.drop_left, hlr]
      rw [← hy] at hpre
      exact ((List.prefix_append_right_inj x).mp hpre).trans (List.prefix_append _ _)
  rw [ht]
  simp only [stripToolCallWrappers]
  rw [replaceAll_append [] htag, replaceAll_append [] hclose]

/-- Behind released text, no tag is recognised that starts in it. -/
theorem noTagIn_split (h : nextTag b = .none) (hcut : ¬ HermesCut b (splitIncompleteToolTagSuffix b).2 v) :
    NoTagIn (splitIncompleteToolTagSuffix b).1 ((splitIncompleteToolTagSuffix b).2 ++ v) := by
  have hno := nextTag_none h
  rcases split_cases b with hb | ⟨t, r, hb, rfl, -, -⟩
  · have hstr : ∀ tag, HeldTag tag → NoStraddle tag b v := fun tag htag => by
      simpa [hb] using noStraddle_split htag b v
    rw [hb] at hcut
    rw [hb]
    show NoTagIn b ([] ++ v)
    constructor
    · intro i hi hpre
      have hfit := hstr functionTag functionTag_held i hi hpre
      have := prefix_of_append hpre (by rw [List.length_drop]; omega)
      exact hno.function i hi (this.trans (List.prefix_append _ _))
    · intro i hi
      rw [← Bool.not_eq_true]
      intro hherm
      have hpre := ((hermesHere_iff _).mp hherm).1
      have hfit := hstr toolCallTag toolCallTag_held i hi hpre
      have htag := prefix_of_append hpre (by rw [List.length_drop]; omega)
      rcases hermesHere_of_append htag hherm with hx | ⟨hall, hhead⟩
      · have := hno.hermes i hi
        rw [hermesHere_append hx] at this
        cases this
      · exact hcut ⟨rfl, by simpa using hhead, b.drop i,
          (List.mem_tails _ _).mpr (List.drop_suffix _ _), htag, hall⟩
  · rw [hb]
    have hsplit : NoTagIn t ('<' :: r) := by
      constructor
      · intro i hi
        have := hno.function i (by rw [List.length_append]; omega)
        rwa [List.append_nil, List.drop_append_of_le_length (by omega)] at this
      · intro i hi
        have := hno.hermes i (by rw [List.length_append]; omega)
        rwa [List.append_nil, List.drop_append_of_le_length (by omega)] at this
    exact hsplit.of_head (by simp)

theorem nextTag_split (h : nextTag b = .none) :
    nextTag (splitIncompleteToolTagSuffix b).2 = .none := by
  have hno := noTagIn_split (v := []) h fun hcut => absurd hcut.2.1 (by simp [trimStart])
  rw [List.append_nil] at hno
  have htag := nextTag_append hno
  rw [splitIncomplete_append, h] at htag
  cases hn : nextTag (splitIncompleteToolTagSuffix b).2 with
  | none => rfl
  | function i | hermes i => rw [hn] at htag; cases htag

theorem whole_resume_text (h : nextTag b = .none) (hv : v ≠ [])
    (hcut : CutSafe b (splitIncompleteToolTagSuffix b).2 v) :
    whole codec (b ++ v) =
      (whole codec ((splitIncompleteToolTagSuffix b).2 ++ v)).map
        (items (textChunks (splitIncompleteToolTagSuffix b).1) ++ ·) := by
  have hno := noTagIn_split h hcut.1
  obtain ⟨w, hw⟩ : ∃ w, (splitIncompleteToolTagSuffix b).2 ++ v = w := ⟨_, rfl⟩
  have hbv : b ++ v = (splitIncompleteToolTagSuffix b).1 ++ w := by
    rw [← hw, ← List.append_assoc, splitIncomplete_append]
  have hstrip : ∀ l r, w = l ++ r → (∀ c ∈ r.head?, c = '<') →
      items (textChunks ((splitIncompleteToolTagSuffix b).1 ++ l)) =
        items (textChunks (splitIncompleteToolTagSuffix b).1) ++ items (textChunks l) := by
    intro l r hl hr
    simp only [items_textChunks]
    rw [strip_release (hw.trans hl) hr hcut.2 hv, List.map_append]
  rw [hw] at hno ⊢
  rw [hbv]
  cases hn : nextTag w with
  | none =>
    have hn' : nextTag ((splitIncompleteToolTagSuffix b).1 ++ w) = .none := by
      rw [nextTag_append hno, hn]; rfl
    have hrel : splitIncompleteToolTagSuffix ((splitIncompleteToolTagSuffix b).1 ++ w) =
        ((splitIncompleteToolTagSuffix b).1 ++ (splitIncompleteToolTagSuffix w).1,
          (splitIncompleteToolTagSuffix w).2) := by
      refine split_release _ w ?_
      rcases split_cases b with hb | ⟨t, r, hb, -, -, -⟩
      · left; rw [hb]
        show (splitIncompleteToolTagSuffix b).2 = []
        rw [hb]
      · right; rw [← hw, hb]; simp
    rw [whole_none codec hn', whole_none codec hn, hrel]
    congr 1
    refine hstrip _ (splitIncompleteToolTagSuffix w).2 (splitIncomplete_append w).symm ?_
    rcases split_cases w with hb | ⟨t, r, hb, -, -, -⟩ <;> rw [hb] <;> simp
  | function i =>
    have hstep := normaliseStep_append codec hno (by rw [hn]; exact NextTag.noConfusion)
    obtain ⟨-, hpre, -⟩ := nextTag_function hn
    have htake : (normaliseStep codec w).1 = w.take i := by simp only [normaliseStep, hn]
    refine whole_of_same_tag codec hstep rfl (hstrip _ (w.drop i) ?_ ?_)
    · rw [htake, List.take_append_drop]
    · intro c hc
      obtain ⟨z, hz⟩ := hpre
      rw [← hz] at hc
      exact (Option.some.inj hc).symm
  | hermes i =>
    have hstep := normaliseStep_append codec hno (by rw [hn]; exact NextTag.noConfusion)
    obtain ⟨-, hherm, -⟩ := nextTag_hermes hn
    have htake : (normaliseStep codec w).1 = w.take i := by simp only [normaliseStep, hn]
    refine whole_of_same_tag codec hstep rfl (hstrip _ (w.drop i) ?_ ?_)
    · rw [htake, List.take_append_drop]
    · intro c hc
      obtain ⟨z, hz⟩ := ((hermesHere_iff _).mp hherm).1
      rw [← hz] at hc
      exact (Option.some.inj hc).symm

/-- What happens at a tag with which `w` starts, and at the same tag when `v` follows. -/
def TagResumes (w v : List Char) (out : List Char → TagOutcome) : Prop :=
  match out w with
  | .wait rest => rest = w
  | .panic => out (w ++ v) = .panic
  | .closed chunks rest => rest <:+ w ∧
    ∃ rest', out (w ++ v) = .closed chunks rest' ∧ whole codec rest' = whole codec (rest ++ v)

theorem skipToolCallClosesFrom_suffix (fuel : ℕ) (x : List Char) :
    skipToolCallClosesFrom fuel x <:+ x := by
  induction fuel generalizing x with
  | zero => exact List.suffix_refl _
  | succ fuel ih =>
    simp only [skipToolCallClosesFrom]
    split
    · exact (ih _).trans (List.drop_suffix _ _)
    · exact List.suffix_refl _

theorem functionOutcome_resumes (w v : List Char) : TagResumes codec w v (functionOutcome codec) := by
  unfold TagResumes
  cases hf : find functionClose w with
  | none => simp only [functionOutcome, hf]
  | some i =>
    have hle := find_le hf
    have htake : (w ++ v).take (i + functionClose.length) = w.take (i + functionClose.length) :=
      List.take_append_of_le_length (by omega)
    have hdrop : (w ++ v).drop (i + functionClose.length) =
        w.drop (i + functionClose.length) ++ v := List.drop_append_of_le_length (by omega)
    simp only [functionOutcome, hf, find_append_left hf v, htake, hdrop]
    cases parseSingleTaggedToolCall codec (w.take (i + functionClose.length)) with
    | none => rfl
    | some parsed =>
      refine ⟨(skipToolCallClosesFrom_suffix _ _).trans (List.drop_suffix _ _), _, rfl, ?_⟩
      have h1 := whole_skip codec ((w.drop (i + functionClose.length)) ++ v).length
        ((w.drop (i + functionClose.length)) ++ v) []
      have h2 := whole_skip codec (w.drop (i + functionClose.length)).length
        (w.drop (i + functionClose.length)) v
      rw [List.append_nil, List.append_nil] at h1
      exact h1.trans h2.symm

theorem hermesOutcome_resumes (w v : List Char) : TagResumes codec w v (hermesOutcome codec) := by
  unfold TagResumes
  cases hf : find toolCallClose w with
  | none => simp only [hermesOutcome, hf]
  | some i =>
    have hle := find_le hf
    have htake : (w ++ v).take i = w.take i := List.take_append_of_le_length (by omega)
    have hdrop : (w ++ v).drop (i + toolCallClose.length) =
        w.drop (i + toolCallClose.length) ++ v := List.drop_append_of_le_length (by omega)
    simp only [hermesOutcome, hf, find_append_left hf v, htake, hdrop]
    exact ⟨List.drop_suffix _ _, _, rfl, rfl⟩

/-- The two ways a turn of the loop ends at a tag, for any text behind the buffer. -/
theorem normaliseStep_at_tag (h : nextTag b ≠ .none) :
    ∃ t w out, b = t ++ w ∧ (∀ x, normaliseStep codec (b ++ x) = (t, out (w ++ x))) ∧
      (∀ x, normaliseStep codec (w ++ x) = ([], out (w ++ x))) ∧
      ∀ v, TagResumes codec w v out := by
  cases hn : nextTag b with
  | none => exact absurd hn h
  | function i =>
    obtain ⟨hle, hpre, hno⟩ := nextTag_function hn
    have hhead : ∀ x, ∀ c ∈ (b.drop i ++ x).head?, c = '<' := by
      intro x c hc
      obtain ⟨z, hz⟩ := hpre
      rw [← hz] at hc
      exact (Option.some.inj hc).symm
    have hw : ∀ x, normaliseStep codec (b.drop i ++ x) = ([], functionOutcome codec (b.drop i ++ x)) :=
      fun x => by
        have htag := nextTag_of_functionTag (hpre.trans (List.prefix_append _ x))
        simp only [normaliseStep, htag, List.take_zero, List.drop_zero]
    refine ⟨b.take i, b.drop i, functionOutcome codec, (List.take_append_drop i b).symm, ?_, hw,
      functionOutcome_resumes codec _⟩
    intro x
    have htag := nextTag_of_functionTag (hpre.trans (List.prefix_append _ x))
    have hstep := normaliseStep_append codec (hno.of_head (hhead x)) (by rw [htag]; exact NextTag.noConfusion)
    rw [← List.append_assoc, List.take_append_drop, hw x, List.append_nil] at hstep
    exact hstep
  | hermes i =>
    obtain ⟨hle, hherm, hno⟩ := nextTag_hermes hn
    have hhead : ∀ x, ∀ c ∈ (b.drop i ++ x).head?, c = '<' := by
      intro x c hc
      obtain ⟨z, hz⟩ := ((hermesHere_iff _).mp hherm).1
      rw [← hz] at hc
      exact (Option.some.inj hc).symm
    have hw : ∀ x, normaliseStep codec (b.drop i ++ x) = ([], hermesOutcome codec (b.drop i ++ x)) :=
      fun x => by
        have htag := nextTag_of_hermesHere (hermesHere_append hherm x)
        simp only [normaliseStep, htag, List.take_zero, List.drop_zero]
    refine ⟨b.take i, b.drop i, hermesOutcome codec, (List.take_append_drop i b).symm, ?_, hw,
      hermesOutcome_resumes codec _⟩
    intro x
    have htag := nextTag_of_hermesHere (hermesHere_append hherm x)
    have hstep := normaliseStep_append codec (hno.of_head (hhead x)) (by rw [htag]; exact NextTag.noConfusion)
    rw [← List.append_assoc, List.take_append_drop, hw x, List.append_nil] at hstep
    exact hstep

/-- **A run can be cut in two**: first what the buffer emits, then what its pending text emits
together with the text still to come. -/
theorem whole_resume (b v : List Char) (hv : v ≠ [])
    (hsafe : ∀ o p, normaliseBuffer codec b = some (o, p) → CutSafe b p v) :
    whole codec (b ++ v) =
      (normaliseBuffer codec b).bind fun r => (whole codec (r.2 ++ v)).map (items r.1 ++ ·) := by
  induction hlen : b.length using Nat.strong_induction_on generalizing b with
  | _ len ih =>
    by_cases hn : nextTag b = .none
    · have hbuf := normaliseBuffer_wait codec (normaliseStep_none codec hn)
      rw [whole_resume_text codec hn hv (hsafe _ _ hbuf), hbuf]
      rfl
    · obtain ⟨t, w, out, hb, hstep, hstepw, hres⟩ := normaliseStep_at_tag codec hn
      have hb0 := hstep []
      rw [List.append_nil, List.append_nil] at hb0
      have hresv := hres v
      unfold TagResumes at hresv
      cases hout : out w with
      | wait rest =>
        rw [hout] at hb0 hresv
        obtain rfl : rest = w := hresv
        rw [normaliseBuffer_wait codec hb0]
        refine whole_of_same_tag codec (hstep v) (hstepw v) ?_
        exact (List.append_nil _).symm
      | panic =>
        rw [hout] at hb0 hresv
        rw [normaliseBuffer_panic codec hb0, whole_panic codec ((hstep v).trans (by rw [hresv]))]
        rfl
      | closed chunks rest =>
        rw [hout] at hb0 hresv
        obtain ⟨hsuf, rest', hout', hwhole⟩ := hresv
        have hlt : rest.length < b.length := normaliseStep_closed_length (by rw [hb0])
        have hbuf := normaliseBuffer_closed codec hb0
        have hrest : rest <:+ b := hsuf.trans (by rw [hb]; exact List.suffix_append _ _)
        have hih := ih rest.length (by omega) rest (fun o p hop =>
          (hsafe (textChunks t ++ chunks ++ o) p (by rw [hbuf, hop]; rfl)).of_suffix hrest) rfl
        rw [whole_closed codec ((hstep v).trans (by rw [hout'])), hwhole, hih, hbuf]
        cases normaliseBuffer codec rest with
        | none => rfl
        | some r =>
          simp only [Option.bind_some, Option.map_some, Option.map_map, items_append]
          congr 1
          funext l
          simp

/-! ### What is left pending -/

theorem normaliseBuffer_settled (h : normaliseBuffer codec b = some (o, p)) :
    normaliseBuffer codec p = some ([], p) := by
  induction hlen : b.length using Nat.strong_induction_on generalizing b o with
  | _ len ih =>
    by_cases hn : nextTag b = .none
    · rw [normaliseBuffer_wait codec (normaliseStep_none codec hn)] at h
      obtain ⟨-, rfl⟩ := Prod.mk.inj (Option.some.inj h)
      have hstep := normaliseStep_none codec (nextTag_split hn)
      rw [split_snd] at hstep
      rw [normaliseBuffer_wait codec hstep]
      rfl
    · obtain ⟨t, w, out, hb, hstep, hstepw, hres⟩ := normaliseStep_at_tag codec hn
      have hb0 := hstep []
      have hw0 := hstepw []
      rw [List.append_nil] at hw0
      rw [List.append_nil, List.append_nil] at hb0
      have hresv := hres []
      unfold TagResumes at hresv
      cases hout : out w with
      | wait rest =>
        rw [hout] at hb0 hw0 hresv
        rw [normaliseBuffer_wait codec hb0] at h
        obtain ⟨-, rfl⟩ := Prod.mk.inj (Option.some.inj h)
        obtain rfl : rest = w := hresv
        rw [normaliseBuffer_wait codec hw0]
        rfl
      | panic =>
        rw [hout] at hb0
        rw [normaliseBuffer_panic codec hb0] at h
        cases h
      | closed chunks rest =>
        rw [hout] at hb0
        have hlt : rest.length < b.length := normaliseStep_closed_length (by rw [hb0])
        rw [normaliseBuffer_closed codec hb0] at h
        obtain ⟨⟨o', p'⟩, hrest, hop⟩ := Option.map_eq_some_iff.mp h
        obtain ⟨-, rfl⟩ := Prod.mk.inj hop
        exact ih rest.length (by omega) hrest rfl

/-! ### No empty texts -/

theorem text_nil_notMem_push (s : List Char) : .text [] ∉ pushTextChunk s := by
  cases s with
  | nil => exact List.not_mem_nil
  | cons c s => simp [pushTextChunk]

theorem text_nil_notMem_closed (h : (normaliseStep codec b).2 = .closed chunks rest) : .text [] ∉ chunks := by
  simp only [normaliseStep] at h
  split at h
  · cases h
  · simp only [hermesOutcome] at h
    split at h
    · cases h
    · obtain ⟨rfl, -⟩ := TagOutcome.closed.inj h
      split <;> simp
  · simp only [functionOutcome] at h
    split at h
    · cases h
    split at h
    · cases h
    · obtain ⟨rfl, -⟩ := TagOutcome.closed.inj h
      split
      · simp
      · exact text_nil_notMem_push _

theorem text_nil_notMem_buffer (h : normaliseBuffer codec b = some (o, p)) : .text [] ∉ o := by
  induction hlen : b.length using Nat.strong_induction_on generalizing b o with
  | _ len ih =>
    obtain ⟨t, ht⟩ : ∃ t, (normaliseStep codec b).1 = t := ⟨_, rfl⟩
    cases hout : (normaliseStep codec b).2 with
    | wait rest =>
      rw [normaliseBuffer_wait codec (Prod.ext ht hout)] at h
      obtain ⟨rfl, -⟩ := Prod.mk.inj (Option.some.inj h)
      exact text_nil_notMem_push _
    | panic =>
      rw [normaliseBuffer_panic codec (Prod.ext ht hout)] at h
      cases h
    | closed chunks rest =>
      rw [normaliseBuffer_closed codec (Prod.ext ht hout)] at h
      obtain ⟨⟨o', p'⟩, hrest, hop⟩ := Option.map_eq_some_iff.mp h
      obtain ⟨rfl, rfl⟩ := Prod.mk.inj hop
      have hlt := normaliseStep_closed_length hout
      have hlater := ih rest.length (by omega) hrest rfl
      simp only [List.mem_append, not_or]
      exact ⟨⟨text_nil_notMem_push _, text_nil_notMem_closed codec hout⟩, hlater⟩

theorem text_nil_notMem_feed {n : StreamTextNormaliser} {chunks : List (List Char)}
    (h : n.feed codec chunks = some o) : .text [] ∉ o := by
  induction chunks generalizing n o with
  | nil =>
    obtain rfl : n.finish = o := Option.some.inj h
    exact text_nil_notMem_push _
  | cons chunk chunks ih =>
    simp only [feed, normalise] at h
    split at h
    · exact ih (by simpa using h)
    obtain ⟨⟨pushed, n'⟩, hpush, hrest⟩ := Option.bind_eq_some_iff.mp h
    obtain ⟨later, hlater, rfl⟩ := Option.map_eq_some_iff.mp hrest
    obtain ⟨⟨o', p'⟩, hbuf, hop⟩ := Option.map_eq_some_iff.mp hpush
    obtain ⟨rfl, rfl⟩ := Prod.mk.inj hop
    rw [List.mem_append, not_or]
    exact ⟨text_nil_notMem_buffer codec hbuf, ih hlater⟩

theorem feed_mergeAdjacentText (n : StreamTextNormaliser) (chunks : List (List Char)) :
    (n.feed codec chunks).map mergeAdjacentText = ((n.feed codec chunks).map items).map group := by
  cases h : n.feed codec chunks with
  | none => rfl
  | some o =>
    simp only [Option.map_some]
    rw [group_items o (text_nil_notMem_feed codec h)]

/-! ### Runs -/

/-- No delta of a run ends at an unsafe cut. -/
def SafeCuts (n : StreamTextNormaliser) : List (List Char) → Prop
  | [] => True
  | chunk :: chunks =>
    match n.normalise codec chunk with
    | none => True
    | some (_, n') => CutSafe (n.pending ++ chunk) n'.pending chunks.flatten ∧ SafeCuts n' chunks

instance decidableSafeCuts (n : StreamTextNormaliser) :
    (chunks : List (List Char)) → Decidable (SafeCuts codec n chunks)
  | [] => isTrue trivial
  | chunk :: chunks =>
    match h : n.normalise codec chunk with
    | none => isTrue (by simp only [SafeCuts, h])
    | some (_, n') =>
      have := decidableSafeCuts n' chunks
      decidable_of_iff (CutSafe (n.pending ++ chunk) n'.pending chunks.flatten ∧
        SafeCuts codec n' chunks) (by simp only [SafeCuts, h])

theorem whole_of_settled (h : normaliseBuffer codec p = some ([], p)) :
    whole codec p = some (items (StreamTextNormaliser.finish ⟨p⟩)) := by
  simp only [whole, h, Option.map_some, items_nil, List.nil_append]

/-- A run whose cuts are safe emits what `whole` does on all its text. -/
theorem feed_items (n : StreamTextNormaliser) (chunks : List (List Char))
    (hset : normaliseBuffer codec n.pending = some ([], n.pending)) (hsafe : SafeCuts codec n chunks) :
    (n.feed codec chunks).map items = whole codec (n.pending ++ chunks.flatten) := by
  induction chunks generalizing n with
  | nil =>
    rw [List.flatten_nil, List.append_nil, whole_of_settled codec hset]
    rfl
  | cons chunk chunks ih =>
    simp only [feed, normalise, SafeCuts] at hsafe ⊢
    by_cases hempty : chunk.isEmpty = true
    · obtain rfl : chunk = [] := List.isEmpty_iff.mp hempty
      simp only [List.isEmpty_nil, if_true] at hsafe ⊢
      have := ih n hset hsafe.2
      rw [Option.bind_some, List.flatten_cons, List.nil_append, ← this]
      cases n.feed codec chunks <;> rfl
    · rw [if_neg hempty] at hsafe ⊢
      rw [List.flatten_cons, ← List.append_assoc]
      cases hbuf : normaliseBuffer codec (n.pending ++ chunk) with
      | none =>
        by_cases hv : chunks.flatten = []
        · rw [hv, List.append_nil, whole, hbuf]
          rfl
        · rw [whole_resume codec _ _ hv (by simp [hbuf]), hbuf]
          rfl
      | some r =>
        obtain ⟨o, p⟩ := r
        rw [hbuf] at hsafe
        have hset' := normaliseBuffer_settled codec hbuf
        have hih := ih ⟨p⟩ hset' hsafe.2
        have hcut : whole codec (n.pending ++ chunk ++ chunks.flatten) =
            (whole codec (p ++ chunks.flatten)).map (items o ++ ·) := by
          by_cases hv : chunks.flatten = []
          · rw [hv, List.append_nil, List.append_nil, whole_of_settled codec hset', whole, hbuf]
            rfl
          rw [whole_resume codec _ _ hv, hbuf, Option.bind_some]
          intro o' p' hop
          rw [hbuf] at hop
          obtain ⟨-, rfl⟩ := Prod.mk.inj (Option.some.inj hop)
          exact hsafe.1
        rw [hcut, ← hih]
        simp only [Option.map_some, Option.bind_some, Option.map_map]
        congr 1
        funext l
        simp

theorem safeCuts_single (s : List Char) : SafeCuts codec {} [s] := by
  simp only [SafeCuts]
  split
  · trivial
  · refine ⟨⟨fun h => ?_, fun h => h.1 rfl⟩, trivial⟩
    exact absurd h.2.1 (by simp [trimStart])

/-- **Invariance under safe cuts**: the chunks pushed for a text, adjacent texts merged, are those
of the same text received at once. -/
theorem feed_eq_of_safeCuts (chunks : List (List Char)) (h : SafeCuts codec {} chunks) :
    (StreamTextNormaliser.feed codec {} chunks).map mergeAdjacentText =
      (StreamTextNormaliser.feed codec {} [chunks.flatten]).map mergeAdjacentText := by
  have hset : normaliseBuffer codec [] = some ([], []) := rfl
  rw [feed_mergeAdjacentText, feed_mergeAdjacentText, feed_items codec {} chunks hset h,
    feed_items codec {} [chunks.flatten] hset (safeCuts_single codec _), List.flatten_singleton]

/-- A reader of the one JSON text `{"name":"ls"}`. -/
def sampleCodec : JsonCodec where
  fromStr s :=
    if s = "\x7b\"name\":\"ls\"\x7d".toList then some (.object [("name", .string "ls")]) else none
  toString _ := []
  parseF64 _ := none

theorem feed_eq_of_safeCuts_sample :
    (StreamTextNormaliser.feed sampleCodec {}
        ["a<tool_".toList, "call>\x7b\"name\":".toList, "\"ls\"\x7d</tool_call>b".toList]).map
          mergeAdjacentText =
      (StreamTextNormaliser.feed sampleCodec {}
        ["a<tool_call>\x7b\"name\":\"ls\"\x7d</tool_call>b".toList]).map mergeAdjacentText :=
  feed_eq_of_safeCuts sampleCodec
    ["a<tool_".toList, "call>\x7b\"name\":".toList, "\"ls\"\x7d</tool_call>b".toList] (by decide)

/-- **The cut that loses a call**: received at once the text is a call, and cut behind the newline
after `<tool_call>` it is plain text. -/
theorem hermesCut_loses_call :
    StreamTextNormaliser.feed sampleCodec {}
        ["<tool_call>\n\x7b\"name\":\"ls\"\x7d</tool_call>".toList] =
      some [.taggedToolCall "ls" Value.emptyObject] ∧
    (StreamTextNormaliser.feed sampleCodec {}
        ["<tool_call>\n".toList, "\x7b\"name\":\"ls\"\x7d</tool_call>".toList]).map
          mergeAdjacentText =
      some [.text "\n\x7b\"name\":\"ls\"\x7d".toList] := by
  decide

end Vexcoder.Stream
