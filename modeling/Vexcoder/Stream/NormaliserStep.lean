import Vexcoder.Stream.TextNormaliser

/-!
# One turn of the normaliser loop, on text that is followed by more text

`NoTagIn t w` says that no tag starts in `t` when `w` follows it.  Then the loop on `t ++ w` finds
the tag it finds in `w` (`nextTag_append`), and the text before it is longer by `t`.  Because the
tags have no second `<`, `w` may be changed for any text that is empty or starts with `<`
(`NoTagIn.of_head`); because a text that may be the start of a tag is kept back, the same holds
behind the text that `splitIncompleteToolTagSuffix` releases (`noStraddle_split`).
-/

namespace Vexcoder.Stream

open Base Lib.Search

/-! ### The shape of the tags -/

theorem functionTag_headOnce : HeadOnce '<' functionTag := ⟨functionTag.tail, by decide, by decide⟩

theorem toolCallTag_headOnce : HeadOnce '<' toolCallTag := ⟨toolCallTag.tail, by decide, by decide⟩

/-- The tags that may be cut between two deltas. -/
def HeldTag (tag : List Char) : Prop :=
  HeadOnce '<' tag ∧ tag ∈ partialToolTags ∧ toAsciiLowercase tag = tag

theorem functionTag_held : HeldTag functionTag := ⟨functionTag_headOnce, by decide, by decide⟩

theorem toolCallTag_held : HeldTag toolCallTag := ⟨toolCallTag_headOnce, by decide, by decide⟩

variable {x y t w b rest : List Char} {codec : JsonCodec} {chunks : List NormalisedChunk}

theorem looksLikePartialToolTag_of_start {tag : List Char} (h : HeldTag tag) (hx : x <+: tag) :
    looksLikePartialToolTag x = true := by
  obtain ⟨-, hmem, hlower⟩ := h
  refine List.any_eq_true.mpr ⟨tag, hmem, List.isPrefixOf_iff_prefix.mpr ?_⟩
  have hmap : toAsciiLowercase x <+: toAsciiLowercase tag := hx.map Char.toLower
  rwa [hlower] at hmap

theorem looksLikePartialToolTag_of_append (h : looksLikePartialToolTag (x ++ y) = true) :
    looksLikePartialToolTag x = true := by
  obtain ⟨tag, hmem, hpre⟩ := List.any_eq_true.mp h
  refine List.any_eq_true.mpr ⟨tag, hmem, List.isPrefixOf_iff_prefix.mpr ?_⟩
  have hmap : toAsciiLowercase x <+: toAsciiLowercase (x ++ y) :=
    (List.prefix_append x y).map Char.toLower
  exact hmap.trans (List.isPrefixOf_iff_prefix.mp hpre)

/-! ### The text that is held back -/

theorem split_of_lastOpen {r : List Char} (hr : '<' ∉ r) :
    splitIncompleteToolTagSuffix (t ++ '<' :: r) =
      if looksLikePartialToolTag ('<' :: r) then (t, '<' :: r) else (t ++ '<' :: r, []) := by
  have hlast : rfindElem '<' ('<' :: r) = some 0 := by
    simp [rfindElem, (rfindElem_eq_none_iff '<' r).mpr hr]
  simp only [splitIncompleteToolTagSuffix, rfindElem_append_right t hlast, Nat.add_zero,
    List.drop_left, List.take_left]

theorem split_of_notMem (ht : '<' ∉ t) : splitIncompleteToolTagSuffix t = (t, []) := by
  simp only [splitIncompleteToolTagSuffix, (rfindElem_eq_none_iff '<' t).mpr ht]

/-- A text has no `<`, or splits at its last one. -/
theorem lastOpen_cases (b : List Char) : '<' ∉ b ∨ ∃ t r, b = t ++ '<' :: r ∧ '<' ∉ r := by
  cases h : rfindElem '<' b with
  | none => exact Or.inl ((rfindElem_eq_none_iff '<' b).mp h)
  | some i =>
    obtain ⟨r, hdrop, hr, -⟩ := rfindElem_eq_some h
    refine Or.inr ⟨b.take i, r, ?_, hr⟩
    rw [← hdrop, List.take_append_drop]

/-- What is released and what is held back: nothing is held back, or it is a `<` with no other
after it that may be the start of a tag. -/
theorem split_cases (b : List Char) :
    splitIncompleteToolTagSuffix b = (b, []) ∨
      ∃ t r, splitIncompleteToolTagSuffix b = (t, '<' :: r) ∧ b = t ++ '<' :: r ∧ '<' ∉ r ∧
        looksLikePartialToolTag ('<' :: r) = true := by
  rcases lastOpen_cases b with hb | ⟨t, r, rfl, hr⟩
  · exact Or.inl (split_of_notMem hb)
  · rw [split_of_lastOpen hr]
    by_cases hpart : looksLikePartialToolTag ('<' :: r) = true
    · exact Or.inr ⟨t, r, if_pos hpart, rfl, hr, hpart⟩
    · exact Or.inl (if_neg hpart)

theorem splitIncomplete_append (b : List Char) :
    (splitIncompleteToolTagSuffix b).1 ++ (splitIncompleteToolTagSuffix b).2 = b := by
  rcases split_cases b with h | ⟨t, r, h, hb, -, -⟩
  · rw [h, List.append_nil]
  · rw [h, hb]

theorem split_snd (b : List Char) :
    splitIncompleteToolTagSuffix (splitIncompleteToolTagSuffix b).2 =
      ([], (splitIncompleteToolTagSuffix b).2) := by
  rcases split_cases b with h | ⟨t, r, h, -, hr, hpart⟩
  · rw [h]; rfl
  · rw [h]
    simpa [hpart] using split_of_lastOpen (t := []) hr

theorem strip_snd (b : List Char) : stripIncompleteToolTagSuffix (splitIncompleteToolTagSuffix b).2 = [] := by
  rw [stripIncompleteToolTagSuffix, split_snd]

/-- The text released ends with no part of a tag that the text to come could complete. -/
theorem noStraddle_split {tag : List Char} (h : HeldTag tag) (b v : List Char) :
    NoStraddle tag (splitIncompleteToolTagSuffix b).1 ((splitIncompleteToolTagSuffix b).2 ++ v) := by
  rcases split_cases b with hb | ⟨t, r, hb, -, -, -⟩
  · rw [hb]
    intro i hi hpre
    by_contra hlen
    simp only at hi hlen
    obtain ⟨x, hx⟩ : ∃ x, b.drop i = x := ⟨_, rfl⟩
    have hxlen : x.length = b.length - i := by rw [← hx, List.length_drop]
    obtain ⟨y, hy⟩ : x <+: tag := by
      have hpre' : tag <+: x ++ v := by simpa [hx] using hpre
      exact List.prefix_of_prefix_length_le (List.prefix_append x v) hpre' (by omega)
    obtain ⟨r, rfl, hr⟩ := h.1
    cases x with
    | nil => simp at hxlen; omega
    | cons c x =>
      obtain ⟨rfl, hxy⟩ := List.cons.inj hy
      have hxr : '<' ∉ x := fun hm => hr (hxy ▸ List.mem_append_left y hm)
      have hsplit : splitIncompleteToolTagSuffix b = (b.take i, '<' :: x) := by
        have hbi : b = b.take i ++ '<' :: x := by rw [← hx, List.take_append_drop]
        have hpart := looksLikePartialToolTag_of_start h ⟨y, hy⟩
        rw [hbi, split_of_lastOpen hxr, if_pos hpart, ← hbi]
      rw [hb] at hsplit
      exact List.cons_ne_nil _ _ (Prod.mk.inj hsplit).2.symm
  · rw [hb]
    exact h.1.noStraddle (by simp)

/-- Text whose `<` are all older than `w` is released in front of what `w` releases. -/
theorem split_release (b w : List Char) (hb : (splitIncompleteToolTagSuffix b).2 = [] ∨ '<' ∈ w) :
    splitIncompleteToolTagSuffix (b ++ w) =
      (b ++ (splitIncompleteToolTagSuffix w).1, (splitIncompleteToolTagSuffix w).2) := by
  rcases lastOpen_cases w with hw | ⟨t, r, rfl, hr⟩
  · have hnil : (splitIncompleteToolTagSuffix b).2 = [] := hb.resolve_right hw
    rw [split_of_notMem hw]
    rcases lastOpen_cases b with hb' | ⟨t, r, rfl, hr⟩
    · exact split_of_notMem (by simp [hb', hw])
    have hpart : ¬ looksLikePartialToolTag ('<' :: r) = true := by
      intro hpart
      rw [split_of_lastOpen hr, if_pos hpart] at hnil
      exact List.cons_ne_nil _ _ hnil
    have hpart' : ¬ looksLikePartialToolTag ('<' :: (r ++ w)) = true := fun hp =>
      hpart (looksLikePartialToolTag_of_append (x := '<' :: r) (y := w) (by simpa using hp))
    have hrw : '<' ∉ r ++ w := by simp [hr, hw]
    rw [List.append_assoc, List.cons_append, split_of_lastOpen hrw, if_neg hpart']
  · rw [split_of_lastOpen hr, ← List.append_assoc, split_of_lastOpen hr]
    split <;> simp

/-! ### Where a tag starts -/

theorem trimStart_append_of_all (h : y.all isWhitespace = true) (w : List Char) :
    trimStart (y ++ w) = trimStart w :=
  List.dropWhile_append_of_pos (by simpa using h)

theorem trimStart_append_of_not_all (h : ¬ y.all isWhitespace = true) (w : List Char) :
    (trimStart (y ++ w)).head? = (trimStart y).head? := by
  induction y with
  | nil => exact absurd rfl h
  | cons c y ih =>
    simp only [trimStart, List.cons_append, List.dropWhile_cons]
    by_cases hc : isWhitespace c = true
    · rw [if_pos hc, if_pos hc]
      exact ih (by simpa [hc] using h)
    · rw [if_neg hc, if_neg hc]
      rfl

theorem trimStart_head_ne (hw : ∀ c ∈ w.head?, c = '<') : (trimStart w).head? ≠ some '{' := by
  cases w with
  | nil => simp [trimStart]
  | cons c w =>
    obtain rfl : c = '<' := hw c rfl
    have : isWhitespace '<' = false := by decide
    simp [trimStart, this]

theorem hermesHere_iff (x : List Char) :
    hermesHere x = true ↔ toolCallTag <+: x ∧ (trimStart (x.drop toolCallTag.length)).head? = some '{' := by
  simp [hermesHere]

theorem hermesHere_append (h : hermesHere x = true) (v : List Char) : hermesHere (x ++ v) = true := by
  obtain ⟨⟨y, rfl⟩, hhead⟩ := (hermesHere_iff x).mp h
  rw [List.drop_left] at hhead
  refine (hermesHere_iff _).mpr ⟨⟨y ++ v, (List.append_assoc _ _ _).symm⟩, ?_⟩
  rw [List.append_assoc, List.drop_left, trimStart_append_of_not_all _ v]
  · exact hhead
  · intro hall
    have hnil := trimStart_append_of_all hall []
    rw [List.append_nil] at hnil
    rw [hnil] at hhead
    cases hhead

/-- A JSON call whose tag ends in `x` is recognised in `x` already, unless only white space follows
the tag there. -/
theorem hermesHere_of_append (htag : toolCallTag <+: x) (h : hermesHere (x ++ w) = true) :
    hermesHere x = true ∨
      (x.drop toolCallTag.length).all isWhitespace = true ∧ (trimStart w).head? = some '{' := by
  obtain ⟨y, rfl⟩ := htag
  obtain ⟨-, hhead⟩ := (hermesHere_iff _).mp h
  rw [List.append_assoc, List.drop_left] at hhead
  rw [List.drop_left]
  by_cases hall : y.all isWhitespace = true
  · rw [trimStart_append_of_all hall] at hhead
    exact Or.inr ⟨hall, hhead⟩
  · rw [trimStart_append_of_not_all hall] at hhead
    exact Or.inl ((hermesHere_iff _).mpr ⟨List.prefix_append _ _, by rwa [List.drop_left]⟩)

/-- No tag starts in `t` when `w` follows. -/
structure NoTagIn (t w : List Char) : Prop where
  function : ∀ i < t.length, ¬ functionTag <+: t.drop i ++ w
  hermes : ∀ i < t.length, hermesHere (t.drop i ++ w) = false

theorem NoTagIn.of_head {w' : List Char} (h : NoTagIn t w) (hw' : ∀ c ∈ w'.head?, c = '<') :
    NoTagIn t w' := by
  have hne : ∀ i < t.length, t.drop i ≠ [] := fun i hi => by simpa using hi
  constructor
  · intro i hi hpre
    have hfit := functionTag_headOnce.fits (hne i hi) hw' hpre
    exact h.function i hi ((prefix_of_append hpre hfit).trans (List.prefix_append _ w))
  · intro i hi
    rw [← Bool.not_eq_true]
    intro hherm
    have hpre := ((hermesHere_iff _).mp hherm).1
    have htag := prefix_of_append hpre (toolCallTag_headOnce.fits (hne i hi) hw' hpre)
    rcases hermesHere_of_append htag hherm with hx | ⟨-, hhead⟩
    · have := h.hermes i hi
      rw [hermesHere_append hx w] at this
      cases this
    · exact trimStart_head_ne hw' hhead

/-! ### The next tag -/

/-- The tag found in `w` is found `k` later behind a text of `k` characters without a tag. -/
def NextTag.shift (k : ℕ) : NextTag → NextTag
  | .none => .none
  | .function i => .function (i + k)
  | .hermes i => .hermes (i + k)

theorem nextTag_append (h : NoTagIn t w) : nextTag (t ++ w) = (nextTag w).shift t.length := by
  have hherm : findHermesJsonToolCall (t ++ w) = (findHermesJsonToolCall w).map (· + t.length) :=
    findFirst_append_right hermesHere t w h.hermes
  simp only [nextTag, find_append_right h.function, hherm]
  cases find functionTag w with
  | none => cases findHermesJsonToolCall w <;> rfl
  | some fs =>
    cases findHermesJsonToolCall w with
    | none => rfl
    | some hs =>
      by_cases hlt : hs < fs
      all_goals simp [NextTag.shift, hlt]

theorem nextTag_none (h : nextTag b = .none) : NoTagIn b [] := by
  have hfind : find functionTag b = none ∧ findHermesJsonToolCall b = none := by
    simp only [nextTag] at h
    split at h
    · exact ⟨by assumption, by assumption⟩
    · cases h
    · cases h
    · split at h <;> cases h
  constructor
  · intro i hi
    rw [List.append_nil]
    exact (find_eq_none_iff _ _).mp hfind.1 i (Nat.le_of_lt hi)
  · intro i hi
    rw [List.append_nil]
    exact (findFirst_eq_none_iff _ _).mp hfind.2 i (Nat.le_of_lt hi)

theorem nextTag_function {i : ℕ} (h : nextTag b = .function i) :
    i ≤ b.length ∧ functionTag <+: b.drop i ∧ NoTagIn (b.take i) (b.drop i) := by
  have hfind : find functionTag b = some i ∧ ∀ j < i, hermesHere (b.drop j) = false := by
    simp only [nextTag] at h
    split at h
    · cases h
    · rename_i fs hfs hhs
      obtain rfl : fs = i := by simpa using h
      refine ⟨hfs, fun j hj => (findFirst_eq_none_iff _ _).mp hhs j ?_⟩
      have := find_le hfs
      omega
    · cases h
    · rename_i fs hs hfs hhs
      split at h
      · cases h
      · obtain rfl : fs = i := by simpa using h
        exact ⟨hfs, fun j hj => ((findFirst_eq_some_iff _ _ _).mp hhs).2.2 j (by omega)⟩
  obtain ⟨hle, hpre, hmin⟩ := (find_eq_some_iff _ _ _).mp hfind.1
  refine ⟨hle, hpre, ?_, ?_⟩ <;> intro j hj <;>
    rw [List.length_take, Nat.min_eq_left hle] at hj <;>
    rw [← List.drop_append_of_le_length (by rw [List.length_take]; omega), List.take_append_drop]
  · exact hmin j hj
  · exact hfind.2 j hj

theorem nextTag_hermes {i : ℕ} (h : nextTag b = .hermes i) :
    i ≤ b.length ∧ hermesHere (b.drop i) = true ∧ NoTagIn (b.take i) (b.drop i) := by
  have hfind : findHermesJsonToolCall b = some i ∧ ∀ j < i, ¬ functionTag <+: b.drop j := by
    simp only [nextTag] at h
    split at h
    · cases h
    · cases h
    · rename_i hs hfs hhs
      obtain rfl : hs = i := by simpa using h
      refine ⟨hhs, fun j hj => (find_eq_none_iff _ _).mp hfs j ?_⟩
      have := ((findFirst_eq_some_iff _ _ _).mp hhs).1
      omega
    · rename_i fs hs hfs hhs
      split at h
      · obtain rfl : hs = i := by simpa using h
        exact ⟨hhs, fun j hj => ((find_eq_some_iff _ _ _).mp hfs).2.2 j (by omega)⟩
      · cases h
  obtain ⟨hle, hpre, hmin⟩ := (findFirst_eq_some_iff _ _ _).mp hfind.1
  refine ⟨hle, hpre, ?_, ?_⟩ <;> intro j hj <;>
    rw [List.length_take, Nat.min_eq_left hle] at hj <;>
    rw [← List.drop_append_of_le_length (by rw [List.length_take]; omega), List.take_append_drop]
  · exact hfind.2 j hj
  · exact hmin j hj

theorem nextTag_of_functionTag (h : functionTag <+: w) : nextTag w = .function 0 := by
  have hfind : find functionTag w = some 0 :=
    (find_eq_some_iff _ _ _).mpr ⟨Nat.zero_le _, h, fun j hj => absurd hj (Nat.not_lt_zero j)⟩
  simp only [nextTag, hfind]
  cases findHermesJsonToolCall w with
  | none => rfl
  | some hs => simp

theorem nextTag_of_hermesHere (h : hermesHere w = true) : nextTag w = .hermes 0 := by
  have hfind : findHermesJsonToolCall w = some 0 :=
    (findFirst_eq_some_iff _ _ _).mpr ⟨Nat.zero_le _, h, fun j hj => absurd hj (Nat.not_lt_zero j)⟩
  have hno : ¬ functionTag <+: w := by
    intro hf
    have hlen : functionTag.length ≤ toolCallTag.length := by decide
    have := List.prefix_of_prefix_length_le hf ((hermesHere_iff w).mp h).1 hlen
    exact absurd this (by decide)
  cases hf : find functionTag w with
  | none => simp only [nextTag, hf, hfind]
  | some fs =>
    have hpos : 0 < fs := by
      rcases Nat.eq_zero_or_pos fs with rfl | hpos
      · exact absurd ((find_eq_some_iff _ _ _).mp hf).2.1 hno
      · exact hpos
    simp only [nextTag, hf, hfind, if_pos hpos]

/-- The text before the first tag is longer by `t`, and the tag is the same. -/
theorem normaliseStep_append (codec : JsonCodec) (h : NoTagIn t w) (hw : nextTag w ≠ .none) :
    normaliseStep codec (t ++ w) = (t ++ (normaliseStep codec w).1, (normaliseStep codec w).2) := by
  simp only [normaliseStep, nextTag_append h]
  cases hn : nextTag w with
  | none => exact absurd hn hw
  | function i | hermes i =>
    simp only [NextTag.shift]
    rw [Nat.add_comm i, List.take_length_add_append, List.drop_length_add_append]

/-- A tag that is closed is longer than what is left after it. -/
theorem skipToolCallClosesFrom_length (fuel : ℕ) (x : List Char) :
    (skipToolCallClosesFrom fuel x).length ≤ x.length := by
  induction fuel generalizing x with
  | zero => exact Nat.le_refl _
  | succ fuel ih =>
    simp only [skipToolCallClosesFrom]
    split
    · refine Nat.le_trans (ih _) ?_
      rw [List.length_drop]
      omega
    · exact Nat.le_refl _

theorem functionOutcome_closed_length (h : functionOutcome codec w = .closed chunks rest) :
    rest.length < w.length := by
  simp only [functionOutcome] at h
  split at h
  · cases h
  rename_i i hfind
  split at h
  · cases h
  obtain ⟨-, rfl⟩ := TagOutcome.closed.inj h
  have hle := find_le hfind
  have hskip := skipToolCallClosesFrom_length
    (w.drop (i + functionClose.length)).length (w.drop (i + functionClose.length))
  have hlen : functionClose.length = 11 := by decide
  rw [List.length_drop] at hskip
  simp only [skipToolCallCloses, List.length_drop]
  omega

theorem hermesOutcome_closed_length (h : hermesOutcome codec w = .closed chunks rest) :
    rest.length < w.length := by
  simp only [hermesOutcome] at h
  split at h
  · cases h
  rename_i i hfind
  obtain ⟨-, rfl⟩ := TagOutcome.closed.inj h
  have hle := find_le hfind
  have hlen : toolCallClose.length = 12 := by decide
  rw [List.length_drop]
  omega

theorem normaliseStep_closed_length (h : (normaliseStep codec b).2 = .closed chunks rest) :
    rest.length < b.length := by
  simp only [normaliseStep] at h
  split at h
  · cases h
  · have := hermesOutcome_closed_length h
    rw [List.length_drop] at this
    omega
  · have := functionOutcome_closed_length h
    rw [List.length_drop] at this
    omega

end Vexcoder.Stream
