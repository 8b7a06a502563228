import Vexcoder.Stream.OffsetParser
import Vexcoder.Stream.NormaliserStep

/-!
# One tagged call at byte offsets

The parameters and the call that `Vexcoder.Stream.OffsetParser` computes at byte offsets are those that
`Vexcoder.Stream.TextNormaliser` computes on the texts that the offsets cut off.  A cursor into a text is
the length of the part `done` that is behind it, so the loop is followed with the text written as
`done ++ rest`.

One slice of `parse_single_tagged_tool_call` can fail: when no `>` stands between `<function=` and
`</function>`, the `>` that ends the name is the one of the closing tag, and the body would start behind
its end (`parseSingleTaggedToolCall_open`).
-/

namespace Vexcoder.Stream

open Base Lib.Search

/-! ### Slices at the ends of a part -/

@[simp] theorem ok_bind {α β : Type} (a : α) (next : α → Except Fault β) :
    ((Except.ok a : Except Fault α) >>= next) = next a := rfl

variable {i j : ℕ} {s : List Char} {c : Char} (codec : JsonCodec) (t : List Char) (fuel : ℕ)
  (input : List (String × Value))

theorem onFrom_append (u : List Char) : onFrom (byteLen t) (t ++ u) = .ok u := by
  rw [onFrom, sliceFrom_append]
  rfl

theorem upTo_append (u : List Char) : upTo (byteLen t) (t ++ u) = .ok t := by
  rw [upTo, sliceTo_append]
  rfl

theorem between_append (m u : List Char) :
    between (byteLen t) (byteLen t + byteLen m) (t ++ (m ++ u)) = .ok m := by
  rw [between, sliceBytes_append]
  rfl

theorem between_gt {a b : ℕ} (h : b < a) (s : List Char) : between a b s = .error .slice := by
  rw [between, sliceBytes, Lib.Offsets.slice_of_gt h]
  rfl

theorem byteLen_take_mono (h : i ≤ j) (s : List Char) : byteLen (s.take i) ≤ byteLen (s.take j) :=
  Lib.Offsets.extent_le_prefixed _ (List.take_prefix_take_left h)

theorem byteLen_take_lt (h : i < j) (hi : i < s.length) : byteLen (s.take i) < byteLen (s.take j) := by
  have hstep : byteLen (s.take (i + 1)) = byteLen (s.take i) + s[i].utf8Size := by
    rw [List.take_succ_eq_append_getElem hi, byteLen_append, byteLen_cons]
    rfl
  have hmono := byteLen_take_mono (show i + 1 ≤ j from h) s
  have hpos := utf8Size_pos s[i]
  omega

/-- Offsets are in the same order in bytes and in characters. -/
theorem byteLen_take_lt_iff (hi : i ≤ s.length) (hj : j ≤ s.length) :
    byteLen (s.take i) < byteLen (s.take j) ↔ i < j := by
  constructor
  · intro h
    by_contra hge
    have := byteLen_take_mono (show j ≤ i by omega) s
    omega
  · intro h
    exact byteLen_take_lt h (by omega)

theorem between_take (hi : i ≤ s.length) (hj : j ≤ s.length) :
    between (byteLen (s.take i)) (byteLen (s.take j)) s =
      orSliceFault (if j < i then none else some ((s.take j).drop i)) := by
  split
  · rename_i h
    exact between_gt ((byteLen_take_lt_iff hj hi).mpr h) s
  · rename_i h
    have htake := List.take_append_drop i (s.take j)
    rw [List.take_take, Nat.min_eq_left (Nat.le_of_not_lt h)] at htake
    have hbetween := between_append (s.take i) ((s.take j).drop i) (s.drop j)
    rw [← byteLen_append, ← List.append_assoc, htake, List.take_append_drop] at hbetween
    exact hbetween

theorem find_cases (pat s : List Char) :
    (find pat s = none ∧ findOffset pat s = none) ∨
      ∃ t u, s = t ++ (pat ++ u) ∧ find pat s = some t.length ∧ findOffset pat s = some (byteLen t) := by
  cases h : find pat s with
  | none => exact .inl ⟨rfl, by rw [findOffset, h]; rfl⟩
  | some i =>
    have hsplit := find_split h
    have hlen : (s.take i).length = i := by
      have := find_le h
      rw [List.length_take]
      omega
    refine .inr ⟨s.take i, s.drop (i + pat.length), ?_, ?_, ?_⟩
    · rw [← List.append_assoc]
      exact hsplit
    · rw [hlen]
    · rw [findOffset, h]
      rfl

theorem find_singleton_append {t : List Char} (h : c ∉ t) (u : List Char) :
    find [c] (t ++ c :: u) = some t.length := by
  refine (find_eq_some_iff _ _ _).mpr ⟨?_, ?_, ?_⟩
  · rw [List.length_append]
    omega
  · rw [List.drop_left]
    exact ⟨u, rfl⟩
  · intro j hj hpre
    rw [List.drop_append_of_le_length (Nat.le_of_lt hj)] at hpre
    obtain ⟨v, hv⟩ := hpre
    have hdrop : t.drop j ≠ [] := by simpa using hj
    obtain ⟨d, r, hr⟩ := List.exists_cons_of_ne_nil hdrop
    rw [hr] at hv
    obtain ⟨rfl, -⟩ := List.cons.inj hv
    exact h (List.mem_of_mem_drop (hr ▸ List.mem_cons_self))

/-! ### The parameters of a call -/

/-- The bounds of the first value of a text, in characters. -/
def valueEnds (valueText : List Char) : ℕ × ℕ :=
  match find parameterClose valueText, find parameterTag valueText with
  | some close, some next =>
    if next < close then (next, next) else (close, close + parameterClose.length)
  | some close, none => (close, close + parameterClose.length)
  | none, some next => (next, next)
  | none, none => (valueText.length, valueText.length)

theorem valueBounds_eq (pre valueText : List Char) :
    valueBounds (byteLen (pre ++ valueText)) (byteLen pre)
        (findOffset parameterClose valueText) (findOffset parameterTag valueText) =
      (byteLen pre + byteLen (valueText.take (valueEnds valueText).1),
        byteLen pre + byteLen (valueText.take (valueEnds valueText).2)) := by
  have htake : ∀ t u : List Char, byteLen ((t ++ u).take t.length) = byteLen t := fun t u => by
    rw [List.take_left]
  have hclosed : ∀ t u : List Char,
      byteLen ((t ++ (parameterClose ++ u)).take (t.length + parameterClose.length)) =
        byteLen t + byteLen parameterClose := fun t u => by
    rw [← List.append_assoc, ← List.length_append, List.take_left, byteLen_append]
  rcases find_cases parameterClose valueText with ⟨hc, hc'⟩ | ⟨t, u, hs, hc, hc'⟩
  · rcases find_cases parameterTag valueText with ⟨hn, hn'⟩ | ⟨t', u', hs', hn, hn'⟩
    · simp only [valueEnds, hc, hn, hc', hn', List.take_length, ← byteLen_append]
      rfl
    · simp only [valueEnds, hc, hn, hc', hn']
      rw [hs', htake]
      rfl
  · rcases find_cases parameterTag valueText with ⟨hn, hn'⟩ | ⟨t', u', hs', hn, hn'⟩
    · simp only [valueEnds, hc, hn, hc', hn']
      rw [hs, htake, hclosed, ← Nat.add_assoc]
      rfl
    · have hlen : byteLen (valueText.take t.length) = byteLen t := by rw [hs, htake]
      have hlen' : byteLen (valueText.take t'.length) = byteLen t' := by rw [hs', htake]
      have hend : byteLen (valueText.take (t.length + parameterClose.length)) =
          byteLen t + byteLen parameterClose := by rw [hs, hclosed]
      have hlt : byteLen pre + byteLen t' < byteLen pre + byteLen t ↔ t'.length < t.length := by
        have horder := byteLen_take_lt_iff ((find_eq_some_iff _ _ _).mp hn).1
          ((find_eq_some_iff _ _ _).mp hc).1
        rw [hlen, hlen'] at horder
        rw [← horder]
        omega
      simp only [valueEnds, valueBounds, hc, hn, hc', hn', Option.map_some]
      by_cases h : t'.length < t.length
      · rw [if_pos (hlt.mpr h), if_pos h, hlen']
      · rw [if_neg (fun hb => h (hlt.mp hb)), if_neg h, hlen, hend, ← Nat.add_assoc]

def storeParameter (codec : JsonCodec) (key valueText : List Char) (input : List (String × Value)) :
    List (String × Value) :=
  if (trimQuotes key).isEmpty then input
  else Value.insertMember (String.ofList (trimQuotes key))
    (taggedParameterJsonValue codec (valueText.take (valueEnds valueText).1)) input

theorem parseTaggedParametersFrom_key {t key valueText : List Char}
    (ht : find parameterTag (t ++ (parameterTag ++ (key ++ (['>'] ++ valueText)))) = some t.length)
    (hkey : find ['>'] (key ++ (['>'] ++ valueText)) = some key.length) :
    parseTaggedParametersFrom codec (fuel + 1) (t ++ (parameterTag ++ (key ++ (['>'] ++ valueText)))) input =
      parseTaggedParametersFrom codec fuel (valueText.drop (valueEnds valueText).2)
        (storeParameter codec key valueText input) := by
  have hdrop : (t ++ (parameterTag ++ (key ++ (['>'] ++ valueText)))).drop
      (t.length + parameterTag.length) = key ++ (['>'] ++ valueText) := by
    rw [← List.append_assoc, ← List.length_append, List.drop_left]
  have hvalue : (key ++ (['>'] ++ valueText)).drop (key.length + 1) = valueText := by
    rw [← List.drop_drop, List.drop_left]
    rfl
  rw [parseTaggedParametersFrom]
  simp only [ht, hdrop, hkey, hvalue, List.take_left]
  rfl

theorem parseTaggedParametersFrom_open {t keyText : List Char}
    (ht : find parameterTag (t ++ (parameterTag ++ keyText)) = some t.length)
    (hkey : find ['>'] keyText = none) :
    parseTaggedParametersFrom codec (fuel + 1) (t ++ (parameterTag ++ keyText)) input = input := by
  have hdrop : (t ++ (parameterTag ++ keyText)).drop (t.length + parameterTag.length) = keyText := by
    rw [← List.append_assoc, ← List.length_append, List.drop_left]
  rw [parseTaggedParametersFrom]
  simp only [ht, hdrop, hkey]

/-- The value that is stored is cut out of the body. -/
theorem between_value (pre valueText : List Char) (n : ℕ) :
    between (byteLen pre) (byteLen pre + byteLen (valueText.take n)) (pre ++ valueText) =
      .ok (valueText.take n) := by
  have h := between_append pre (valueText.take n) (valueText.drop n)
  rwa [List.take_append_drop] at h

theorem parametersLoop_key {done t key valueText pre : List Char}
    (ht : findOffset parameterTag (t ++ (parameterTag ++ (key ++ (['>'] ++ valueText)))) =
      some (byteLen t)) (hkey : findOffset ['>'] (key ++ (['>'] ++ valueText)) = some (byteLen key))
    (hpre : pre = done ++ (t ++ (parameterTag ++ (key ++ ['>'])))) :
    parametersLoop codec (done ++ (t ++ (parameterTag ++ (key ++ (['>'] ++ valueText)))))
        (fuel + 1) (byteLen done) input =
      parametersLoop codec (pre ++ valueText) fuel
        (byteLen (pre ++ valueText.take (valueEnds valueText).2))
        (storeParameter codec key valueText input) := by
  obtain ⟨keyPre, hkeyPre⟩ : ∃ keyPre, keyPre = done ++ (t ++ parameterTag) := ⟨_, rfl⟩
  have hkeyStart : byteLen done + byteLen t + byteLen parameterTag = byteLen keyPre := by
    rw [hkeyPre, byteLen_append, byteLen_append, Nat.add_assoc]
  have hkeyBody : done ++ (t ++ (parameterTag ++ (key ++ (['>'] ++ valueText)))) =
      keyPre ++ (key ++ (['>'] ++ valueText)) := by
    simp only [hkeyPre, List.append_assoc]
  have hvalueStart : byteLen keyPre + byteLen key + 1 = byteLen pre := by
    rw [← hkeyStart]
    simp only [hpre, byteLen_append, byteLen_cons, byteLen_nil, Nat.add_assoc]
    rfl
  have hbody : keyPre ++ (key ++ (['>'] ++ valueText)) = pre ++ valueText := by
    simp only [hkeyPre, hpre, List.append_assoc]
  -- the cursor has moved: the next one is behind the `<parameter=`
  have hcursor : max (byteLen pre + byteLen (valueText.take (valueEnds valueText).2))
      (byteLen done + byteLen t + 1) = byteLen (pre ++ valueText.take (valueEnds valueText).2) := by
    rw [byteLen_append]
    omega
  have hkeySlice := between_append keyPre key (['>'] ++ valueText)
  rw [parametersLoop, onFrom_append, ok_bind]
  simp only [ht, hkeyStart]
  rw [hkeyBody, onFrom_append]
  simp only [hkey, hkeySlice, ok_bind, hvalueStart]
  rw [hbody, onFrom_append, ok_bind, valueBounds_eq]
  simp only [between_value, ok_bind, hcursor]
  rw [storeParameter]
  split <;> rfl

/-- **The parameter loop**: at the cursor behind `done` it reads on in `rest`. -/
theorem parametersLoop_eq (done rest : List Char) (input : List (String × Value)) (h : rest.length < fuel) :
    parametersLoop codec (done ++ rest) fuel (byteLen done) input =
      .ok (parseTaggedParametersFrom codec fuel rest input) := by
  induction fuel generalizing done rest input with
  | zero => exact absurd h (Nat.not_lt_zero _)
  | succ fuel ih =>
    rcases find_cases parameterTag rest with ⟨hn, hn'⟩ | ⟨t, keyText, rfl, hn, hn'⟩
    · rw [parametersLoop, onFrom_append, ok_bind, hn', parseTaggedParametersFrom, hn]
    rcases find_cases ['>'] keyText with ⟨hk, hk'⟩ | ⟨key, valueText, rfl, hk, hk'⟩
    · have hkeyStart : byteLen done + byteLen t + byteLen parameterTag =
          byteLen (done ++ (t ++ parameterTag)) := by
        rw [byteLen_append, byteLen_append, Nat.add_assoc]
      have hbody : done ++ (t ++ (parameterTag ++ keyText)) = (done ++ (t ++ parameterTag)) ++ keyText := by
        simp only [List.append_assoc]
      rw [parseTaggedParametersFrom_open codec fuel input hn hk, parametersLoop, onFrom_append, ok_bind]
      simp only [hn', hkeyStart]
      rw [hbody, onFrom_append, ok_bind, hk']
    · have hlength : (valueText.drop (valueEnds valueText).2).length < fuel := by
        simp only [List.length_append, List.length_cons, List.length_nil, List.length_drop] at h ⊢
        omega
      obtain ⟨pre, hpre⟩ : ∃ pre, pre = done ++ (t ++ (parameterTag ++ (key ++ ['>']))) := ⟨_, rfl⟩
      have hleft : pre ++ valueText = (pre ++ valueText.take (valueEnds valueText).2) ++
          valueText.drop (valueEnds valueText).2 := by
        rw [List.append_assoc, List.take_append_drop]
      rw [parseTaggedParametersFrom_key codec fuel input hn hk,
        parametersLoop_key codec fuel input hn' hk' hpre, hleft]
      exact ih _ _ _ hlength

theorem parametersAt_eq (body : List Char) :
    parametersAt codec body = .ok (parseTaggedParameters codec body) :=
  parametersLoop_eq codec (body.length + 1) [] body [] (Nat.lt_succ_self _)

/-! ### One call -/

theorem find_behind_tag {tag : List Char} (close : List Char) (htag : HeadOnce '<' tag)
    (hclose : close.head? = some '<') (hlen : tag.length ≤ close.length) (hno : ¬ tag <+: close) (w : List Char) :
    find close (tag ++ w) = (find close w).map (· + tag.length) := by
  refine find_append_right fun i hi hpre => ?_
  obtain ⟨r, rfl, hr⟩ := htag
  obtain ⟨close', rfl⟩ := List.head?_eq_some_iff.mp hclose
  cases i with
  | zero =>
    have htagPre : '<' :: r <+: ('<' :: r) ++ w := List.prefix_append _ _
    exact hno (List.prefix_of_prefix_length_le htagPre hpre hlen)
  | succ i =>
    rw [List.drop_succ_cons] at hpre
    have hne : r.drop i ≠ [] := by simpa using hi
    obtain ⟨c, r', hdrop⟩ := List.exists_cons_of_ne_nil hne
    rw [hdrop] at hpre
    obtain ⟨v, hv⟩ := hpre
    obtain ⟨rfl, -⟩ := List.cons.inj hv
    exact hr (List.mem_of_mem_drop (hdrop ▸ List.mem_cons_self))

def rawFunction (inner : List Char) : List Char := functionTag ++ (inner ++ functionClose)

theorem closing_cases {tag remaining : List Char} (close : List Char) (h : tag <+: remaining)
    (htag : HeadOnce '<' tag) (hclose : close.head? = some '<') (hlen : tag.length ≤ close.length)
    (hno : ¬ tag <+: close) :
    find close remaining = none ∧ findOffset close remaining = none ∨
      ∃ inner u, remaining = tag ++ inner ++ (close ++ u) ∧
        find close remaining = some (tag ++ inner).length ∧
        findOffset close remaining = some (byteLen (tag ++ inner)) := by
  rcases find_cases close remaining with hnone | ⟨t, u, hs, hfind, hoffset⟩
  · exact .inl hnone
  obtain ⟨w, rfl⟩ := h
  have hbehind := find_behind_tag close htag hclose hlen hno w
  rw [hfind] at hbehind
  obtain ⟨i, -, hi⟩ := Option.map_eq_some_iff.mp hbehind.symm
  obtain ⟨inner, rfl⟩ : tag <+: t :=
    List.prefix_of_prefix_length_le (List.prefix_append _ w)
      (hs ▸ List.prefix_append t (close ++ u)) (by omega)
  exact .inr ⟨inner, u, hs, hfind, hoffset⟩

theorem functionClose_cases {remaining : List Char} (h : functionTag <+: remaining) :
    find functionClose remaining = none ∧ findOffset functionClose remaining = none ∨
      ∃ inner u, remaining = rawFunction inner ++ u ∧
        find functionClose remaining = some (functionTag.length + inner.length) ∧
        findOffset functionClose remaining = some (byteLen functionTag + byteLen inner) := by
  rcases closing_cases functionClose h functionTag_headOnce (by decide) (by decide) (by decide) with
    hnone | ⟨inner, u, hs, hfind, hoffset⟩
  · exact .inl hnone
  refine .inr ⟨inner, u, ?_, ?_, ?_⟩
  · rw [hs, rawFunction]
    simp only [List.append_assoc]
  · rw [hfind, List.length_append]
  · rw [hoffset, byteLen_append]

theorem mem_dropWhile {p : Char → Bool} (h : c ∈ s) (hc : p c = false) : c ∈ s.dropWhile p := by
  rw [← List.takeWhile_append_dropWhile (p := p) (l := s), List.mem_append] at h
  rcases h with htake | hdrop
  · rw [List.mem_takeWhile_imp htake] at hc
    cases hc
  · exact hdrop

theorem mem_trimBoth {p : Char → Bool} (h : c ∈ s) (hc : p c = false) :
    c ∈ ((s.dropWhile p).reverse.dropWhile p).reverse :=
  List.mem_reverse.mpr (mem_dropWhile (List.mem_reverse.mpr (mem_dropWhile h hc)) hc)

theorem trimQuotes_isEmpty_of_open (h : '<' ∈ s) : (trimQuotes s).isEmpty = false := by
  have hopen : '<' ∈ trimQuotes s :=
    mem_trimBoth (mem_trimBoth (mem_trimBoth h (by decide)) (by decide)) (by decide)
  cases hs : trimQuotes s with
  | nil =>
    rw [hs] at hopen
    cases hopen
  | cons c s => rfl

/-- The closing tag without its `>`. -/
def functionCloseHead : List Char := functionClose.dropLast

theorem functionClose_eq : functionClose = functionCloseHead ++ ['>'] := by decide

theorem functionCloseHead_open : '<' ∈ functionCloseHead := by decide

/-- A call whose name is not closed: the first `>` is the one of the closing tag. -/
theorem rawFunction_open {inner : List Char} (h : '>' ∉ inner) :
    rawFunction inner = functionTag ++ ((inner ++ functionCloseHead) ++ ['>']) ∧
      '>' ∉ inner ++ functionCloseHead := by
  rw [rawFunction, List.append_assoc, List.mem_append, not_or]
  exact ⟨rfl, h, by decide⟩

/-- **The call whose name is not closed**: the body would start behind its end. -/
theorem parseSingleTaggedToolCall_open {inner : List Char} (h : '>' ∉ inner) :
    parseSingleTaggedToolCall codec (rawFunction inner) = none := by
  obtain ⟨hraw, hname⟩ := rawFunction_open h
  have hstart : (rawFunction inner).drop functionTag.length = (inner ++ functionCloseHead) ++ ['>'] := by
    rw [hraw, List.drop_left]
  have hnameSlice : ((rawFunction inner).take
      (functionTag.length + (inner ++ functionCloseHead).length)).drop functionTag.length =
        inner ++ functionCloseHead := by
    rw [hraw, List.take_length_add_append, List.drop_left, List.take_left]
  have hlen : (rawFunction inner).length = functionTag.length + (inner ++ functionCloseHead).length + 1 := by
    rw [hraw, List.length_append, @List.length_append _ _ ['>'], ← Nat.add_assoc]
    rfl
  have hbody : (rawFunction inner).length - functionClose.length <
      functionTag.length + (inner ++ functionCloseHead).length + 1 := by
    have : functionClose.length = 11 := by decide
    omega
  simp only [parseSingleTaggedToolCall, hstart, find_singleton_append hname, hnameSlice,
    trimQuotes_isEmpty_of_open (List.mem_append_right inner functionCloseHead_open), if_pos hbody]
  rfl

/-- **One call**: the two levels agree. -/
theorem singleCallAt_eq (inner : List Char) :
    singleCallAt codec (rawFunction inner) =
      orSliceFault (parseSingleTaggedToolCall codec (rawFunction inner)) := by
  have hstart : onFrom (byteLen functionTag) (rawFunction inner) = .ok (inner ++ functionClose) :=
    onFrom_append _ _
  have hstart' : (rawFunction inner).drop functionTag.length = inner ++ functionClose := List.drop_left
  obtain ⟨hfind, hoffset⟩ | ⟨name, u, htext, hfind, hoffset⟩ := find_cases ['>'] (inner ++ functionClose)
  · simp only [singleCallAt, parseSingleTaggedToolCall, hstart, hstart', ok_bind, hfind, hoffset]
    rfl
  have hraw : rawFunction inner = functionTag ++ (name ++ (['>'] ++ u)) := by rw [rawFunction, htext]
  have hname := between_append functionTag name (['>'] ++ u)
  have hname' : ((rawFunction inner).take (functionTag.length + name.length)).drop functionTag.length =
      name := by
    rw [hraw, List.take_length_add_append, List.drop_left, List.take_left]
  rw [← hraw] at hname
  have hbodyStart : byteLen functionTag + byteLen name + 1 =
      byteLen ((rawFunction inner).take (functionTag.length + name.length + 1)) := by
    have hlen : functionTag.length + name.length + 1 = (functionTag ++ (name ++ ['>'])).length := by
      simp only [List.length_append, List.length_singleton, Nat.add_assoc]
    rw [hraw, ← List.append_assoc name, ← List.append_assoc, hlen, List.take_left, byteLen_append,
      byteLen_append]
    rfl
  have hbodyEnd : byteLen (rawFunction inner) - byteLen functionClose =
      byteLen ((rawFunction inner).take ((rawFunction inner).length - functionClose.length)) := by
    rw [rawFunction, ← List.append_assoc, byteLen_append, Nat.add_sub_cancel, List.length_append,
      Nat.add_sub_cancel, List.take_left]
  have hlength : functionTag.length + name.length + 1 ≤ (rawFunction inner).length := by
    simp only [hraw, List.length_append, List.length_singleton]
    omega
  simp only [singleCallAt, parseSingleTaggedToolCall, hstart, hstart', ok_bind, hfind, hoffset, hname,
    hname', hbodyStart, hbodyEnd, between_take hlength (Nat.sub_le _ _), parametersAt_eq]
  split
  · rfl
  split
  · rfl
  simp only [orSliceFault, ok_bind]
  split
  · generalize (if (trim _).head? = some '{' then _ else none) = parsed
    cases parsed with
    | none => rfl
    | some value => cases value <;> rfl
  · rfl

theorem parseSingleTaggedToolCall_isSome_iff (inner : List Char) :
    (parseSingleTaggedToolCall codec (rawFunction inner)).isSome = true ↔ '>' ∈ inner := by
  constructor
  · intro hsome
    by_contra h
    rw [parseSingleTaggedToolCall_open codec h] at hsome
    cases hsome
  · intro h
    obtain ⟨name, body, rfl, hname⟩ := List.eq_append_cons_of_mem h
    have hstart : (rawFunction (name ++ '>' :: body)).drop functionTag.length =
        name ++ '>' :: (body ++ functionClose) := by
      rw [rawFunction, List.drop_left, List.append_assoc, List.cons_append]
    have horder : ¬ (rawFunction (name ++ '>' :: body)).length - functionClose.length <
        functionTag.length + name.length + 1 := by
      simp only [rawFunction, List.length_append, List.length_cons]
      omega
    simp only [parseSingleTaggedToolCall, hstart, find_singleton_append hname, if_neg horder]
    split
    · rfl
    split
    · split <;> rfl
    · rfl

end Vexcoder.Stream
