import Vexcoder.Stream.OffsetCalls
import Vexcoder.Stream.Chunking

/-!
# Totality of the text normaliser

The loops of `normalise` at byte offsets, from its searches to a whole run of deltas.  They end on every
input, and the only slice that can fail is the one in a call whose name is not closed.
-/

namespace Vexcoder.Stream

open Base Lib.Search StreamTextNormaliser

/-! ### The searches of the loop -/

theorem toolCallTag_eq : toolCallTag = ['<'] ++ toolCallTag.tail := by decide

theorem findHermes_none {s : List Char} (h : find toolCallTag s = none) :
    findHermesJsonToolCall s = none := by
  refine (findFirst_eq_none_iff _ _).mpr fun i hi => ?_
  rw [← Bool.not_eq_true]
  intro hhere
  exact (find_eq_none_iff _ _).mp h i hi ((hermesHere_iff _).mp hhere).1

theorem hermesHere_before {t w : List Char} (h : find toolCallTag (t ++ w) = some t.length) :
    ∀ i < t.length, hermesHere (t.drop i ++ w) = false := by
  intro i hi
  rw [← Bool.not_eq_true]
  intro hhere
  obtain ⟨-, -, hmin⟩ := (find_eq_some_iff _ _ _).mp h
  refine hmin i hi ?_
  rw [List.drop_append_of_le_length (Nat.le_of_lt hi)]
  exact ((hermesHere_iff _).mp hhere).1

theorem hermesHere_tag (u : List Char) :
    hermesHere (toolCallTag ++ u) = true ↔ (trimStart u).head? = some '{' := by
  rw [hermesHere_iff, List.drop_left]
  exact ⟨fun h => h.2, fun h => ⟨List.prefix_append _ _, h⟩⟩

variable (codec : JsonCodec) (n : StreamTextNormaliser) (text : List Char) (fuel : ℕ) (pending : List Char)

/-- **The search for a JSON call**: from the cursor behind `done` it looks on in `rest`. -/
theorem hermesLoop_eq (done rest : List Char) (h : rest.length < fuel) :
    hermesLoop (done ++ rest) fuel (byteLen done) =
      .ok ((findHermesJsonToolCall rest).map fun i => byteLen (done ++ rest.take i)) := by
  induction fuel generalizing done rest with
  | zero => exact absurd h (Nat.not_lt_zero _)
  | succ fuel ih =>
    rw [hermesLoop, onFrom_append, ok_bind]
    rcases find_cases toolCallTag rest with ⟨hn, hn'⟩ | ⟨t, u, rfl, hn, hn'⟩
    · rw [hn', findHermes_none hn]
      rfl
    have hbefore := hermesHere_before hn
    have hafter : byteLen done + byteLen t + byteLen toolCallTag = byteLen (done ++ (t ++ toolCallTag)) := by
      rw [byteLen_append, byteLen_append, Nat.add_assoc]
    have htext : done ++ (t ++ (toolCallTag ++ u)) = (done ++ (t ++ toolCallTag)) ++ u := by
      simp only [List.append_assoc]
    simp only [hn', hafter]
    rw [htext, onFrom_append, ok_bind, ← htext]
    have hsearch : findHermesJsonToolCall (t ++ (toolCallTag ++ u)) =
        (findHermesJsonToolCall (toolCallTag ++ u)).map (· + t.length) :=
      findFirst_append_right hermesHere t _ hbefore
    by_cases hbrace : (trimStart u).head? = some '{'
    · have hhere : findHermesJsonToolCall (toolCallTag ++ u) = some 0 :=
        (findFirst_eq_some_iff _ _ _).mpr ⟨Nat.zero_le _, (hermesHere_tag u).mpr hbrace,
          fun j hj => absurd hj (Nat.not_lt_zero j)⟩
      rw [if_pos hbrace, hsearch, hhere, Option.map_some, Option.map_some, Nat.zero_add,
        List.take_left, byteLen_append]
    · -- the next search starts behind the `<`
      have hhere : hermesHere (toolCallTag ++ u) = false := by
        rw [← Bool.not_eq_true, hermesHere_tag]
        exact hbrace
      have hnext : findHermesJsonToolCall (toolCallTag ++ u) =
          (findHermesJsonToolCall (toolCallTag.tail ++ u)).map (· + 1) := by
        rw [toolCallTag_eq, List.append_assoc]
        refine findFirst_append_right hermesHere ['<'] _ fun i hi => ?_
        obtain rfl : i = 0 := by simpa using hi
        exact hhere
      have hcursor : byteLen done + byteLen t + 1 = byteLen (done ++ (t ++ ['<'])) := by
        rw [byteLen_append, byteLen_append, ← Nat.add_assoc]
        rfl
      have htag : t ++ (toolCallTag ++ u) = (t ++ ['<']) ++ (toolCallTag.tail ++ u) := by
        rw [toolCallTag_eq]
        simp only [List.append_assoc, List.cons_append, List.nil_append, List.tail_cons]
      have hsplit : done ++ (t ++ (toolCallTag ++ u)) =
          (done ++ (t ++ ['<'])) ++ (toolCallTag.tail ++ u) := by
        rw [htag]
        simp only [List.append_assoc]
      have hlength : (toolCallTag.tail ++ u).length < fuel := by
        have hlen : toolCallTag.length = 11 := by decide
        have hlenTail : toolCallTag.tail.length = 10 := by decide
        simp only [List.length_append, hlen, hlenTail] at h ⊢
        omega
      rw [if_neg hbrace, hcursor, hsplit, ih _ _ hlength, hsearch, hnext]
      cases findHermesJsonToolCall (toolCallTag.tail ++ u) with
      | none => rfl
      | some i =>
        have hoffset : i + 1 + t.length = (t ++ ['<']).length + i := by
          rw [List.length_append, List.length_singleton]
          omega
        simp only [Option.map_some, htag, hoffset, List.take_length_add_append]
        simp only [List.append_assoc]

theorem hermesAt_eq :
    hermesAt text = .ok ((findHermesJsonToolCall text).map fun i => byteLen (text.take i)) :=
  hermesLoop_eq (text.length + 1) [] text (Nat.lt_succ_self _)

theorem splitSuffixAt_eq : splitSuffixAt text = .ok (splitIncompleteToolTagSuffix text) := by
  rw [splitSuffixAt, splitIncompleteToolTagSuffix, rfindOffset]
  cases rfindElem '<' text with
  | none => rfl
  | some i =>
    have hfrom := onFrom_append (text.take i) (text.drop i)
    have hupTo := upTo_append (text.take i) (text.drop i)
    rw [List.take_append_drop] at hfrom hupTo
    simp only [Option.map_some, hfrom, hupTo, ok_bind]
    split <;> rfl

/-- **The loop past the closing wrappers** ends, and its cursor is behind them. -/
theorem skipClosesLoop_eq (done : List Char) {k : ℕ} {rest : List Char} (hk : rest.length ≤ k)
    (h : rest.length < fuel) :
    ∃ closes, rest = closes ++ skipToolCallClosesFrom k rest ∧
      skipClosesLoop (done ++ rest) fuel (byteLen done) = .ok (byteLen (done ++ closes)) := by
  induction fuel generalizing done k rest with
  | zero => exact absurd h (Nat.not_lt_zero _)
  | succ fuel ih =>
    rw [skipClosesLoop, onFrom_append, ok_bind]
    by_cases hclose : toolCallClose <+: rest
    · obtain ⟨u, rfl⟩ := hclose
      have hlen : toolCallClose.length = 12 := by decide
      rw [List.length_append, hlen] at h hk
      obtain ⟨k, rfl⟩ : ∃ k', k = k' + 1 := ⟨k - 1, by omega⟩
      obtain ⟨closes, hu, hloop⟩ :=
        ih (done ++ toolCallClose) (show u.length ≤ k by omega) (show u.length < fuel by omega)
      rw [if_pos (List.prefix_append _ _), skipToolCallClosesFrom, if_pos (List.prefix_append _ _),
        List.drop_left]
      refine ⟨toolCallClose ++ closes, ?_, ?_⟩
      · rw [List.append_assoc, ← hu]
      · rw [← List.append_assoc, ← byteLen_append, hloop, List.append_assoc]
    · refine ⟨[], ?_, ?_⟩
      · cases k with
        | zero => rfl
        | succ k => rw [skipToolCallClosesFrom, if_neg hclose, List.nil_append]
      · rw [if_neg hclose, List.append_nil]

/-! ### One turn -/

/-- The turn that an outcome of the character model stands for. -/
def turnOf (before : List Char) : TagOutcome → Except Fault Turn
  | .wait rest => .ok ⟨pushTextChunk (stripToolCallWrappers before), rest, false⟩
  | .closed chunks rest =>
    .ok ⟨pushTextChunk (stripToolCallWrappers before) ++ chunks, rest, true⟩
  | .panic => .error .slice

theorem hermesTurn_eq (t remaining : List Char) (h : toolCallTag <+: remaining) :
    hermesTurn codec (t ++ remaining) (byteLen t) = turnOf t (hermesOutcome codec remaining) := by
  rw [hermesTurn, upTo_append, ok_bind, onFrom_append, ok_bind, hermesOutcome]
  -- the closing wrapper is behind the opening one
  rcases closing_cases toolCallClose h toolCallTag_headOnce (by decide) (by decide) (by decide) with
    ⟨hn, hn'⟩ | ⟨content, u, hs, hn, hn'⟩
  · rw [hn, hn']
    rfl
  obtain ⟨w, rfl⟩ := h
  have hcontent : ((toolCallTag ++ w).take (toolCallTag ++ content).length).drop
      toolCallTag.length = content := by
    rw [hs, List.take_left, List.drop_left]
  have hslice := between_append toolCallTag content (toolCallClose ++ u)
  rw [← byteLen_append, ← List.append_assoc, ← hs] at hslice
  have hrest : (toolCallTag ++ w).drop ((toolCallTag ++ content).length + toolCallClose.length) =
      u := by
    rw [hs, ← List.append_assoc, ← List.length_append, List.drop_left]
  have hfrom := onFrom_append (toolCallTag ++ content ++ toolCallClose) u
  rw [byteLen_append, List.append_assoc, ← hs] at hfrom
  simp only [hn, hn', hslice, hfrom, hcontent, hrest, ok_bind]
  rfl

theorem functionTurn_eq (t remaining : List Char) (h : functionTag <+: remaining) :
    functionTurn codec (t ++ remaining) (byteLen t) = turnOf t (functionOutcome codec remaining) := by
  rw [functionTurn, upTo_append, ok_bind, onFrom_append, ok_bind, functionOutcome]
  rcases functionClose_cases h with ⟨hn, hn'⟩ | ⟨inner, u, rfl, hn, hn'⟩
  · rw [hn, hn']
    rfl
  have hend : functionTag.length + inner.length + functionClose.length = (rawFunction inner).length := by
    simp only [rawFunction, List.length_append, Nat.add_assoc]
  have hend' : byteLen functionTag + byteLen inner + byteLen functionClose = byteLen (rawFunction inner) := by
    simp only [rawFunction, byteLen_append, Nat.add_assoc]
  have hcall := singleCallAt_eq codec inner
  simp only [hn, hn', hend, hend', upTo_append, ok_bind, List.take_left, List.drop_left, hcall]
  cases parseSingleTaggedToolCall codec (rawFunction inner) with
  | none => rfl
  | some parsed =>
    have hlength : u.length < (rawFunction inner ++ u).length + 1 := by
      rw [List.length_append]
      omega
    obtain ⟨closes, hu, hloop⟩ :=
      skipClosesLoop_eq ((rawFunction inner ++ u).length + 1) (rawFunction inner) (Nat.le_refl _) hlength
    have hfrom := onFrom_append (rawFunction inner ++ closes) (skipToolCallCloses u)
    rw [List.append_assoc, skipToolCallCloses, ← hu] at hfrom
    simp only [orSliceFault, ok_bind, hloop, hfrom]
    rfl

/-- **One turn** of the loop. -/
theorem turnAt_eq :
    turnAt codec pending = turnOf (normaliseStep codec pending).1 (normaliseStep codec pending).2 := by
  have hfunction : ∀ fs, find functionTag pending = some fs →
      functionTurn codec pending (byteLen (pending.take fs)) =
        turnOf (pending.take fs) (functionOutcome codec (pending.drop fs)) := by
    intro fs hfs
    obtain ⟨-, hpre, -⟩ := (find_eq_some_iff _ _ _).mp hfs
    have hturn := functionTurn_eq codec (pending.take fs) (pending.drop fs) hpre
    rwa [List.take_append_drop] at hturn
  have hhermes : ∀ hs, findHermesJsonToolCall pending = some hs →
      hermesTurn codec pending (byteLen (pending.take hs)) =
        turnOf (pending.take hs) (hermesOutcome codec (pending.drop hs)) := by
    intro hs hhs
    obtain ⟨-, hhere, -⟩ := (findFirst_eq_some_iff _ _ _).mp hhs
    have hturn := hermesTurn_eq codec (pending.take hs) (pending.drop hs) ((hermesHere_iff _).mp hhere).1
    rwa [List.take_append_drop] at hturn
  rw [turnAt, hermesAt_eq, ok_bind, findOffset, normaliseStep, nextTag]
  cases hf : find functionTag pending with
  | none =>
    cases hh : findHermesJsonToolCall pending with
    | none =>
      show (splitSuffixAt pending >>= _) = _
      rw [splitSuffixAt_eq, ok_bind]
      rfl
    | some hs => exact hhermes hs hh
  | some fs =>
    cases hh : findHermesJsonToolCall pending with
    | none => exact hfunction fs hf
    | some hs =>
      have hfs : fs ≤ pending.length := ((find_eq_some_iff _ _ _).mp hf).1
      have hhs : hs ≤ pending.length := ((findFirst_eq_some_iff _ _ _).mp hh).1
      have horder := byteLen_take_lt_iff hhs hfs
      simp only [Option.map_some]
      by_cases hlt : hs < fs
      · rw [if_pos (horder.mpr hlt), if_pos hlt]
        exact hhermes hs hh
      · rw [if_neg (fun hb => hlt (horder.mp hb)), if_neg hlt]
        exact hfunction fs hf

/-- **The loop** ends within its bound. -/
theorem normaliseLoopAt_eq (h : pending.length < fuel) :
    normaliseLoopAt codec fuel pending = orSliceFault (normaliseLoop codec fuel pending) := by
  induction fuel generalizing pending with
  | zero => exact absurd h (Nat.not_lt_zero _)
  | succ fuel ih =>
    rw [normaliseLoopAt, turnAt_eq, normaliseLoop]
    cases hout : (normaliseStep codec pending).2 with
    | wait rest => rfl
    | panic => rfl
    | closed chunks rest =>
      have hlt := normaliseStep_closed_length hout
      show (normaliseLoopAt codec fuel rest >>= _) = orSliceFault ((normaliseLoop codec fuel rest).map _)
      rw [ih rest (by omega)]
      cases normaliseLoop codec fuel rest <;> rfl

/-- **A call of `normalise`**, at byte offsets and on characters. -/
theorem normaliseAt_eq : n.normaliseAt codec text = orSliceFault (n.normalise codec text) := by
  rw [normaliseAt, normalise]
  split
  · rfl
  rw [normaliseBuffer]
  show (normaliseLoopAt codec ((n.pending ++ text).length + 1) (n.pending ++ text) >>= _) =
    orSliceFault (Option.map _ _)
  rw [normaliseLoopAt_eq codec _ _ (Nat.lt_succ_self _)]
  cases normaliseLoop codec ((n.pending ++ text).length + 1) (n.pending ++ text) <;> rfl

theorem finishAt_eq : n.finishAt = .ok n.finish := by
  rw [finishAt, splitSuffixAt_eq]
  rfl

/-- **A run at byte offsets** is the run on characters, or its panic. -/
theorem feedAt_eq (texts : List (List Char)) : n.feedAt codec texts = orSliceFault (n.feed codec texts) := by
  induction texts generalizing n with
  | nil => exact finishAt_eq n
  | cons text texts ih =>
    rw [feedAt, feed, normaliseAt_eq]
    cases n.normalise codec text with
    | none => rfl
    | some r =>
      show (r.2.feedAt codec texts >>= _) = orSliceFault ((r.2.feed codec texts).map _)
      rw [ih]
      cases r.2.feed codec texts <;> rfl

/-! ### When the slice fails -/

/-- The texts of the function calls that the loop closes in a buffer, and the text it leaves pending. -/
def closedCallsFrom : ℕ → List Char → List (List Char) × List Char
  | 0, pending => ([], pending)
  | fuel + 1, pending =>
    match nextTag pending with
    | .none => ([], (splitIncompleteToolTagSuffix pending).2)
    | .hermes hs =>
      let remaining := pending.drop hs
      match find toolCallClose remaining with
      | none => ([], remaining)
      | some close => closedCallsFrom fuel (remaining.drop (close + toolCallClose.length))
    | .function fs =>
      let remaining := pending.drop fs
      match find functionClose remaining with
      | none => ([], remaining)
      | some close =>
        let later := closedCallsFrom fuel (skipToolCallCloses (remaining.drop (close + functionClose.length)))
        ((remaining.take close).drop functionTag.length :: later.1, later.2)

/-- The texts of the function calls that are closed while the texts arrive. -/
def closedCalls (pending : List Char) : List (List Char) → List (List Char)
  | [] => []
  | text :: texts =>
    if text.isEmpty then closedCalls pending texts
    else
      let scan := closedCallsFrom ((pending ++ text).length + 1) (pending ++ text)
      scan.1 ++ closedCalls scan.2 texts

/-- Every call has a `>` of its own. -/
def AllNamed (calls : List (List Char)) : Prop := ∀ inner ∈ calls, '>' ∈ inner

theorem allNamed_append (a b : List (List Char)) : AllNamed (a ++ b) ↔ AllNamed a ∧ AllNamed b :=
  List.forall_mem_append

theorem functionOutcome_cases {remaining : List Char} (h : functionTag <+: remaining) :
    find functionClose remaining = none ∧ functionOutcome codec remaining = .wait remaining ∨
      ∃ close, find functionClose remaining = some close ∧
        ('>' ∉ (remaining.take close).drop functionTag.length ∧ functionOutcome codec remaining = .panic ∨
          '>' ∈ (remaining.take close).drop functionTag.length ∧
            ∃ chunks, functionOutcome codec remaining =
              .closed chunks (skipToolCallCloses (remaining.drop (close + functionClose.length)))) := by
  rcases functionClose_cases h with ⟨hn, -⟩ | ⟨inner, u, rfl, hn, -⟩
  · refine .inl ⟨hn, ?_⟩
    rw [functionOutcome, hn]
  refine .inr ⟨_, hn, ?_⟩
  have hinner : ((rawFunction inner ++ u).take (functionTag.length + inner.length)).drop
      functionTag.length = inner := by
    rw [rawFunction, List.append_assoc, List.take_length_add_append, List.drop_left,
      List.append_assoc, List.take_left]
  have hraw : (rawFunction inner ++ u).take
      (functionTag.length + inner.length + functionClose.length) = rawFunction inner := by
    refine List.take_left' ?_
    simp only [rawFunction, List.length_append, Nat.add_assoc]
  rw [hinner, functionOutcome, hn]
  simp only [hraw]
  by_cases hnamed : '>' ∈ inner
  · obtain ⟨parsed, hparsed⟩ := Option.isSome_iff_exists.mp
      ((parseSingleTaggedToolCall_isSome_iff codec inner).mpr hnamed)
    rw [hparsed]
    exact .inr ⟨hnamed, _, rfl⟩
  · rw [parseSingleTaggedToolCall_open codec hnamed]
    exact .inl ⟨hnamed, rfl⟩

/-- One turn of the loop and of the scan: both end, or the call has no `>`, or both go on with the same
rest. -/
theorem normaliseLoop_step :
    (∃ chunks rest, normaliseLoop codec (fuel + 1) pending = some (chunks, rest) ∧
        closedCallsFrom (fuel + 1) pending = ([], rest)) ∨
      (∃ inner later rest, normaliseLoop codec (fuel + 1) pending = none ∧ '>' ∉ inner ∧
        closedCallsFrom (fuel + 1) pending = (inner :: later, rest)) ∨
      ∃ calls chunks rest, AllNamed calls ∧ (normaliseStep codec pending).2 = .closed chunks rest ∧
        closedCallsFrom (fuel + 1) pending =
          (calls ++ (closedCallsFrom fuel rest).1, (closedCallsFrom fuel rest).2) := by
  cases htag : nextTag pending with
  | none =>
    refine .inl ⟨pushTextChunk (stripToolCallWrappers (splitIncompleteToolTagSuffix pending).1),
      (splitIncompleteToolTagSuffix pending).2, ?_, ?_⟩
    · simp only [normaliseLoop, normaliseStep, htag]
    · simp only [closedCallsFrom, htag]
  | hermes hs =>
    cases hclose : find toolCallClose (pending.drop hs) with
    | none =>
      refine .inl ⟨pushTextChunk (stripToolCallWrappers (pending.take hs)), pending.drop hs, ?_, ?_⟩
      · simp only [normaliseLoop, normaliseStep, htag, hermesOutcome, hclose]
      · simp only [closedCallsFrom, htag, hclose]
    | some close =>
      obtain ⟨rest, hrest⟩ : ∃ rest, (pending.drop hs).drop (close + toolCallClose.length) = rest :=
        ⟨_, rfl⟩
      obtain ⟨chunks, hout⟩ : ∃ chunks, hermesOutcome codec (pending.drop hs) = .closed chunks rest := by
        rw [hermesOutcome, hclose, ← hrest]
        exact ⟨_, rfl⟩
      refine .inr (.inr ⟨[], chunks, rest, List.forall_mem_nil _, ?_, ?_⟩)
      · simp only [normaliseStep, htag]
        exact hout
      · simp only [closedCallsFrom, htag, hclose, hrest, List.nil_append]
  | function fs =>
    obtain ⟨-, hpre, -⟩ := nextTag_function htag
    rcases functionOutcome_cases codec hpre with
      ⟨hclose, hout⟩ | ⟨close, hclose, ⟨hopen, hout⟩ | ⟨hnamed, chunks, hout⟩⟩
    · refine .inl ⟨pushTextChunk (stripToolCallWrappers (pending.take fs)), pending.drop fs, ?_, ?_⟩
      · simp only [normaliseLoop, normaliseStep, htag, hout]
      · simp only [closedCallsFrom, htag, hclose]
    · obtain ⟨later, hlater⟩ : ∃ later, closedCallsFrom fuel
          (skipToolCallCloses ((pending.drop fs).drop (close + functionClose.length))) = later :=
        ⟨_, rfl⟩
      refine .inr (.inl ⟨((pending.drop fs).take close).drop functionTag.length, later.1, later.2,
        ?_, hopen, ?_⟩)
      · simp only [normaliseLoop, normaliseStep, htag, hout]
      · simp only [closedCallsFrom, htag, hclose, hlater]
    · refine .inr (.inr ⟨[((pending.drop fs).take close).drop functionTag.length], chunks,
        skipToolCallCloses ((pending.drop fs).drop (close + functionClose.length)), List.forall_mem_singleton.mpr hnamed, ?_, ?_⟩)
      · simp only [normaliseStep, htag, hout]
      · simp only [closedCallsFrom, htag, hclose, List.singleton_append]

/-- **The loop**, on a buffer: it panics exactly when a call it closes has no `>`, and otherwise it
leaves what the scan leaves. -/
theorem normaliseLoop_closedCalls (h : pending.length < fuel) :
    (AllNamed (closedCallsFrom fuel pending).1 →
      ∃ chunks, normaliseLoop codec fuel pending = some (chunks, (closedCallsFrom fuel pending).2)) ∧
      (¬ AllNamed (closedCallsFrom fuel pending).1 → normaliseLoop codec fuel pending = none) := by
  induction fuel generalizing pending with
  | zero => exact absurd h (Nat.not_lt_zero _)
  | succ fuel ih =>
    rcases normaliseLoop_step codec fuel pending with
      ⟨chunks, rest, hloop, hscan⟩ | ⟨inner, later, rest, hloop, hopen, hscan⟩ |
      ⟨calls, chunks, rest, hcalls, hout, hscan⟩
    · rw [hscan]
      exact ⟨fun _ => ⟨chunks, hloop⟩, fun hnot => absurd nofun hnot⟩
    · rw [hscan]
      refine ⟨fun hall => absurd (hall inner List.mem_cons_self) hopen, fun _ => hloop⟩
    · have hlt := normaliseStep_closed_length hout
      obtain ⟨hsome, hnone⟩ := ih rest (by omega)
      rw [hscan]
      constructor
      · intro hall
        obtain ⟨later, hlater⟩ := hsome ((allNamed_append _ _).mp hall).2
        refine ⟨pushTextChunk (stripToolCallWrappers (normaliseStep codec pending).1) ++ chunks ++ later, ?_⟩
        simp only [normaliseLoop, hout, hlater, Option.map_some]
      · intro hnot
        have hrest : ¬ AllNamed (closedCallsFrom fuel rest).1 :=
          fun hr => hnot ((allNamed_append _ _).mpr ⟨hcalls, hr⟩)
        simp only [normaliseLoop, hout, hnone hrest, Option.map_none]

/-- **A run**: it goes through exactly when every call that is closed has a `>` of its own. -/
theorem feed_isSome_iff (texts : List (List Char)) :
    (n.feed codec texts).isSome = true ↔ AllNamed (closedCalls n.pending texts) := by
  induction texts generalizing n with
  | nil => exact ⟨nofun, fun _ => rfl⟩
  | cons text texts ih =>
    rw [feed, normalise, closedCalls]
    split
    · rw [Option.bind_some, Option.isSome_map]
      exact ih n
    obtain ⟨hsome, hnone⟩ := normaliseLoop_closedCalls codec ((n.pending ++ text).length + 1)
      (n.pending ++ text) (Nat.lt_succ_self _)
    rw [allNamed_append, normaliseBuffer]
    by_cases hall : AllNamed (closedCallsFrom ((n.pending ++ text).length + 1) (n.pending ++ text)).1
    · obtain ⟨chunks, hloop⟩ := hsome hall
      rw [hloop, Option.map_some, Option.bind_some, Option.isSome_map]
      rw [ih]
      exact ⟨fun hlater => ⟨hall, hlater⟩, fun hboth => hboth.2⟩
    · rw [hnone hall]
      exact ⟨fun h => absurd h Bool.false_ne_true, fun hboth => absurd hboth.1 hall⟩

/-- **The parser ends on every input, and panics exactly at a call without a `>` of its own.** -/
theorem feedAt_total_iff (codec : JsonCodec) (texts : List (List Char)) :
    StreamTextNormaliser.feedAt codec {} texts ≠ .error .endless ∧
      ((∃ chunks, StreamTextNormaliser.feedAt codec {} texts = .ok chunks) ↔
        AllNamed (closedCalls [] texts)) := by
  rw [feedAt_eq]
  have hiff := feed_isSome_iff codec {} texts
  cases hfeed : feed codec {} texts with
  | none =>
    rw [hfeed] at hiff
    refine ⟨(fun h => by cases h), (fun ⟨_, h⟩ => by cases h), fun hall => ?_⟩
    exact absurd (hiff.mpr hall) Bool.false_ne_true
  | some chunks =>
    rw [hfeed] at hiff
    exact ⟨(fun h => by cases h), fun _ => hiff.mp rfl, fun _ => ⟨chunks, rfl⟩⟩

/-- **The panic**: a call whose `<function=x` is not closed by a `>`. -/
theorem open_function_panics :
    StreamTextNormaliser.feedAt sampleCodec {} ["<function=x</function>".toList] = .error .slice := by
  decide

end Vexcoder.Stream
