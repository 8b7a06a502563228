import Vexcoder.Handoff.ProtocolIngress

/-!
# Assembling one chat-compat tool call

What the deltas of one tool call make of its state, and the block events they emit.  Until a name has
arrived the arguments are collected; the delta that brings the name starts the block, with a JSON value
that is held as its input, and sends on the text that is pending; every later fragment is sent on as it
arrives (`callRun_named`).

While nothing is pending, a JSON value takes the place of the one that is held, and the text of that one
is lost (`collect_leading`).
-/

namespace Vexcoder.Handoff

open Base Lib Vexcoder.Runtime

/-! ### What a delta brings -/

def deltaName (toolCall : ChatCompatToolCallDelta) : Option String :=
  toolCall.function.bind fun function => nonemptyStr function.name

def deltaArguments (toolCall : ChatCompatToolCallDelta) : Option ChatCompatFunctionArguments :=
  toolCall.function.bind fun function => function.arguments

def fragments (deltas : List ChatCompatToolCallDelta) : List ChatCompatFunctionArguments :=
  deltas.filterMap deltaArguments

def fragmentText (codec : JsonCodec) : ChatCompatFunctionArguments → List Char
  | .string arguments => arguments.toList
  | .json arguments => codec.toString arguments

def argumentsText (codec : JsonCodec) (args : List ChatCompatFunctionArguments) : List Char :=
  args.flatMap (fragmentText codec)

/-- The deltas up to the first that brings a name, with that one. -/
def untilNamed : List ChatCompatToolCallDelta → List ChatCompatToolCallDelta
  | [] => []
  | toolCall :: deltas =>
    if (deltaName toolCall).isSome then [toolCall] else toolCall :: untilNamed deltas

/-! ### Values that take each other's place -/

/-- The values a list of fragments starts with, and whether text follows them. -/
def valuesRun : List ChatCompatFunctionArguments → List Value × Bool
  | .json value :: args => (value :: (valuesRun args).1, (valuesRun args).2)
  | .string _ :: _ => ([], true)
  | [] => ([], false)

/-- The values that arrive in front of all text, and whether text follows them. -/
def leadingValues : List ChatCompatFunctionArguments → List Value × Bool
  | .json value :: args => (value :: (valuesRun args).1, (valuesRun args).2)
  | .string arguments :: args => if arguments = "" then leadingValues args else ([], true)
  | [] => ([], false)

/-- The text of the leading values without the last one. -/
def overwrittenText (codec : JsonCodec) (args : List ChatCompatFunctionArguments) : List Char :=
  (leadingValues args).1.dropLast.flatMap codec.toString

/-- No leading value is overwritten, or the text of those that are is that of the empty object, which
the default input stands for when text follows. -/
def KeepsLeading (codec : JsonCodec) (args : List ChatCompatFunctionArguments) : Prop :=
  overwrittenText codec args = [] ∨
    overwrittenText codec args = codec.toString Value.emptyObject ∧ (leadingValues args).2 = true

instance (codec : JsonCodec) (args : List ChatCompatFunctionArguments) :
    Decidable (KeepsLeading codec args) := by
  unfold KeepsLeading; infer_instance

/-! ### The events of a block -/

inductive BlockEvent where
  | start (block : StreamBlock)
  | delta (text : String)
  | complete

/-- What one delta does to its call, and the block events it emits. -/
def callStep (host : Host) (blockIndex : ℕ) (toolCall : ChatCompatToolCallDelta)
    (state : PendingChatCompatToolState) : List BlockEvent × PendingChatCompatToolState :=
  if state.lifecycle = .closed then ([], state)
  else
    let merged := mergeToolDelta host toolCall state
    let opened := afterOpening merged
    (((openingBlock blockIndex merged).bind providerStreamBlock).toList.map (fun r => .start r.1) ++
        (partialArguments opened).toList.map .delta,
      afterPartial opened)

def callRun (host : Host) (blockIndex : ℕ) :
    List ChatCompatToolCallDelta → PendingChatCompatToolState → List BlockEvent × PendingChatCompatToolState
  | [], state => ([], state)
  | toolCall :: deltas, state =>
    ((callStep host blockIndex toolCall state).1 ++
        (callRun host blockIndex deltas (callStep host blockIndex toolCall state).2).1,
      (callRun host blockIndex deltas (callStep host blockIndex toolCall state).2).2)

/-- The input of the block, unless it is the default, and the pieces behind it are the text received. -/
def Carries (codec : JsonCodec) (input : Value) (pieces : List String) (received : List Char) : Prop :=
  ∃ start : Option Value, input = start.getD Value.emptyObject ∧
    (start.map codec.toString).getD [] ++ pieces.flatMap String.toList = received

variable (host : Host)

/-! ### Collecting -/

variable (state : PendingChatCompatToolState) (codec : JsonCodec) (blockIndex : ℕ)
  (deltas : List ChatCompatToolCallDelta) (args : ChatCompatFunctionArguments)

@[simp] theorem addArguments_lifecycle :
    (addArguments host state args).lifecycle = state.lifecycle := by
  cases args with
  | string s => rfl
  | json v =>
    rw [addArguments]
    split <;> rfl

@[simp] theorem addArguments_name :
    (addArguments host state args).name = state.name := by
  cases args with
  | string s => rfl
  | json v =>
    rw [addArguments]
    split <;> rfl

def collect (state : PendingChatCompatToolState) (args : List ChatCompatFunctionArguments) :
    PendingChatCompatToolState :=
  args.foldl (addArguments host) state

@[simp] theorem collect_nil : collect host state [] = state := rfl

@[simp] theorem collect_cons (a : ChatCompatFunctionArguments) (args : List ChatCompatFunctionArguments) :
    collect host state (a :: args) = collect host (addArguments host state a) args := rfl

@[simp] theorem argumentsText_nil : argumentsText codec [] = [] := rfl

@[simp] theorem argumentsText_cons (a : ChatCompatFunctionArguments)
    (args : List ChatCompatFunctionArguments) :
    argumentsText codec (a :: args) = fragmentText codec a ++ argumentsText codec args := rfl

variable (a b : List ChatCompatFunctionArguments)

theorem argumentsText_append :
    argumentsText codec (a ++ b) = argumentsText codec a ++ argumentsText codec b :=
  List.flatMap_append

variable {state : PendingChatCompatToolState} {toolCall : ChatCompatToolCallDelta}

theorem addArguments_text (h : state.lifecycle ≠ .discovered ∨ state.pendingArguments ≠ [])
    (hvalue : state.materializedArguments = none) (a : ChatCompatFunctionArguments) :
    (addArguments host state a).pendingArguments = state.pendingArguments ++ fragmentText host.codec a ∧
      (addArguments host state a).materializedArguments = none := by
  cases a with
  | string s =>
    refine ⟨?_, rfl⟩
    simp only [addArguments, hvalue, fragmentText, Option.map_none, Option.getD_none, List.append_nil]
  | json v =>
    have hno : ¬ (state.lifecycle = .discovered ∧ state.pendingArguments = []) := by
      rintro ⟨hlife, hpending⟩
      rcases h with h | h
      · exact h hlife
      · exact h hpending
    rw [addArguments, if_neg hno]
    refine ⟨?_, rfl⟩
    simp only [hvalue, fragmentText, Option.map_none, Option.getD_none, List.append_nil]

/-- What the state holds, with the text `lost` in front, is the text received; a value is held until text
follows it. -/
structure Holds (codec : JsonCodec) (state : PendingChatCompatToolState) (lost received : List Char)
    (followed : Bool) : Prop where
  text : received = lost ++ (state.materializedArguments.map codec.toString).getD [] ++ state.pendingArguments
  value : state.materializedArguments.isSome = true → state.pendingArguments = [] ∧ followed = false
  follows : state.materializedArguments = none → lost = [] ∨ followed = true

theorem collect_text (hpending : state.pendingArguments ≠ [])
    (hvalue : state.materializedArguments = none) (args : List ChatCompatFunctionArguments) :
    (collect host state args).pendingArguments = state.pendingArguments ++ argumentsText host.codec args ∧
      (collect host state args).materializedArguments = none := by
  induction args generalizing state with
  | nil => exact ⟨(List.append_nil _).symm, hvalue⟩
  | cons a args ih =>
    obtain ⟨htext, hnone⟩ := addArguments_text host (.inr hpending) hvalue a
    have hne : (addArguments host state a).pendingArguments ≠ [] := by
      rw [htext]
      exact List.append_ne_nil_of_left_ne_nil hpending _
    obtain ⟨hrest, hrestNone⟩ := ih hne hnone
    refine ⟨?_, hrestNone⟩
    rw [collect_cons, hrest, htext, argumentsText_cons, List.append_assoc]

theorem holds_of_text (hpending : state.pendingArguments ≠ [])
    (hvalue : state.materializedArguments = none) (args : List ChatCompatFunctionArguments)
    {lost received : List Char} {followed : Bool} (hlost : lost = [] ∨ followed = true)
    (hreceived : received = lost ++ (state.pendingArguments ++ argumentsText host.codec args)) :
    Holds host.codec (collect host state args) lost received followed := by
  obtain ⟨htext, hnone⟩ := collect_text host hpending hvalue args
  refine ⟨?_, fun hsome => ?_, fun _ => hlost⟩
  · rw [hreceived, htext, hnone]
    simp
  · rw [hnone] at hsome
    cases hsome

theorem addArguments_json (hlife : state.lifecycle = .discovered)
    (hpending : state.pendingArguments = []) (v : Value) :
    addArguments host state (.json v) = { state with materializedArguments := some v } := by
  rw [addArguments, if_pos ⟨hlife, hpending⟩]

section Values

variable (hjson : ∀ v, host.codec.toString v ≠ [])

include hjson

variable {state : PendingChatCompatToolState}

/-- A value is held: the values that follow take its place, and text puts it in front of itself. -/
theorem collect_value {v : Value} (hlife : state.lifecycle = .discovered)
    (hpending : state.pendingArguments = []) (hvalue : state.materializedArguments = some v)
    (args : List ChatCompatFunctionArguments) :
    Holds host.codec (collect host state args)
        ((v :: (valuesRun args).1).dropLast.flatMap host.codec.toString)
        (host.codec.toString v ++ argumentsText host.codec args) (valuesRun args).2 ∧
      ((collect host state args).materializedArguments = none → (valuesRun args).2 = true) := by
  induction args generalizing state v with
  | nil =>
    have hnone : ¬ (collect host state []).materializedArguments = none := by
      rw [collect_nil, hvalue]
      exact Option.some_ne_none v
    refine ⟨⟨?_, fun _ => ⟨hpending, rfl⟩, fun h => absurd h hnone⟩, fun h => absurd h hnone⟩
    simp [valuesRun, hpending, hvalue]
  | cons a args ih =>
    cases a with
    | json w =>
      have hlife' : ({ state with materializedArguments := some w } :
          PendingChatCompatToolState).lifecycle = .discovered := hlife
      obtain ⟨hrest, hfollows⟩ := ih hlife' hpending rfl
      rw [collect_cons, addArguments_json host hlife hpending]
      refine ⟨⟨?_, hrest.value, fun hnone => .inr (hfollows hnone)⟩, hfollows⟩
      show host.codec.toString v ++ (host.codec.toString w ++ argumentsText host.codec args) = _
      rw [hrest.text]
      simp only [valuesRun, List.dropLast_cons_cons, List.flatMap_cons, List.append_assoc]
    | string s =>
      have hpending' : (addArguments host state (.string s)).pendingArguments =
          host.codec.toString v ++ s.toList := by
        simp only [addArguments, hpending, hvalue, Option.map_some, Option.getD_some, List.nil_append]
      have hne : (addArguments host state (.string s)).pendingArguments ≠ [] := by
        rw [hpending']
        exact List.append_ne_nil_of_left_ne_nil (hjson v) _
      refine ⟨holds_of_text host hne rfl args (.inr rfl) ?_, fun _ => rfl⟩
      rw [hpending']
      simp [valuesRun, fragmentText]

/-- **Collecting** the fragments of a call without a name. -/
theorem collect_leading (hlife : state.lifecycle = .discovered) (hpending : state.pendingArguments = [])
    (hvalue : state.materializedArguments = none) (args : List ChatCompatFunctionArguments) :
    Holds host.codec (collect host state args) (overwrittenText host.codec args)
      (argumentsText host.codec args) (leadingValues args).2 := by
  induction args generalizing state with
  | nil =>
    refine ⟨?_, fun hsome => ?_, fun _ => .inl rfl⟩
    · simp [overwrittenText, leadingValues, hpending, hvalue]
    · rw [collect_nil, hvalue] at hsome
      cases hsome
  | cons a args ih =>
    cases a with
    | json v =>
      rw [collect_cons, addArguments_json host hlife hpending]
      have hlife' : ({ state with materializedArguments := some v } :
          PendingChatCompatToolState).lifecycle = .discovered := hlife
      exact (collect_value host hjson hlife' hpending rfl args).1
    | string s =>
      have hpending' : (addArguments host state (.string s)).pendingArguments = s.toList := by
        simp only [addArguments, hpending, hvalue, Option.map_none, Option.getD_none, List.nil_append]
      by_cases hs : s = ""
      · subst hs
        have hlife' : (addArguments host state (.string "")).lifecycle = .discovered := hlife
        have hrest := ih hlife' hpending' rfl
        simpa [overwrittenText, leadingValues, fragmentText] using hrest
      · have hne : (addArguments host state (.string s)).pendingArguments ≠ [] := by
          rw [hpending']
          exact fun hnil => hs (String.toList_eq_nil_iff.mp hnil)
        have hlost : overwrittenText host.codec (.string s :: args) = [] := by
          rw [overwrittenText, leadingValues, if_neg hs]
          rfl
        refine holds_of_text host hne rfl args (.inl hlost) ?_
        rw [hlost, hpending']
        rfl

omit hjson in
/-- What the emitted input and pieces carry, once the lost text is known. -/
theorem carries_iff_of_holds {lost received : List Char} {followed : Bool}
    (h : Holds host.codec state lost received followed) (hjson : ∀ v, host.codec.toString v ≠ [])
    {pieces : List String} {later : List Char}
    (hpieces : pieces.flatMap String.toList = state.pendingArguments ++ later) :
    Carries host.codec (state.materializedArguments.getD Value.emptyObject) pieces (received ++ later) ↔
      lost = [] ∨ lost = host.codec.toString Value.emptyObject ∧ followed = true := by
  rw [Carries, hpieces, h.text]
  cases hvalue : state.materializedArguments with
  | none =>
    simp only [Option.map_none, Option.getD_none, List.append_nil, List.append_assoc]
    constructor
    · rintro ⟨start, hstart, htext⟩
      cases start with
      | none => exact .inl (List.append_left_eq_self.mp htext.symm)
      | some v =>
        obtain rfl : Value.emptyObject = v := hstart
        have hlost : host.codec.toString Value.emptyObject = lost :=
          List.append_cancel_right htext
        rcases h.follows hvalue with hnil | hfollowed
        · exact .inl hnil
        · exact .inr ⟨hlost.symm, hfollowed⟩
    · rintro (rfl | ⟨rfl, -⟩)
      · exact ⟨none, rfl, rfl⟩
      · exact ⟨some Value.emptyObject, rfl, rfl⟩
  | some v =>
    obtain ⟨hpending, hfollowed⟩ := h.value (by rw [hvalue]; rfl)
    simp only [Option.map_some, Option.getD_some, hpending, List.append_nil, List.nil_append]
    constructor
    · rintro ⟨start, hstart, htext⟩
      refine .inl ?_
      have hlen := congrArg List.length htext
      have hpos := List.length_pos_iff.mpr (hjson v)
      cases start with
      | none =>
        simp only [Option.map_none, Option.getD_none, List.nil_append, List.length_append] at hlen
        omega
      | some w =>
        obtain rfl : v = w := hstart
        simp only [Option.map_some, Option.getD_some, List.length_append] at hlen
        exact List.eq_nil_of_length_eq_zero (by omega)
    · rintro (rfl | ⟨-, htrue⟩)
      · exact ⟨some v, rfl, rfl⟩
      · rw [hfollowed] at htrue
        cases htrue

end Values

/-! ### The steps of a call -/

def takeNames (toolCall : ChatCompatToolCallDelta) (state : PendingChatCompatToolState) :
    PendingChatCompatToolState :=
  { state with
    id := (nonemptyStr toolCall.id).getD state.id
    name := (deltaName toolCall).getD state.name }

theorem deltaName_ne (h : (deltaName toolCall).isSome = true) (name : String) :
    (deltaName toolCall).getD name ≠ "" := by
  obtain ⟨given, hgiven⟩ := Option.isSome_iff_exists.mp h
  obtain ⟨function, -, hname⟩ := Option.bind_eq_some_iff.mp hgiven
  have hne := (Option.filter_eq_some_iff.mp hname).2
  rw [hgiven]
  simpa using hne

theorem mergeToolDelta_eq (toolCall : ChatCompatToolCallDelta) (state : PendingChatCompatToolState) :
    mergeToolDelta host toolCall state =
      collect host (takeNames toolCall state) (deltaArguments toolCall).toList := by
  obtain ⟨index, id, function⟩ := toolCall
  cases function with
  | none => rfl
  | some function =>
    obtain ⟨name, args⟩ := function
    cases args <;> rfl

variable (args : List ChatCompatFunctionArguments)

@[simp] theorem collect_lifecycle :
    (collect host state args).lifecycle = state.lifecycle := by
  induction args generalizing state with
  | nil => rfl
  | cons a args ih => rw [collect_cons, ih, addArguments_lifecycle]

@[simp] theorem collect_name :
    (collect host state args).name = state.name := by
  induction args generalizing state with
  | nil => rfl
  | cons a args ih => rw [collect_cons, ih, addArguments_name]

theorem fragments_cons (toolCall : ChatCompatToolCallDelta) (deltas : List ChatCompatToolCallDelta) :
    fragments (toolCall :: deltas) = (deltaArguments toolCall).toList ++ fragments deltas := by
  rw [fragments, List.filterMap_cons]
  cases deltaArguments toolCall <;> rfl

theorem callStep_eq (blockIndex : ℕ) (toolCall : ChatCompatToolCallDelta) (h : state.lifecycle ≠ .closed) :
    callStep host blockIndex toolCall state =
      (((openingBlock blockIndex (mergeToolDelta host toolCall state)).bind
            providerStreamBlock).toList.map (fun r => .start r.1) ++
          (partialArguments (afterOpening (mergeToolDelta host toolCall state))).toList.map .delta,
        afterPartial (afterOpening (mergeToolDelta host toolCall state))) :=
  if_neg h

theorem mergeToolDelta_unnamed (hlife : state.lifecycle = .discovered) (hname : state.name = "")
    (hdelta : deltaName toolCall = none) :
    (mergeToolDelta host toolCall state).lifecycle = .discovered ∧
      (mergeToolDelta host toolCall state).name = "" := by
  rw [mergeToolDelta_eq, collect_lifecycle, collect_name, takeNames, hdelta]
  exact ⟨hlife, hname⟩

theorem mergeToolDelta_naming (hlife : state.lifecycle = .discovered)
    (hdelta : (deltaName toolCall).isSome = true) :
    (mergeToolDelta host toolCall state).lifecycle = .discovered ∧
      (mergeToolDelta host toolCall state).name ≠ "" := by
  rw [mergeToolDelta_eq, collect_lifecycle, collect_name]
  exact ⟨hlife, deltaName_ne hdelta state.name⟩

theorem callStep_unnamed (hlife : state.lifecycle = .discovered) (hname : state.name = "")
    (hdelta : deltaName toolCall = none) :
    callStep host blockIndex toolCall state = ([], mergeToolDelta host toolCall state) := by
  obtain ⟨hlife', hmerged⟩ := mergeToolDelta_unnamed host hlife hname hdelta
  simp [callStep, hlife, openingBlock, afterOpening, partialArguments, afterPartial, hmerged, hlife']

theorem callStep_naming (blockIndex : ℕ) (hlife : state.lifecycle = .discovered)
    (hdelta : (deltaName toolCall).isSome = true) :
    ∃ (id name : String) (pieces : List String), callStep host blockIndex toolCall state =
        (.start (.toolCall id name
            ((mergeToolDelta host toolCall state).materializedArguments.getD Value.emptyObject)
            .pending) :: pieces.map .delta,
          { mergeToolDelta host toolCall state with
            lifecycle := .opened, materializedArguments := none, pendingArguments := [] }) ∧
      pieces.flatMap String.toList = (mergeToolDelta host toolCall state).pendingArguments := by
  obtain ⟨merged, hmerged⟩ : ∃ merged, mergeToolDelta host toolCall state = merged := ⟨_, rfl⟩
  obtain ⟨hlife', hname⟩ := mergeToolDelta_naming host hlife hdelta
  rw [hmerged] at hlife' hname
  have hopen : state.lifecycle ≠ .closed := by
    rw [hlife]
    exact ToolCallLifecycle.noConfusion
  have hstep := callStep_eq host blockIndex toolCall hopen
  have hopened : afterOpening merged =
      { merged with lifecycle := .opened, materializedArguments := none } := by
    rw [afterOpening, if_pos ⟨hlife', hname⟩]
  obtain ⟨id, hblock⟩ : ∃ id, openingBlock blockIndex merged = some
      (.toolUse id merged.name (merged.materializedArguments.getD Value.emptyObject)) := by
    rw [openingBlock, if_pos ⟨hlife', hname⟩]
    exact ⟨_, rfl⟩
  rw [hmerged] at hstep ⊢
  rw [hstep, hblock, hopened]
  refine ⟨id, merged.name, (partialArguments
    { merged with lifecycle := .opened, materializedArguments := none }).toList, ?_, ?_⟩
  · by_cases hpending : merged.pendingArguments = []
    all_goals simp [providerStreamBlock, partialArguments, afterPartial, hpending]
  · by_cases hpending : merged.pendingArguments = []
    all_goals simp [partialArguments, hpending]

theorem callStep_opened {blockIndex : ℕ} (hlife : state.lifecycle = .opened)
    (hpending : state.pendingArguments = []) (hvalue : state.materializedArguments = none) :
    ∃ (pieces : List String) (state' : PendingChatCompatToolState), callStep host blockIndex toolCall state = (pieces.map .delta, state') ∧
      pieces.flatMap String.toList = argumentsText host.codec (deltaArguments toolCall).toList ∧
      state'.lifecycle = .opened ∧ state'.pendingArguments = [] ∧
      state'.materializedArguments = none := by
  obtain ⟨merged, hmerged⟩ : ∃ merged, mergeToolDelta host toolCall state = merged := ⟨_, rfl⟩
  have hlife' : merged.lifecycle = .opened := by
    rw [← hmerged, mergeToolDelta_eq, collect_lifecycle]
    exact hlife
  have hargs : merged.pendingArguments = argumentsText host.codec (deltaArguments toolCall).toList ∧
      merged.materializedArguments = none := by
    rw [← hmerged, mergeToolDelta_eq]
    cases deltaArguments toolCall with
    | none => exact ⟨hpending, hvalue⟩
    | some a =>
      have hopen : (takeNames toolCall state).lifecycle ≠ .discovered := by
        show state.lifecycle ≠ .discovered
        rw [hlife]
        exact ToolCallLifecycle.noConfusion
      have hvalue' : (takeNames toolCall state).materializedArguments = none := hvalue
      obtain ⟨htext, hnone⟩ := addArguments_text host (.inl hopen) hvalue' a
      refine ⟨?_, hnone⟩
      show (addArguments host (takeNames toolCall state) a).pendingArguments = _
      rw [htext]
      show state.pendingArguments ++ _ = _
      rw [hpending]
      exact (List.append_nil _).symm
  have hdisc : ¬ (merged.lifecycle = .discovered ∧ merged.name ≠ "") := by
    rw [hlife']
    exact fun h => ToolCallLifecycle.noConfusion h.1
  have hopen : state.lifecycle ≠ .closed := by
    rw [hlife]
    exact ToolCallLifecycle.noConfusion
  have hstep := callStep_eq host blockIndex toolCall hopen
  rw [hmerged, openingBlock, if_neg hdisc, afterOpening, if_neg hdisc] at hstep
  refine ⟨(partialArguments merged).toList, afterPartial merged, hstep, ?_, ?_⟩
  · rw [← hargs.1]
    by_cases hempty : merged.pendingArguments = []
    · simp [partialArguments, hempty]
    · simp [partialArguments, hempty, hlife']
  · by_cases hempty : merged.pendingArguments = []
    all_goals simp [afterPartial, hempty, hlife', hargs.2]

theorem callRun_closed (hlife : state.lifecycle = .closed) :
    callRun host blockIndex deltas state = ([], state) := by
  induction deltas with
  | nil => rfl
  | cons toolCall deltas ih =>
    have hstep : callStep host blockIndex toolCall state = ([], state) := if_pos hlife
    rw [callRun, hstep, ih]
    rfl

/-- **A call that is open** sends each fragment on. -/
theorem callRun_opened (hlife : state.lifecycle = .opened) (hpending : state.pendingArguments = [])
    (hvalue : state.materializedArguments = none) :
    ∃ (pieces : List String) (state' : PendingChatCompatToolState),
      callRun host blockIndex deltas state = (pieces.map .delta, state') ∧
      pieces.flatMap String.toList = argumentsText host.codec (fragments deltas) ∧
      state'.lifecycle = .opened := by
  induction deltas generalizing state with
  | nil => exact ⟨[], state, rfl, rfl, hlife⟩
  | cons toolCall deltas ih =>
    obtain ⟨pieces, state', hstep, htext, hlife', hpending', hvalue'⟩ :=
      callStep_opened host hlife hpending hvalue
    obtain ⟨later, state'', hrun, hlater, hlife''⟩ := ih hlife' hpending' hvalue'
    refine ⟨pieces ++ later, state'', ?_, ?_, hlife''⟩
    · rw [callRun, hstep, hrun, List.map_append]
    · rw [List.flatMap_append, htext, hlater, fragments_cons, argumentsText_append]

theorem collect_congr {state' : PendingChatCompatToolState} (hlife : state.lifecycle = state'.lifecycle)
    (hpending : state.pendingArguments = state'.pendingArguments)
    (hvalue : state.materializedArguments = state'.materializedArguments)
    (args : List ChatCompatFunctionArguments) :
    (collect host state args).pendingArguments = (collect host state' args).pendingArguments ∧
      (collect host state args).materializedArguments = (collect host state' args).materializedArguments := by
  induction args generalizing state state' with
  | nil => exact ⟨hpending, hvalue⟩
  | cons a args ih =>
    refine ih (by simp [hlife]) ?_ ?_
    · cases a with
      | string s => simp only [addArguments, hpending, hvalue]
      | json v =>
        simp only [addArguments, hlife, hpending, hvalue]
        split <;> simp
    · cases a with
      | string s => rfl
      | json v =>
        simp only [addArguments, hlife, hpending]
        split <;> rfl

theorem collect_append : collect host state (a ++ b) = collect host (collect host state a) b :=
  List.foldl_append

theorem merge_collect (toolCall : ChatCompatToolCallDelta) (state : PendingChatCompatToolState)
    (args : List ChatCompatFunctionArguments) :
    (collect host (mergeToolDelta host toolCall state) args).pendingArguments =
        (collect host state ((deltaArguments toolCall).toList ++ args)).pendingArguments ∧
      (collect host (mergeToolDelta host toolCall state) args).materializedArguments =
        (collect host state ((deltaArguments toolCall).toList ++ args)).materializedArguments := by
  rw [mergeToolDelta_eq, ← collect_append]
  have hlife : (takeNames toolCall state).lifecycle = state.lifecycle := rfl
  exact collect_congr host hlife rfl rfl _

/-- **A call without a name** emits nothing. -/
theorem callRun_unnamed (hlife : state.lifecycle = .discovered) (hname : state.name = "")
    (hdeltas : ∀ toolCall ∈ deltas, deltaName toolCall = none) :
    ∃ state' : PendingChatCompatToolState, callRun host blockIndex deltas state = ([], state') ∧
      state'.lifecycle = .discovered := by
  induction deltas generalizing state with
  | nil => exact ⟨state, rfl, hlife⟩
  | cons toolCall deltas ih =>
    obtain ⟨hdelta, hrest⟩ := List.forall_mem_cons.mp hdeltas
    obtain ⟨hlife', hname'⟩ := mergeToolDelta_unnamed host hlife hname hdelta
    obtain ⟨state', hrun, hstate'⟩ := ih hlife' hname' hrest
    refine ⟨state', ?_, hstate'⟩
    rw [callRun, callStep_unnamed host blockIndex hlife hname hdelta, hrun]
    rfl

/-- A call whose name arrives: the block starts there, and what was pending is sent on. -/
theorem callRun_naming (blockIndex : ℕ) (deltas : List ChatCompatToolCallDelta)
    (hlife : state.lifecycle = .discovered) (hname : state.name = "")
    (hnamed : ∃ toolCall ∈ deltas, (deltaName toolCall).isSome = true) :
    ∃ (id name : String) (pieces : List String) (later : List Char)
      (state' : PendingChatCompatToolState),
      callRun host blockIndex deltas state =
          (.start (.toolCall id name
              ((collect host state (fragments (untilNamed deltas))).materializedArguments.getD
                Value.emptyObject) .pending) :: pieces.map .delta, state') ∧
        state'.lifecycle = .opened ∧
        pieces.flatMap String.toList =
          (collect host state (fragments (untilNamed deltas))).pendingArguments ++ later ∧
        argumentsText host.codec (fragments deltas) =
          argumentsText host.codec (fragments (untilNamed deltas)) ++ later := by
  induction deltas generalizing state with
  | nil =>
    obtain ⟨toolCall, hmem, -⟩ := hnamed
    cases hmem
  | cons toolCall deltas ih =>
    cases hdelta : deltaName toolCall with
    | some given =>
      have hsome : (deltaName toolCall).isSome = true := by rw [hdelta]; rfl
      have huntil : untilNamed (toolCall :: deltas) = [toolCall] := if_pos hsome
      obtain ⟨id, name, first, hstep, hfirst⟩ :=
        callStep_naming host blockIndex hlife hsome
      have hopened : ({ mergeToolDelta host toolCall state with
          lifecycle := .opened, materializedArguments := none, pendingArguments := [] } :
          PendingChatCompatToolState).lifecycle = .opened := rfl
      obtain ⟨later, state', hrun, hlater, hlife'⟩ :=
        callRun_opened host blockIndex deltas hopened rfl rfl
      obtain ⟨hpending, hvalue⟩ := merge_collect host toolCall state []
      rw [collect_nil] at hpending hvalue
      refine ⟨id, name, first ++ later, argumentsText host.codec (fragments deltas), state', ?_, hlife',
        ?_, ?_⟩
      · rw [callRun, hstep, hrun, huntil, fragments_cons, List.map_append, hvalue]
        rfl
      · rw [List.flatMap_append, hfirst, hlater, huntil, fragments_cons, hpending]
        rfl
      · rw [huntil, fragments_cons, fragments_cons, argumentsText_append]
        simp [fragments]
    | none =>
      have huntil : untilNamed (toolCall :: deltas) = toolCall :: untilNamed deltas := by
        rw [untilNamed, hdelta]
        rfl
      have hrest : ∃ toolCall ∈ deltas, (deltaName toolCall).isSome = true := by
        obtain ⟨other, hmem, hother⟩ := hnamed
        rcases List.mem_cons.mp hmem with rfl | hmem
        · rw [hdelta] at hother
          cases hother
        · exact ⟨other, hmem, hother⟩
      obtain ⟨hlife', hname'⟩ := mergeToolDelta_unnamed host hlife hname hdelta
      obtain ⟨id, name, pieces, later, state', hrun, hopened, hpieces, htext⟩ :=
        ih hlife' hname' hrest
      obtain ⟨hpending, hvalue⟩ :=
        merge_collect host toolCall state (fragments (untilNamed deltas))
      rw [hvalue] at hrun
      rw [hpending] at hpieces
      refine ⟨id, name, pieces, later, state', ?_, hopened, ?_, ?_⟩
      · rw [callRun, callStep_unnamed host blockIndex hlife hname hdelta, hrun, huntil, fragments_cons]
        rfl
      · rw [huntil, fragments_cons]
        exact hpieces
      · rw [huntil, fragments_cons, fragments_cons, argumentsText_append, argumentsText_append, htext,
          List.append_assoc]

/-- **A call whose name arrives**: one start, then pieces; together they carry the arguments received
exactly when no leading value is overwritten. -/
theorem callRun_named (hjson : ∀ v, host.codec.toString v ≠ []) (blockIndex : ℕ)
    (deltas : List ChatCompatToolCallDelta)
    (hnamed : ∃ toolCall ∈ deltas, (deltaName toolCall).isSome = true) :
    ∃ (id name : String) (input : Value) (pieces : List String)
      (state' : PendingChatCompatToolState),
      callRun host blockIndex deltas {} =
          (.start (.toolCall id name input .pending) :: pieces.map .delta, state') ∧
        state'.lifecycle = .opened ∧
        (Carries host.codec input pieces (argumentsText host.codec (fragments deltas)) ↔
          KeepsLeading host.codec (fragments (untilNamed deltas))) := by
  have hfresh : ({} : PendingChatCompatToolState).lifecycle = .discovered := rfl
  obtain ⟨id, name, pieces, later, state', hrun, hopened, hpieces, htext⟩ :=
    callRun_naming host blockIndex deltas hfresh rfl hnamed
  have hholds := collect_leading host hjson hfresh rfl rfl (fragments (untilNamed deltas))
  refine ⟨id, name, _, pieces, state', hrun, hopened, ?_⟩
  rw [htext]
  exact carries_iff_of_holds host hholds hjson hpieces

end Vexcoder.Handoff
