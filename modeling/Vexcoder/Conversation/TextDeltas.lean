import Vexcoder.Conversation.Lifecycle

/-!
# The text of a block

What becomes of the deltas of a block: in the task document, in what the user interface is shown of
the block, and in the text of the round.  All three take in the same increments; an increment is less
than its delta when the delta and the text so far are comparable as prefixes.
-/

namespace Vexcoder.Conversation

open Base Lib Lib.Assoc Lib.Emitter Vexcoder.Runtime Vexcoder.Task

/-! ### Increments -/

/-- What a delta adds to a block with this content; without a block it opens one. -/
def increment (content : Option String) (delta : String) : String :=
  match content with
  | none => delta
  | some content => boundedIncrementalSuffix content delta

def extend (content : Option String) (delta : String) : String :=
  content.getD "" ++ increment content delta

def increments : Option String → List String → List String
  | _, [] => []
  | content, delta :: deltas => increment content delta :: increments (some (extend content delta)) deltas

/-- The delta neither continues nor repeats a text that is there. -/
def Fresh (content : Option String) (delta : String) : Prop :=
  delta = "" ∨ content.getD "" = "" ∨
    (¬ (content.getD "").toList <+: delta.toList ∧ ¬ delta.toList <+: (content.getD "").toList)

def AllFresh : Option String → List String → Prop
  | _, [] => True
  | content, delta :: deltas => Fresh content delta ∧ AllFresh (some (content.getD "" ++ delta)) deltas

theorem boundedIncrementalSuffix_cases (content delta : String) :
    (Fresh (some content) delta ∧ boundedIncrementalSuffix content delta = delta) ∨
      (¬ Fresh (some content) delta ∧
        (boundedIncrementalSuffix content delta).toList.length < delta.toList.length) := by
  have hempty : ∀ s : String, s = "" ↔ s.toList = [] := fun s => by simp
  unfold boundedIncrementalSuffix Fresh
  dsimp only [Option.getD_some]
  rw [hempty delta, hempty content]
  split
  · rename_i hdelta
    have hnil : delta.toList = [] := List.isEmpty_iff.mp hdelta
    exact Or.inl ⟨Or.inl hnil, ((hempty delta).mpr hnil).symm⟩
  · rename_i hdelta
    have hne : delta.toList ≠ [] := fun h => hdelta (List.isEmpty_iff.mpr h)
    split
    · rename_i hlonger
      rw [Bool.and_eq_true, decide_eq_true_iff, List.isPrefixOf_iff_prefix] at hlonger
      obtain ⟨hlt, hpre⟩ := hlonger
      by_cases hcontent : content.toList = []
      · exact Or.inl ⟨Or.inr (Or.inl hcontent), by simp [hcontent]⟩
      refine Or.inr ⟨fun hfresh => ?_, ?_⟩
      · exact (hfresh.resolve_left hne).elim hcontent fun hand => hand.1 hpre
      · have := List.length_pos_of_ne_nil hcontent
        rw [String.toList_ofList, List.length_drop]
        omega
    · rename_i hlonger
      split
      · rename_i hshorter
        rw [Bool.and_eq_true, decide_eq_true_iff, List.isPrefixOf_iff_prefix] at hshorter
        obtain ⟨hle, hpre⟩ := hshorter
        have hpos := List.length_pos_of_ne_nil hne
        refine Or.inr ⟨fun hfresh => ?_, hpos⟩
        refine (hfresh.resolve_left hne).elim (fun hcontent => ?_) fun hand => hand.2 hpre
        rw [hcontent] at hle
        exact absurd hle (Nat.not_le.mpr hpos)
      · rename_i hshorter
        rw [Bool.and_eq_true, decide_eq_true_iff, List.isPrefixOf_iff_prefix] at hlonger hshorter
        refine Or.inl ⟨Or.inr (Or.inr ⟨fun hpre => ?_, fun hpre => ?_⟩), rfl⟩
        · rcases Nat.lt_or_ge content.toList.length delta.toList.length with hlt | hge
          · exact hlonger ⟨hlt, hpre⟩
          · rw [hpre.eq_of_length_le hge] at hshorter
            exact hshorter ⟨Nat.le_refl _, List.prefix_rfl⟩
        · exact hshorter ⟨hpre.length_le, hpre⟩

variable {m : ConversationManager} (content : Option String) (index : ℕ)

theorem increment_cases (delta : String) :
    (Fresh content delta ∧ increment content delta = delta) ∨
      (¬ Fresh content delta ∧ (increment content delta).toList.length < delta.toList.length) := by
  cases content with
  | none => exact Or.inl ⟨Or.inr (Or.inl rfl), rfl⟩
  | some content => exact boundedIncrementalSuffix_cases content delta

theorem length_increment (delta : String) :
    (increment content delta).toList.length ≤ delta.toList.length := by
  rcases increment_cases content delta with ⟨-, heq⟩ | ⟨-, hlt⟩
  · exact Nat.le_of_eq (by rw [heq])
  · exact Nat.le_of_lt hlt

theorem length_increments (deltas : List String) :
    (String.join (increments content deltas)).toList.length ≤ (String.join deltas).toList.length := by
  induction deltas generalizing content with
  | nil => exact Nat.le_refl _
  | cons delta deltas ih =>
    simp only [increments, String.join_cons, String.toList_append, List.length_append]
    exact Nat.add_le_add (length_increment content delta) (ih _)

/-- The increments are the deltas as long as each delta is fresh. -/
theorem join_increments_eq_iff (deltas : List String) :
    String.join (increments content deltas) = String.join deltas ↔ AllFresh content deltas := by
  induction deltas generalizing content with
  | nil => exact ⟨fun _ => trivial, fun _ => rfl⟩
  | cons delta deltas ih =>
    simp only [increments, String.join_cons, AllFresh]
    rcases increment_cases content delta with ⟨hfresh, heq⟩ | ⟨hnot, hlt⟩
    · have hextend : extend content delta = content.getD "" ++ delta := by rw [extend, heq]
      rw [heq, hextend, String.append_right_inj, ih]
      exact ⟨fun h => ⟨hfresh, h⟩, fun h => h.2⟩
    · refine ⟨fun h => absurd (congrArg (fun s => s.toList.length) h) ?_, fun h => absurd h.1 hnot⟩
      have := length_increments (some (extend content delta)) deltas
      simp only [String.toList_append, List.length_append]
      omega

/-! ### The block in the task document -/

def blockContent (index : ℕ) (m : ConversationManager) : Option String :=
  (lastBlock? index m.activeEntries).map (·.content)

theorem lastBlock?_snoc (entries : List PulseEntry) (stepId : ℕ) (block : AssistantBlockEntry) :
    lastBlock? index (entries ++ [.assistantBlock stepId block]) =
      if block.blockIndex = index then some block else lastBlock? index entries := by
  unfold lastBlock?
  rw [List.reverse_append, List.reverse_singleton, List.singleton_append, List.findSome?_cons]
  by_cases h : block.blockIndex = index
  · simp only [if_pos h]
  · simp only [if_neg h]

theorem findSome?_updateFirst {α β : Type} {f : α → Option α} {g : α → Option β} {mutate : β → β}
    (hnone : ∀ a, f a = none → g a = none)
    (hsome : ∀ a a', f a = some a' → ∃ b, g a = some b ∧ g a' = some (mutate b)) (l : List α) :
    (updateFirst f l).findSome? g = (l.findSome? g).map mutate := by
  induction l with
  | nil => rfl
  | cons a l ih =>
    unfold updateFirst
    cases hf : f a with
    | none =>
      rw [List.findSome?_cons, List.findSome?_cons, hnone a hf]
      exact ih
    | some a' =>
      obtain ⟨b, hb, hb'⟩ := hsome a a' hf
      rw [List.findSome?_cons, List.findSome?_cons, hb, hb']
      rfl

theorem lastBlock?_updateBlockContent (mutate : AssistantBlockEntry → AssistantBlockEntry)
    (hindex : ∀ block, (mutate block).blockIndex = block.blockIndex) (active : ActiveTurnDocument) :
    lastBlock? index (updateBlockContent index mutate active).entries =
      (lastBlock? index active.entries).map mutate := by
  unfold lastBlock? updateBlockContent
  rw [List.reverse_reverse]
  refine findSome?_updateFirst (fun entry h => ?_) (fun entry entry' h => ?_) _
  · cases entry with
    | assistantBlock stepId block =>
      by_cases hblock : block.blockIndex = index
      · simp [hblock] at h
      · simp [hblock]
    | _ => rfl
  · cases entry with
    | assistantBlock stepId block =>
      by_cases hblock : block.blockIndex = index
      · simp only [hblock, if_true, Option.some.injEq] at h
        subst h
        exact ⟨block, by simp [hblock], by simp [hindex, hblock]⟩
      · simp [hblock] at h
    | _ => cases h

/-! ### What is written of a block -/

/-- A turn is open, and its block with the index has this content. -/
def AtContent (index : ℕ) (content : Option String) (m : ConversationManager) : Prop :=
  m.activePulse.isSome = true ∧ blockContent index m = content

def Report.shownText (index : ℕ) : Report → String
  | .update (.blockStart i (.thinking text _)) | .update (.blockStart i (.finalText text))
  | .update (.blockDelta i text) => if i = index then text else ""
  | _ => ""

def shownText (index : ℕ) (reports : List Report) : String :=
  String.join (reports.map (Report.shownText index))

theorem shownText_append (reports reports' : List Report) :
    shownText index (reports ++ reports') = shownText index reports ++ shownText index reports' := by
  rw [shownText, List.map_append, String.join_append]
  rfl

/-- From a block with the one content `x` leads to the other, shows `text` of the block and returns
`a`. -/
def Writes {α : Type} (index : ℕ) (content : Option String)
    (x : Emitter ConversationManager Report α) (a : α) (text : String) (content' : Option String) :
    Prop :=
  Yields (AtContent index content) x fun b reports m =>
    b = a ∧ shownText index reports = text ∧ AtContent index content' m

section Writes

variable {α β : Type} {index : ℕ} {content content' content'' : Option String} {a : α} {b : β}
  {text text' : String} {x : Emitter ConversationManager Report α}
  {f : α → Emitter ConversationManager Report β}

theorem Writes.pure : Writes index content (pure a) a "" content :=
  Yields.pure fun _ h => ⟨rfl, rfl, h⟩

theorem Writes.bind (hx : Writes index content x a text content')
    (hf : Writes index content' (f a) b text' content'') :
    Writes index content (x >>= f) b (text ++ text') content'' := by
  intro m hm
  obtain ⟨a', out, m₁, hrun, rfl, rfl, hm₁⟩ := hx m hm
  obtain ⟨b', out', m₂, hrun', rfl, rfl, hm₂⟩ := hf m₁ hm₁
  refine ⟨b', out ++ out', m₂, ?_, rfl, shownText_append index out out', hm₂⟩
  rw [bind_of_some hrun, hrun', prepend_some]

theorem Writes.behind (hx : Writes index content x a "" content')
    (hf : Writes index content' (f a) b text content'') :
    Writes index content (x >>= f) b text content'' := by
  have h := hx.bind hf
  rwa [String.empty_append] at h

theorem Writes.read {f : ConversationManager → Emitter ConversationManager Report β}
    (h : ∀ m, AtContent index content m → Writes index content (f m) b text content') :
    Writes index content (Emitter.read >>= f) b text content' :=
  Yields.read (fun _ hm => hm) h

theorem Writes.modify {f : ConversationManager → ConversationManager}
    (h : ∀ m, (f m).taskDoc = m.taskDoc) : Writes index content (modify f) () "" content := by
  refine Yields.modify fun m hm => ⟨rfl, rfl, ?_⟩
  unfold AtContent blockContent ConversationManager.activeEntries ConversationManager.activePulse at hm ⊢
  rwa [h]

theorem Writes.emit {u : ConversationStreamUpdate} (h : Report.shownText index (.update u) = text) :
    Writes index content (emitStreamUpdate u) () text content := by
  refine Yields.emit fun m hm => ⟨rfl, ?_, hm⟩
  rw [shownText, List.map_singleton, h]
  simp

theorem Writes.forEach {bs : List β} {f : β → Emitter ConversationManager Report Unit}
    (h : ∀ b ∈ bs, Writes index content (f b) () "" content) :
    Writes index content (forEach bs f) () "" content := by
  induction bs with
  | nil => exact Writes.pure
  | cons b bs ih =>
    exact (h b List.mem_cons_self).behind (ih fun b' hb' => h b' (List.mem_cons_of_mem _ hb'))

theorem Writes.onlyIf {c : Bool} {x : Emitter ConversationManager Report Unit}
    (h : Writes index content x () "" content) :
    Writes index content (onlyIf c x) () "" content := by
  cases c with
  | false => exact Writes.pure
  | true => exact h

end Writes

/-! ### The steps of a delta -/

variable (env : Environment)

theorem applyDocDelta_active {active : ActiveTurnDocument} (hactive : m.activePulse = some active)
    (signal : RuntimeSignal)
    (htask : ∀ doc summary, TaskDocument.applyToTask signal doc summary = (doc, summary)) :
    ∃ doc m', m.taskDoc = some doc ∧ applyDocDelta env signal m = some ((), [], m') ∧
      m'.activePulse = (doc.applyToActive (env.clock m.clockReads) active signal).1.activePulse := by
  obtain ⟨doc, hdoc, hpulse⟩ := Option.bind_eq_some_iff.mp hactive
  refine ⟨doc, _, hdoc, applyDocDelta_run_some env hdoc signal, ?_⟩
  simp only [ConversationManager.activePulse, Option.bind_some, TaskDocument.applyRuntimeSignal, hpulse]
  generalize doc.applyToActive (env.clock m.clockReads) active signal = r
  obtain ⟨doc', summary, returned⟩ := r
  cases returned with
  | true => rfl
  | false => simp only [htask, Bool.false_eq_true, if_false]

theorem blockContent_of_active {active : ActiveTurnDocument} (h : m.activePulse = some active)
    (index : ℕ) : blockContent index m = (lastBlock? index active.entries).map (·.content) := by
  rw [blockContent, ConversationManager.activeEntries, h]

variable (index : ℕ) (content : Option String)

theorem writes_blockStart (i : ℕ) (text : String) (collapsed : Bool) :
    Writes index content (applyDocDelta env (.transcriptBlockStart i (.thinking text collapsed))) () ""
      (if i = index then some text else content) := by
  intro m hm
  obtain ⟨hopen, hcontent⟩ := hm
  obtain ⟨active, hactive⟩ := Option.isSome_iff_exists.mp hopen
  obtain ⟨doc, m', -, hrun, hpulse⟩ := applyDocDelta_active env hactive
    (.transcriptBlockStart i (.thinking text collapsed)) fun _ _ => rfl
  refine ⟨(), [], m', hrun, rfl, rfl, by rw [hpulse]; rfl, ?_⟩
  rw [blockContent_of_active hpulse]
  rw [lastBlock?_snoc]
  by_cases hi : i = index
  · rw [if_pos hi, if_pos hi]
    rfl
  · rw [if_neg hi, if_neg hi, ← blockContent_of_active hactive]
    exact hcontent

theorem writes_blockDelta (content delta : String) :
    Writes index (some content) (applyDocDelta env (.transcriptBlockDelta index delta)) () ""
      (some (content ++ delta)) := by
  intro m hm
  obtain ⟨hopen, hcontent⟩ := hm
  obtain ⟨active, hactive⟩ := Option.isSome_iff_exists.mp hopen
  obtain ⟨doc, m', -, hrun, hpulse⟩ := applyDocDelta_active env hactive
    (.transcriptBlockDelta index delta) fun _ _ => rfl
  refine ⟨(), [], m', hrun, rfl, rfl, by rw [hpulse]; rfl, ?_⟩
  rw [blockContent_of_active hpulse]
  rw [lastBlock?_updateBlockContent index (fun block => { block with content := block.content ++ delta })
    (fun _ => rfl), Option.map_map]
  rw [blockContent_of_active hactive] at hcontent
  obtain ⟨block, hblock, hblockContent⟩ := Option.map_eq_some_iff.mp hcontent
  rw [hblock, Option.map_some, Function.comp_apply, hblockContent]

theorem writes_padBlock {index padIndex : ℕ} (hpad : padIndex ≠ index) (content : Option String) :
    Writes index content (padBlock env padIndex) () "" content := by
  have hstart := writes_blockStart env index content padIndex "" true
  rw [if_neg hpad] at hstart
  refine hstart.behind (Writes.behind (Writes.modify fun _ => rfl) (Writes.emit ?_))
  exact if_neg hpad

/-- The placeholders in front of a block have smaller indices. -/
theorem writes_emitStreamBlockStartUpdate (text : String) (collapsed : Bool) :
    Writes index content (emitStreamBlockStartUpdate env index (.thinking text collapsed)) () text
      content := by
  refine Writes.read fun m _ => ?_
  refine Writes.behind (a := ()) ?_ (Writes.behind (Writes.modify fun _ => rfl) (Writes.emit (if_pos rfl)))
  refine Writes.onlyIf (Writes.forEach fun padIndex hmem => writes_padBlock env ?_ content)
  rw [List.mem_range'] at hmem
  omega

/-- **One delta**: task document, user interface and text of the round take in the same increment. -/
theorem writes_appendTextDelta (delta : String) :
    Writes index content (appendTextDelta env index delta) (increment content delta)
      (increment content delta) (some (extend content delta)) := by
  refine Writes.read fun m hm => ?_
  obtain ⟨-, hcontent⟩ := hm
  unfold blockContent at hcontent
  cases hblock : lastBlock? index m.activeEntries with
  | none =>
    rw [hblock, Option.map_none] at hcontent
    subst hcontent
    have hstart := writes_blockStart env index none index delta false
    rw [if_pos rfl] at hstart
    have hupsert : Writes index none (upsertTurnBlock env index (.thinking delta false)) () delta
        (some delta) := by
      refine Writes.behind (a := ()) hstart ?_
      exact writes_emitStreamBlockStartUpdate env index (some delta) delta false
    have h := hupsert.bind (f := fun _ => Pure.pure delta) Writes.pure
    rw [String.append_empty] at h
    have hextend : extend none delta = delta := by rw [extend, increment]; simp
    rw [hextend]
    exact h
  | some block =>
    rw [hblock, Option.map_some] at hcontent
    subst hcontent
    dsimp only [increment, extend, Option.getD_some]
    split
    · rename_i hempty
      have hnil : boundedIncrementalSuffix block.content delta = "" := by
        rw [Text.isEmpty, List.isEmpty_iff] at hempty
        simpa using hempty
      rw [hnil, String.append_empty]
      exact Writes.pure
    · refine Writes.behind (a := ()) (writes_blockDelta env index block.content _) ?_
      have hshown : Writes index
          (some (block.content ++ boundedIncrementalSuffix block.content delta))
          (emitStreamUpdate (.blockDelta index (boundedIncrementalSuffix block.content delta))) ()
          (boundedIncrementalSuffix block.content delta) _ := Writes.emit (if_pos rfl)
      have h := hshown.bind (f := fun _ => Pure.pure (boundedIncrementalSuffix block.content delta))
        Writes.pure
      rw [String.append_empty] at h
      exact h

/-! ### Runs -/

/-- The deltas of a block, as the stream delivers them. -/
def deltaEvents (index : ℕ) (deltas : List String) : List Event :=
  deltas.map fun delta => .signal (.transcriptBlockDelta index delta)

theorem receiveBlockDelta_run {index : ℕ} {r : RoundState} (hcall : find? index r.blockToolCallIds = none)
    {m : ConversationManager} {content : Option String} (hm : AtContent index content m)
    (t : TurnState) (delta : String) :
    ∃ reports m', advance env (.streaming t r) (.signal (.transcriptBlockDelta index delta)) m =
        some (.streaming t { r with assistantText := r.assistantText ++ increment content delta },
          reports, m') ∧
      shownText index reports = increment content delta ∧
      AtContent index (some (extend content delta)) m' := by
  obtain ⟨added, reports, m', hrun, rfl, hshown, hm'⟩ := writes_appendTextDelta env index content delta m hm
  refine ⟨reports, m', ?_, hshown, hm'⟩
  simp only [advance, receiveSignal, receiveBlockDelta, hcall, Option.isSome_none, Bool.false_eq_true,
    if_false, bind_run, hrun, pure_run, prepend_some, List.append_nil]

theorem deltaEvents_run {index : ℕ} {t : TurnState} {r : RoundState}
    (hcall : find? index r.blockToolCallIds = none) (deltas : List String) {content : Option String}
    (hm : AtContent index content m) :
    ∃ reports m', run env (deltaEvents index deltas) { manager := m, phase := .streaming t r } =
        some ((), reports, {
          manager := m'
          phase := .streaming t
            { r with assistantText := r.assistantText ++ String.join (increments content deltas) } }) ∧
      shownText index reports = String.join (increments content deltas) ∧
      (blockContent index m').getD "" = content.getD "" ++ String.join (increments content deltas) := by
  induction deltas generalizing m r content with
  | nil =>
    refine ⟨[], m, ?_, rfl, ?_⟩
    · simp only [increments, String.join_nil, String.append_empty]
      rfl
    · rw [hm.2, increments, String.join_nil, String.append_empty]
  | cons delta deltas ih =>
    obtain ⟨reports, m₁, hadvance, hshown, hm₁⟩ := receiveBlockDelta_run env hcall hm t delta
    obtain ⟨reports', m', hrun, hshown', hcontent'⟩ :=
      ih (r := { r with assistantText := r.assistantText ++ increment content delta }) hcall hm₁
    refine ⟨reports ++ reports', m', ?_, ?_, ?_⟩
    · unfold run deltaEvents at hrun ⊢
      rw [List.map_cons, forEach]
      rw [bind_of_some (step_of_some env (c := { manager := m, phase := .streaming t r }) hadvance),
        hrun, prepend_some]
      simp only [increments, String.join_cons, String.append_assoc]
    · rw [shownText_append, hshown, hshown', increments, String.join_cons]
    · rw [hcontent', increments, String.join_cons, Option.getD_some, extend, String.append_assoc]

def missingEvidence (t : TurnState) : Bool :=
  env.client.isLocalEndpoint && t.requiresToolEvidence && !t.sawAnyToolRound

theorem endRound_returns {t : TurnState} {r : RoundState} (hcalls : r.openCalls = [])
    (hevidence : missingEvidence env t = false) :
    Outputs (.returned (.ok r.assistantText)) (endRound env t r) := by
  have hverdict : roundVerdict env (t.countRound env []) [] r.assistantText = .proceed := rfl
  have hcount : (env.client.isLocalEndpoint && (t.countRound env []).requiresToolEvidence &&
      !(t.countRound env []).sawAnyToolRound) = false := hevidence
  unfold endRound
  rw [hcalls]
  dsimp only
  rw [hverdict]
  refine Outputs.later fun _ => ?_
  rw [List.isEmpty_nil, if_pos rfl]
  unfold endWithoutCalls
  dsimp only [TurnState.requiresToolEvidence] at hcount ⊢
  rw [hcount]
  refine Outputs.later fun _ => Outputs.later fun _ => ?_
  exact Outputs.later fun _ => Outputs.first Outputs.emit

/-- What has become of the deltas of a block between `c` and `c'`: its content in the task document,
what the user interface has been shown of it, and the text that the call returns when the round has
no calls, have all grown by `text`. -/
structure TakenIn (index : ℕ) (text : String) (c c' : Machine) (reports : List Report) : Prop where
  document : (blockContent index c'.manager).getD "" =
    (blockContent index c.manager).getD "" ++ text
  shown : shownText index reports = text
  returned : ∀ t r, c.phase = .streaming t r → r.openCalls = [] → missingEvidence env t = false →
    ∀ reports' c'', run env [.streamEnded, .tick] c' = some ((), reports', c'') →
      .returned (.ok (r.assistantText ++ text)) ∈ reports'

/-- **Text fidelity**: from every state in which a stream is being received, the deltas of a block
without a call go into the task document, the user interface and the returned text as the same
increments, and these are the deltas as long as each delta is fresh: it is empty, or the block is, or
neither of delta and content is a prefix of the other. -/
theorem deltas_takenIn (past : List Event) (pastReports : List Report) (c : Machine)
    (hpast : run env past {} = some ((), pastReports, c)) (t : TurnState) (r : RoundState)
    (hphase : c.phase = .streaming t r) (index : ℕ) (hcall : find? index r.blockToolCallIds = none)
    (deltas : List String) :
    ∃ reports c', run env (deltaEvents index deltas) c = some ((), reports, c') ∧
      TakenIn env index (String.join (increments (blockContent index c.manager) deltas)) c c'
        reports ∧
      (String.join (increments (blockContent index c.manager) deltas) = String.join deltas ↔
        AllFresh (blockContent index c.manager) deltas) := by
  have hopen : c.manager.activePulse.isSome = true := by
    rcases callOpen_run env hpast with hidle | ⟨begun, active, hactive, -⟩
    · rw [hidle] at hphase
      cases hphase
    · rw [hactive]
      rfl
  obtain ⟨m, phase⟩ := c
  obtain rfl : phase = .streaming t r := hphase
  have hm : AtContent index (blockContent index m) m := ⟨hopen, rfl⟩
  obtain ⟨reports, m', hrun, hshown, hcontent⟩ := deltaEvents_run env (t := t) hcall deltas hm
  refine ⟨reports, _, hrun, ⟨hcontent, hshown, ?_⟩, join_increments_eq_iff _ deltas⟩
  intro t' r' hphase' hcalls hevidence reports' c'' hend
  obtain ⟨rfl, rfl⟩ : t = t' ∧ r = r' := by simpa using hphase'
  obtain ⟨⟨⟩, out₁, c₁, out₂, hended, hrest, rfl⟩ := bind_eq_some hend
  obtain ⟨⟨⟩, out₃, c₃, out₄, hround, -, rfl⟩ := bind_eq_some hrest
  refine List.mem_append_right _ (List.mem_append_left _ ?_)
  have hphase₁ := advance_of_step env hended
  simp only [advance, pure_run, Option.some.injEq, Prod.mk.injEq] at hphase₁
  have hround' := advance_of_step env hround
  rw [← hphase₁.1] at hround'
  exact endRound_returns env (r := { r with
    assistantText := r.assistantText ++ String.join (increments (blockContent index m) deltas) })
    hcalls hevidence _ _ _ _ hround'

def openedBlock : List Event :=
  sampleRequest "hi" ++ [.streamOpened, .signal (.transcriptBlockStart 0 (.thinking "" false))]

theorem deltas_takenIn_sample :
    ∃ pastReports c reports c', run sampleEnvironment openedBlock {} = some ((), pastReports, c) ∧
      run sampleEnvironment (deltaEvents 0 ["ha", "!"]) c = some ((), reports, c') ∧
      TakenIn sampleEnvironment 0 "ha!" c c' reports := by
  have h : ((run sampleEnvironment openedBlock {}).any fun result =>
      match result.2.2.phase with
      | .streaming _ r => find? 0 r.blockToolCallIds == none &&
          blockContent 0 result.2.2.manager == some ""
      | _ => false) = true := by decide +kernel
  obtain ⟨⟨⟨⟩, pastReports, c⟩, hpast, hstreaming⟩ := (Option.any_eq_true _ _).mp h
  cases hphase : c.phase with
  | streaming t r =>
    rw [hphase, Bool.and_eq_true, beq_iff_eq, beq_iff_eq] at hstreaming
    obtain ⟨reports, c', hrun, htaken, -⟩ := deltas_takenIn sampleEnvironment openedBlock pastReports c
      hpast t r hphase 0 hstreaming.1 ["ha", "!"]
    have hincrements : String.join (increments (some "") ["ha", "!"]) = "ha!" := by decide +kernel
    rw [hstreaming.2, hincrements] at htaken
    exact ⟨pastReports, c, reports, c', hpast, hrun, htaken⟩
  | _ => rw [hphase] at hstreaming; cases hstreaming

/-- A word that the provider repeats is taken for what is there already, in all three places. -/
theorem repeated_delta_is_dropped :
    ∃ reports c t r, run sampleEnvironment (openedBlock ++ deltaEvents 0 ["ha", "ha"]) {} =
        some ((), reports, c) ∧ c.phase = .streaming t r ∧
      blockContent 0 c.manager ≠ some (String.join ["ha", "ha"]) ∧
      shownText 0 reports ≠ String.join ["ha", "ha"] ∧
      r.assistantText ≠ String.join ["ha", "ha"] := by
  have h : ((run sampleEnvironment (openedBlock ++ deltaEvents 0 ["ha", "ha"]) {}).any fun result =>
      match result.2.2.phase with
      | .streaming _ r => blockContent 0 result.2.2.manager == some "ha" &&
          (shownText 0 result.2.1 == "ha" && r.assistantText == "ha")
      | _ => false) = true := by decide +kernel
  obtain ⟨⟨⟨⟩, reports, c⟩, hrun, hstreaming⟩ := (Option.any_eq_true _ _).mp h
  have hlost : "ha" ≠ String.join ["ha", "ha"] := by decide
  cases hphase : c.phase with
  | streaming t r =>
    rw [hphase, Bool.and_eq_true, Bool.and_eq_true, beq_iff_eq, beq_iff_eq, beq_iff_eq] at hstreaming
    obtain ⟨hcontent, hshown, htext⟩ := hstreaming
    refine ⟨reports, c, t, r, hrun, hphase, ?_, by rwa [hshown], by rwa [htext]⟩
    rw [hcontent]
    exact fun heq => hlost (Option.some.inj heq)
  | _ => rw [hphase] at hstreaming; cases hstreaming

end Vexcoder.Conversation
