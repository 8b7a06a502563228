import Vexcoder.Task.RunInvariants
import Vexcoder.Task.Snapshot

/-!
# The step ids of a restored document

Each restored turn counts from a thousand times its index, and an invocation moves the count up to its
own id.  So the ids of a turn can run into the numbers of the next one (`overrun_reorders`), and
`continues_restore_iff` says for which snapshots they do not.
-/

namespace Vexcoder.Task

open Base Vexcoder.Runtime

/-- The ids that the invocations of a turn have left on disk, and the number of its entries, leave
room below `bound`: `ids[j]` has one entry behind it for each later invocation. -/
def FitsBelow (turnIndex : ℕ) (ids : List ℕ) (bound : ℕ) : Prop :=
  turnIndex * 1000 + 1 + ids.length < bound ∧ ∀ j (h : j < ids.length), ids[j] + (ids.length - 1 - j) < bound

/-- The step ids of each pulse fit below the number that the next one starts from, and those of the
last one below the largest number. -/
def StepIdsFit (pulses : List TurnEvidenceState) : Prop :=
  ∀ i (h : i < pulses.length),
    FitsBelow i (pulses[i].toolInvocations.map ToolInvocationSummary.stepId)
      (if i + 1 < pulses.length then baseStep (i + 1) else u64Max)

/-- A document that can be continued. -/
structure TaskDocument.Continues (doc : TaskDocument) : Prop where
  increasing : doc.stepIds.Pairwise (· < ·)
  distinct : doc.stepIds.Nodup
  belowNext : ∀ stepId ∈ doc.stepIds, stepId < doc.info.nextStepId
  /-- No call reuses or reorders a step id, as long as the counter does not run out. -/
  later : ∀ ops doc', doc.run ops = some doc' →
    doc.info.nextStepId + (doc'.stepIds.length - doc.stepIds.length) ≤ u64Max →
    doc'.stepIds.Pairwise (· < ·)

/-! ### One turn -/

def entryIds (turnIndex : ℕ) (evidence : TurnEvidenceState) : List ℕ :=
  (entriesFromEvidence turnIndex evidence).map PulseEntry.stepId

def chain (step : ℕ) : List ℕ → List ℕ
  | [] => []
  | id :: ids => max id (saturatingSucc step) :: chain (max id (saturatingSucc step)) ids

theorem stepIds_invocationEntries (step : ℕ) (invocations : List ToolInvocationSummary) :
    (invocationEntries step invocations).map PulseEntry.stepId =
      chain step (invocations.map ToolInvocationSummary.stepId) := by
  induction invocations generalizing step with
  | nil => rfl
  | cons invocation rest ih =>
    rw [invocationEntries, List.map_cons, List.map_cons, ih]
    rfl

theorem chain_below_iff {step bound : ℕ} (hstep : step < bound) (hbound : bound ≤ u64Max) (ids : List ℕ) :
    (∀ stepId ∈ chain step ids, stepId < bound) ↔
      step + ids.length < bound ∧ ∀ j (h : j < ids.length), ids[j] + (ids.length - 1 - j) < bound := by
  induction ids generalizing step with
  | nil => simpa [chain] using hstep
  | cons id ids ih =>
    have hsucc : saturatingSucc step = step + 1 := by
      simp only [saturatingSucc]
      omega
    rw [chain, List.forall_mem_cons, hsucc]
    constructor
    · rintro ⟨hfirst, hrest⟩
      obtain ⟨hlength, hids⟩ := (ih hfirst).mp hrest
      refine ⟨?_, fun j hj => ?_⟩
      · simp only [List.length_cons]
        omega
      · cases j with
        | zero =>
          simp only [List.getElem_cons_zero, List.length_cons]
          omega
        | succ j =>
          have := hids j (Nat.lt_of_succ_lt_succ hj)
          simp only [List.getElem_cons_succ, List.length_cons]
          omega
    · rintro ⟨hlength, hids⟩
      have hid := hids 0 (Nat.zero_lt_succ _)
      simp only [List.getElem_cons_zero, List.length_cons] at hid hlength
      have hfirst : max id (step + 1) < bound := by omega
      refine ⟨hfirst, (ih hfirst).mpr ⟨by omega, fun j hj => ?_⟩⟩
      have := hids (j + 1) (Nat.succ_lt_succ hj)
      simp only [List.getElem_cons_succ, List.length_cons] at this
      omega

/-- Below the largest number the ids count up. -/
theorem chain_increasing {step : ℕ} (hstep : step < u64Max) {ids : List ℕ}
    (h : ∀ stepId ∈ chain step ids, stepId < u64Max) :
    (chain step ids).Pairwise (· < ·) ∧ ∀ stepId ∈ chain step ids, step < stepId := by
  induction ids generalizing step with
  | nil => exact ⟨List.Pairwise.nil, nofun⟩
  | cons id ids ih =>
    obtain ⟨hfirst, hrest⟩ := List.forall_mem_cons.mp h
    have hlt : step < max id (saturatingSucc step) := by
      simp only [saturatingSucc]
      omega
    obtain ⟨hpairs, habove⟩ := ih hfirst hrest
    refine ⟨List.pairwise_cons.mpr ⟨habove, hpairs⟩, List.forall_mem_cons.mpr ⟨hlt, ?_⟩⟩
    intro stepId hmem
    exact hlt.trans (habove stepId hmem)

theorem entryIds_eq (turnIndex : ℕ) (evidence : TurnEvidenceState) :
    entryIds turnIndex evidence =
      baseStep turnIndex ::
        ((if Text.isEmpty evidence.response then [] else [saturatingSucc (baseStep turnIndex)]) ++
          chain (saturatingSucc (baseStep turnIndex))
            (evidence.toolInvocations.map ToolInvocationSummary.stepId)) := by
  rw [entryIds, entriesFromEvidence, ← stepIds_invocationEntries]
  split <;> rfl

theorem base_mem (turnIndex : ℕ) (evidence : TurnEvidenceState) :
    baseStep turnIndex ∈ entryIds turnIndex evidence := by
  exact List.mem_cons_self

theorem entryIds_below_iff {turnIndex bound : ℕ} (evidence : TurnEvidenceState)
    (hbound : bound = baseStep (turnIndex + 1) ∨ bound = u64Max) :
    (∀ stepId ∈ entryIds turnIndex evidence, stepId < bound) ↔
      FitsBelow turnIndex (evidence.toolInvocations.map ToolInvocationSummary.stepId) bound := by
  have hmax : bound ≤ u64Max := by
    simp only [baseStep] at hbound
    omega
  rw [entryIds_eq]
  constructor
  · intro h
    have hbase := h _ List.mem_cons_self
    -- a multiple of a thousand is not the second largest number
    have hstep : turnIndex * 1000 + 1 < bound := by
      simp only [baseStep, u64Max] at hbase hbound
      omega
    have hsucc : saturatingSucc (baseStep turnIndex) = turnIndex * 1000 + 1 := by
      simp only [saturatingSucc, baseStep]
      omega
    rw [hsucc] at h
    refine (chain_below_iff hstep hmax _).mp fun stepId hmem => ?_
    exact h stepId (List.mem_cons_of_mem _ (List.mem_append_right _ hmem))
  · rintro ⟨hlength, hids⟩
    have hstep : turnIndex * 1000 + 1 < bound := lt_of_le_of_lt (Nat.le_add_right _ _) hlength
    have hchain := (chain_below_iff hstep hmax _).mpr ⟨hlength, hids⟩
    have hbase : baseStep turnIndex = turnIndex * 1000 := by
      simp only [baseStep]
      omega
    have hsucc : saturatingSucc (turnIndex * 1000) = turnIndex * 1000 + 1 := by
      simp only [saturatingSucc]
      omega
    rw [hbase, hsucc]
    intro stepId hmem
    rcases List.mem_cons.mp hmem with rfl | hmem
    · exact (Nat.lt_succ_self _).trans hstep
    rcases List.mem_append.mp hmem with hmem | hmem
    · split at hmem
      · exact absurd hmem List.not_mem_nil
      · rw [List.mem_singleton.mp hmem]
        exact hstep
    · exact hchain stepId hmem

theorem entryIds_increasing {turnIndex : ℕ} {evidence : TurnEvidenceState}
    (h : ∀ stepId ∈ entryIds turnIndex evidence, stepId < u64Max) :
    (entryIds turnIndex evidence).Pairwise (· < ·) ∧
      ∀ stepId ∈ entryIds turnIndex evidence, baseStep turnIndex ≤ stepId := by
  have hfits := (entryIds_below_iff evidence (Or.inr rfl)).mp h
  have hsucc : baseStep turnIndex < saturatingSucc (baseStep turnIndex) := by
    have := hfits.1
    simp only [saturatingSucc, baseStep]
    omega
  have hstep : saturatingSucc (baseStep turnIndex) < u64Max := by
    have := hfits.1
    simp only [saturatingSucc, baseStep]
    omega
  rw [entryIds_eq] at h ⊢
  obtain ⟨hpairs, habove⟩ := chain_increasing hstep fun stepId hmem =>
    h stepId (List.mem_cons_of_mem _ (List.mem_append_right _ hmem))
  have hrest : ∀ stepId ∈ (if Text.isEmpty evidence.response then [] else
      [saturatingSucc (baseStep turnIndex)]) ++ chain (saturatingSucc (baseStep turnIndex))
        (evidence.toolInvocations.map ToolInvocationSummary.stepId),
      baseStep turnIndex < stepId := by
    intro stepId hmem
    rcases List.mem_append.mp hmem with hmem | hmem
    · split at hmem
      · exact absurd hmem List.not_mem_nil
      · rw [List.mem_singleton.mp hmem]
        exact hsucc
    · exact hsucc.trans (habove stepId hmem)
  refine ⟨List.pairwise_cons.mpr ⟨hrest, ?_⟩, List.forall_mem_cons.mpr ⟨le_rfl, ?_⟩⟩
  · split
    · exact hpairs
    · exact List.pairwise_cons.mpr ⟨habove, hpairs⟩
  · intro stepId hmem
    exact (hrest stepId hmem).le

/-! ### Continuing a document -/

namespace TaskDocument

theorem counted_add (start count more : ℕ) :
    counted start count ++ counted (min (start + count) u64Max) more = counted start (count + more) := by
  rw [counted, counted, counted, List.range_add, List.map_append, List.map_map]
  congr 1
  refine List.map_congr_left fun i _ => ?_
  show min (min (start + count) u64Max + i) u64Max = min (start + (count + i)) u64Max
  omega

/-- The calls between two documents have added entries with the ids of the counter. -/
def CountsOn (doc doc' : TaskDocument) : Prop :=
  ∃ count, doc'.shapes.map EntryShape.stepId =
      doc.shapes.map EntryShape.stepId ++ counted doc.info.nextStepId count ∧
    doc'.info.nextStepId = min (doc.info.nextStepId + count) u64Max

variable {doc doc' : TaskDocument}

theorem countsOn_same (hnext : doc.info.nextStepId ≤ u64Max) (hshapes : doc'.shapes = doc.shapes)
    (hsame : doc'.info.nextStepId = doc.info.nextStepId) : CountsOn doc doc' := by
  refine ⟨0, ?_, ?_⟩
  · rw [hshapes]
    exact (List.append_nil _).symm
  · rw [hsame]
    exact (Nat.min_eq_left hnext).symm

theorem countsOn_one (hnext : doc.info.nextStepId ≤ u64Max) (shape : EntryShape)
    (hshapes : doc'.shapes = doc.shapes ++ [shape]) (hshape : shape.stepId = doc.info.nextStepId)
    (hsucc : doc'.info.nextStepId = saturatingSucc doc.info.nextStepId) : CountsOn doc doc' := by
  refine ⟨1, ?_, hsucc⟩
  rw [hshapes, List.map_append, List.map_singleton, hshape]
  show _ = _ ++ [min (doc.info.nextStepId + 0) u64Max]
  rw [Nat.add_zero, Nat.min_eq_left hnext]

theorem CountsOn.trans {doc'' : TaskDocument} (h : CountsOn doc doc') (h' : CountsOn doc' doc'') :
    CountsOn doc doc'' := by
  obtain ⟨count, hids, hnext⟩ := h
  obtain ⟨count', hids', hnext'⟩ := h'
  refine ⟨count + count', ?_, ?_⟩
  · rw [hids', hids, hnext, List.append_assoc, counted_add]
  · omega

theorem CountsOn.next_le (h : CountsOn doc doc') : doc'.info.nextStepId ≤ u64Max := by
  obtain ⟨_, _, hnext⟩ := h
  rw [hnext]
  exact Nat.min_le_right _ _

theorem countsOn_turnStep {active : ActiveTurnDocument} (hnext : doc.info.nextStepId ≤ u64Max)
    (hactive : doc.activePulse = some active) (hstep : TurnStep doc active doc') :
    CountsOn doc doc' := by
  obtain ⟨hcompleted, active', hactive', -, hshape⟩ := hstep
  have hshapes := shapes_of_active hactive
  have hshapes' := shapes_of_active hactive'
  rw [hcompleted] at hshapes'
  generalize hentries : active'.entries.map PulseEntry.shape = entries at hshape hshapes'
  generalize hpending : active'.pendingApproval = pending at hshape
  generalize hnext' : doc'.info.nextStepId = next at hshape
  cases hshape with
  | keep => exact countsOn_same hnext (hshapes'.trans hshapes.symm) hnext'
  | append =>
    refine countsOn_one hnext (.plain doc.info.nextStepId) ?_ rfl hnext'
    rw [hshapes', hshapes, List.append_assoc]
  | request approval _ =>
    refine countsOn_one hnext (.request doc.info.nextStepId approval) ?_ rfl hnext'
    rw [hshapes', hshapes, List.append_assoc]
  | resolve =>
    refine countsOn_one hnext (.resolved doc.info.nextStepId) ?_ rfl hnext'
    rw [hshapes', hshapes, List.append_assoc]

theorem countsOn_runOp (hnext : doc.info.nextStepId ≤ u64Max) {op : DocOp}
    (hop : doc.runOp op = some doc') : CountsOn doc doc' := by
  cases op with
  | beginTurn input startedAtMs toolPolicy =>
    rw [runOp, beginTurn] at hop
    split at hop
    · cases hop
    rename_i hopen
    obtain rfl := Option.some.inj hop
    refine countsOn_one hnext (.plain doc.info.nextStepId) ?_ rfl rfl
    rw [shapes_of_active rfl, shapes_of_idle (Option.not_isSome_iff_eq_none.mp hopen)]
    rfl
  | signal now now' signal =>
    obtain rfl := Option.some.inj hop
    cases hactive : doc.activePulse with
    | some active =>
      exact countsOn_turnStep hnext hactive (turnStep_applyRuntimeSignal now now' hactive signal)
    | none =>
      obtain ⟨hcompleted, hidle, hsame⟩ := applyRuntimeSignal_idle now now' hactive signal
      refine countsOn_same hnext ?_ hsame
      rw [shapes_of_idle hidle, shapes_of_idle hactive, hcompleted]
  | finishTurn outcome tokens completedAtMs =>
    obtain rfl := Option.some.inj hop
    cases hactive : doc.activePulse with
    | none =>
      have hsame : (doc.finishTurn outcome tokens completedAtMs).1 = doc := by
        simp only [finishTurn, hactive]
      exact countsOn_same hnext (congrArg shapes hsame) (by rw [hsame])
    | some active =>
      refine countsOn_same hnext (shapes_finishTurn hactive outcome tokens completedAtMs) ?_
      simp only [finishTurn, hactive]

theorem countsOn_run (ops : List DocOp) (hnext : doc.info.nextStepId ≤ u64Max)
    (hrun : doc.run ops = some doc') : CountsOn doc doc' := by
  induction ops generalizing doc with
  | nil =>
    obtain rfl := Option.some.inj hrun
    exact countsOn_same hnext rfl rfl
  | cons op ops ih =>
    obtain ⟨doc₁, hop, hops⟩ := Option.bind_eq_some_iff.mp hrun
    have hfirst := countsOn_runOp hnext hop
    exact hfirst.trans (ih hfirst.next_le hops)

theorem continues_of_increasing (hnext : doc.info.nextStepId ≤ u64Max) (hpairs : doc.stepIds.Pairwise (· < ·))
    (hbelow : ∀ stepId ∈ doc.stepIds, stepId < doc.info.nextStepId) : doc.Continues := by
  refine ⟨hpairs, hpairs.imp Nat.ne_of_lt, hbelow, fun ops doc' hrun hroom => ?_⟩
  obtain ⟨count, hids, -⟩ := countsOn_run ops hnext hrun
  rw [← stepIds_eq, ← stepIds_eq] at hids
  have hlength : doc'.stepIds.length - doc.stepIds.length = count := by
    rw [hids, List.length_append, counted, List.length_map, List.length_range]
    omega
  rw [hlength] at hroom
  rw [hids, counted_eq hroom, List.pairwise_append]
  refine ⟨hpairs, List.pairwise_lt_range', fun a ha b hb => ?_⟩
  exact (hbelow a ha).trans_le (List.mem_range'_1.mp hb).1

end TaskDocument

/-! ### The restored document -/

variable {pulses : List TurnEvidenceState} (snapshot : TaskState)

theorem stepIds_turns :
    (restoreFromSnapshot snapshot).doc.stepIds =
      ((restoreFromSnapshot snapshot).doc.completedTurns.flatMap TurnDocument.entries).map
        PulseEntry.stepId := by
  show (_ ++ []).map PulseEntry.stepId = _
  rw [List.append_nil]

theorem stepIds_restore :
    (restoreFromSnapshot snapshot).doc.stepIds = (snapshot.pulses.mapIdx entryIds).flatten := by
  rw [stepIds_turns, List.map_flatMap, List.flatMap_def]
  simp only [restoreFromSnapshot, List.mapIdx_eq_zipIdx_map, List.map_map]
  rfl

theorem nextStepId_restore :
    (restoreFromSnapshot snapshot).doc.info.nextStepId =
      saturatingSucc ((restoreFromSnapshot snapshot).doc.stepIds.max?.getD 0) := by
  rw [stepIds_turns]
  rfl

theorem below_of_fit (hfit : StepIdsFit pulses) {i : ℕ} (h : i < pulses.length) :
    ∀ stepId ∈ entryIds i pulses[i], stepId < if i + 1 < pulses.length then baseStep (i + 1) else u64Max := by
  refine (entryIds_below_iff _ ?_).mpr (hfit i h)
  split
  · exact Or.inl rfl
  · exact Or.inr rfl

theorem belowMax_of_fit (hfit : StepIdsFit pulses) {i : ℕ} (h : i < pulses.length) :
    ∀ stepId ∈ entryIds i pulses[i], stepId < u64Max := by
  intro stepId hmem
  refine (below_of_fit hfit h stepId hmem).trans_le ?_
  split
  · exact Nat.min_le_right _ _
  · exact le_rfl

theorem increasing_of_fit (hfit : StepIdsFit pulses) : (pulses.mapIdx entryIds).flatten.Pairwise (· < ·) := by
  rw [List.pairwise_flatten]
  constructor
  · intro ids hids
    obtain ⟨i, h, rfl⟩ := List.mem_mapIdx.mp hids
    exact (entryIds_increasing (belowMax_of_fit hfit h)).1
  · rw [List.pairwise_iff_getElem]
    intro i j hi hj hij stepId hmem stepId' hmem'
    rw [List.length_mapIdx] at hi hj
    rw [List.getElem_mapIdx] at hmem hmem'
    have hlt := below_of_fit hfit hi stepId hmem
    rw [if_pos (by omega)] at hlt
    have hle : baseStep (i + 1) ≤ baseStep j := by
      simp only [baseStep]
      omega
    exact hlt.trans_le (hle.trans ((entryIds_increasing (belowMax_of_fit hfit hj)).2 stepId' hmem'))

theorem fit_of_increasing (hpairs : (pulses.mapIdx entryIds).flatten.Pairwise (· < ·))
    (hmax : ∀ stepId ∈ (pulses.mapIdx entryIds).flatten, stepId < u64Max) : StepIdsFit pulses := by
  intro i h
  have hmem : ∀ j (hj : j < pulses.length), entryIds j pulses[j] ∈ pulses.mapIdx entryIds :=
    fun j hj => List.mem_mapIdx.mpr ⟨j, hj, rfl⟩
  split
  · rename_i hlast
    refine (entryIds_below_iff _ (Or.inl rfl)).mp fun stepId hstepId => ?_
    have hturns := (List.pairwise_flatten.mp hpairs).2
    rw [List.pairwise_iff_getElem] at hturns
    have := hturns i (i + 1) (by rw [List.length_mapIdx]; exact h)
      (by rw [List.length_mapIdx]; exact hlast) (Nat.lt_succ_self i)
    rw [List.getElem_mapIdx, List.getElem_mapIdx] at this
    exact this stepId hstepId _ (base_mem _ _)
  · refine (entryIds_below_iff _ (Or.inr rfl)).mp fun stepId hstepId => ?_
    exact hmax stepId (List.mem_flatten.mpr ⟨_, hmem i h, hstepId⟩)

/-- **Restored step ids**: the restored document can be continued exactly when the ids that each
pulse has left on disk fit below the number the next pulse starts from. -/
theorem continues_restore_iff (snapshot : TaskState) :
    (restoreFromSnapshot snapshot).doc.Continues ↔ StepIdsFit snapshot.pulses := by
  have hle := saturatingSucc_le ((restoreFromSnapshot snapshot).doc.stepIds.max?.getD 0)
  rw [← nextStepId_restore] at hle
  constructor
  · intro h
    refine fit_of_increasing ?_ fun stepId hmem => ?_
    · rw [← stepIds_restore]
      exact h.increasing
    · rw [← stepIds_restore] at hmem
      exact (h.belowNext stepId hmem).trans_le hle
  · intro h
    have hpairs := increasing_of_fit h
    rw [← stepIds_restore] at hpairs
    refine TaskDocument.continues_of_increasing hle hpairs fun stepId hmem => ?_
    have hmax : ∀ a ∈ (restoreFromSnapshot snapshot).doc.stepIds, a < u64Max := by
      intro a ha
      rw [stepIds_restore] at ha
      obtain ⟨ids, hids, ha⟩ := List.mem_flatten.mp ha
      obtain ⟨i, hi, rfl⟩ := List.mem_mapIdx.mp hids
      exact belowMax_of_fit h hi a ha
    rw [nextStepId_restore]
    have hfirst := List.le_max?_getD_of_mem (k := 0) hmem
    have hlast : (restoreFromSnapshot snapshot).doc.stepIds.max?.getD 0 < u64Max := by
      cases hlargest : (restoreFromSnapshot snapshot).doc.stepIds.max? with
      | none => exact Nat.lt_of_le_of_lt (Nat.zero_le _) (hmax stepId hmem)
      | some largest => exact hmax largest (List.max?_mem hlargest)
    simp only [saturatingSucc]
    omega

def overrunPulses : List TurnEvidenceState :=
  [{ input := "a", response := "b", toolInvocations := [⟨1500, "read_file", "ok"⟩] },
    { input := "c", response := "d" }]

/-- Loading keeps the ids of the two pulses, and the restored entries are not in order: the second
turn starts behind the call of the first one. -/
theorem overrun_reorders :
    normalizeToolInvocationStepIds overrunPulses = some overrunPulses ∧
      (restoreFromSnapshot { id := "t", pulses := overrunPulses }).doc.stepIds =
        [0, 1, 1500, 1000, 1001] ∧
      ¬ (restoreFromSnapshot { id := "t", pulses := overrunPulses }).doc.Continues := by
  have hids : (restoreFromSnapshot { id := "t", pulses := overrunPulses }).doc.stepIds =
      [0, 1, 1500, 1000, 1001] := by decide +kernel
  refine ⟨by decide +kernel, hids, fun h => ?_⟩
  have hpairs := h.increasing
  rw [hids] at hpairs
  revert hpairs
  decide

end Vexcoder.Task
