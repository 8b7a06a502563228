import Mathlib.Data.Prod.Lex
import Vexcoder.Subtask.JoinIndex
import Vexcoder.Task.Snapshot
import Vexcoder.Tools.Paths

/-!
# The working set of a task

The record that is kept beside the state of a task.  `write_working_set` makes it anew from the document
and takes the objective and the referenced decisions of the prior record over; `record_join_evidence`
adds decisions to the prior record.  What the calls save, in any order and over any faults of the
system, only grows: the first objective stays, and so does each decision, once (`savedRecords_keep`).
-/

namespace Vexcoder.Task

open Base
open Lib
open Vexcoder.Runtime
open Subtask
open Tools

def workingSetSchemaVersion : ℕ := 1

structure RecordedDecision where
  rationale : String
  sourceReference : String

structure PathChange where
  path : String
  gitIdentity : String

structure WorkingSetRecord where
  schemaVersion : ℕ
  updatedAt : ℤ
  objective : String
  constraints : List String
  decisions : List RecordedDecision
  changedPaths : List PathChange
  verifiedResults : List String
  unresolvedQuestions : List String
  activePlan : String
  nextAction : String

namespace WorkingSetRecord

def new (objective : String) (now : ℤ) : WorkingSetRecord :=
  { schemaVersion := workingSetSchemaVersion, updatedAt := now, objective
    constraints := [], decisions := [], changedPaths := [], verifiedResults := []
    unresolvedQuestions := [], activePlan := "", nextAction := "" }

def retainDurableObjective (record prior : WorkingSetRecord) : WorkingSetRecord :=
  if Text.isEmpty (Text.trim prior.objective) then record
  else { record with objective := prior.objective }

/-- A decision is pushed behind those of the record, unless it has no reference or a known one. -/
def pushDecision (decisions : List RecordedDecision) (decision : RecordedDecision) :
    List RecordedDecision :=
  if Text.isEmpty (Text.trim decision.sourceReference) then decisions
  else if decisions.any fun known => known.sourceReference = decision.sourceReference then decisions
  else decisions ++ [decision]

def retainReferencedDecisions (record prior : WorkingSetRecord) : WorkingSetRecord :=
  { record with decisions := prior.decisions.foldl pushDecision record.decisions }

end WorkingSetRecord

/-! ### The projection of the document -/

/-- What is no text but blanks, without those around it. -/
def nonemptyTrimmed (s : String) : Option String :=
  if Text.isEmpty (Text.trim s) then none else some (Text.trim s)

def nonemptyActiveInput (doc : TaskDocument) : Option String :=
  doc.activePulse.bind fun pulse => nonemptyTrimmed pulse.input

def firstUserInput (doc : TaskDocument) : String :=
  ((doc.completedTurns.findSome? fun pulse => nonemptyTrimmed pulse.input).or
    (nonemptyActiveInput doc)).getD ""

def lastUserInput (doc : TaskDocument) : String :=
  ((nonemptyActiveInput doc).or
    (doc.completedTurns.reverse.findSome? fun pulse => nonemptyTrimmed pulse.input)).getD ""

/-- The order of paths: by component, the root before `.`, `..` and names. -/
def componentKey : Lib.Files.Component → ℕ ×ₗ String
  | .rootDir => toLex (0, "")
  | .curDir => toLex (1, "")
  | .parentDir => toLex (2, "")
  | .normal name => toLex (3, name)

def pathKey (path : String) : List (ℕ ×ₗ String) := (components path).map componentKey

/-- A path that has been met stays as it was written first. -/
def noteChangedPath (paths : List (List (ℕ ×ₗ String) × String)) (path : String) :
    List (List (ℕ ×ₗ String) × String) :=
  if (Assoc.find? (pathKey path) paths).isSome then paths
  else Assoc.insertSorted (pathKey path) path paths

def uniqueChangedPaths (doc : TaskDocument) : List PathChange :=
  let changed := doc.completedTurns.flatMap (·.changedFiles) ++ (doc.activePulse.map (·.changedFiles)).getD []
  (changed.foldl noteChangedPath []).map fun entry => { path := entry.2, gitIdentity := "" }

def verifiedResults (doc : TaskDocument) : List String :=
  let texts := doc.completedTurns.map (fun pulse => extractFinalText pulse.entries) ++
    (doc.activePulse.map fun active => extractFinalText active.entries).toList
  texts.filter fun text => !Text.isEmpty (Text.trim text)

def activePlan (document : TaskRecord) : String :=
  ((document.sessionNotes.reverse.findSome? fun note =>
      (Text.stripPrefix (Text.trim note.content) "[plan]").bind nonemptyTrimmed).or
    (verifiedResults document.doc).getLast?).getD ""

def projectWorkingSet (document : TaskRecord) (now : ℤ) : WorkingSetRecord :=
  { WorkingSetRecord.new (firstUserInput document.doc) now with
    constraints := document.sessionNotes.filterMap fun note => nonemptyTrimmed note.content
    changedPaths := uniqueChangedPaths document.doc
    verifiedResults := verifiedResults document.doc
    activePlan := activePlan document
    nextAction := lastUserInput document.doc }

/-! ### The two writers -/

inductive WorkingSetCall where
  | writeWorkingSet (document : TaskRecord)
  | recordJoinEvidence (entries : List LiveJoinEntry)

/-- A call, the clock at it, and whether the system refuses to read the sidecar or to write it. -/
structure WorkingSetStep where
  call : WorkingSetCall
  now : ℤ
  readFails : Bool := false
  saveFails : Bool := false

def recordEvidence (decisions : List RecordedDecision) (entry : LiveJoinEntry) :
    List RecordedDecision :=
  WorkingSetRecord.pushDecision decisions
    { rationale := entry.body, sourceReference := entry.id }

/-- What a call makes of the prior record, if there is one. -/
def WorkingSetCall.record (now : ℤ) (prior : Option WorkingSetRecord) : WorkingSetCall → WorkingSetRecord
  | .writeWorkingSet document =>
    let record := projectWorkingSet document now
    match prior with
    | some prior => (record.retainDurableObjective prior).retainReferencedDecisions prior
    | none => record
  | .recordJoinEvidence entries =>
    let record := prior.getD (WorkingSetRecord.new "" now)
    { record with decisions := entries.foldl recordEvidence record.decisions }

/-- The record that the step saves, `none` where it reports an error and the file stays as it was. -/
def WorkingSetStep.saved (step : WorkingSetStep) (file : Option WorkingSetRecord) :
    Option WorkingSetRecord :=
  if (file.isSome && step.readFails) || step.saveFails then none
  else some (step.call.record step.now file)

def savedRecords : Option WorkingSetRecord → List WorkingSetStep → List WorkingSetRecord
  | _, [] => []
  | file, step :: steps =>
    match step.saved file with
    | some record => record :: savedRecords (some record) steps
    | none => savedRecords file steps

/-! ### What stays -/

def Named (decision : RecordedDecision) : Prop :=
  Text.isEmpty (Text.trim decision.sourceReference) = false

structure WellFormed (decisions : List RecordedDecision) : Prop where
  named : ∀ decision ∈ decisions, Named decision
  distinct : (decisions.map RecordedDecision.sourceReference).Nodup

structure WorkingSetRecord.Sound (record : WorkingSetRecord) : Prop where
  objective : record.objective ≠ "" → Text.isEmpty (Text.trim record.objective) = false
  decisions : WellFormed record.decisions

/-- The later record has the objective and the decisions of the earlier one, each decision once. -/
structure WorkingSetRecord.Keeps (record later : WorkingSetRecord) : Prop where
  objective : record.objective ≠ "" → later.objective = record.objective
  decisions : ∀ decision ∈ record.decisions, decision.sourceReference ≠ "" →
    (later.decisions.filter fun known => known.sourceReference = decision.sourceReference) = [decision]

theorem pushDecision_wellFormed {decisions : List RecordedDecision} (h : WellFormed decisions)
    (decision : RecordedDecision) :
    WellFormed (WorkingSetRecord.pushDecision decisions decision) := by
  rw [WorkingSetRecord.pushDecision]
  split
  · exact h
  rename_i hnamed
  split
  · exact h
  rename_i hnew
  constructor
  · intro known hknown
    obtain hknown | hknown := List.mem_append.mp hknown
    · exact h.named known hknown
    · obtain rfl := List.mem_singleton.mp hknown
      exact Bool.eq_false_iff.mpr hnamed
  · rw [List.map_append, List.map_singleton, List.nodup_append_comm, List.singleton_append, List.nodup_cons]
    refine ⟨fun hmem => hnew ?_, h.distinct⟩
    obtain ⟨known, hknown, hsame⟩ := List.mem_map.mp hmem
    exact List.any_eq_true.mpr ⟨known, hknown, decide_eq_true hsame⟩

theorem pushDecision_prefix (decisions : List RecordedDecision) (decision : RecordedDecision) :
    decisions <+: WorkingSetRecord.pushDecision decisions decision := by
  rw [WorkingSetRecord.pushDecision]
  split
  · exact List.prefix_rfl
  · split
    · exact List.prefix_rfl
    · exact List.prefix_append decisions [decision]

theorem recordEvidence_foldl {decisions : List RecordedDecision} (h : WellFormed decisions)
    (entries : List LiveJoinEntry) :
    WellFormed (entries.foldl recordEvidence decisions) ∧
      decisions <+: entries.foldl recordEvidence decisions := by
  induction entries generalizing decisions with
  | nil => exact ⟨h, List.prefix_rfl⟩
  | cons entry entries ih =>
    have hstep : WellFormed (recordEvidence decisions entry) := pushDecision_wellFormed h _
    have hkept : decisions <+: recordEvidence decisions entry := pushDecision_prefix decisions _
    obtain ⟨hwell, hprefix⟩ := ih hstep
    rw [List.foldl_cons]
    exact ⟨hwell, hkept.trans hprefix⟩

/-- A well-formed list of decisions is pushed as it is behind others. -/
theorem pushDecision_foldl {known decisions : List RecordedDecision} (h : WellFormed (known ++ decisions)) :
    decisions.foldl WorkingSetRecord.pushDecision known = known ++ decisions := by
  induction decisions generalizing known with
  | nil => exact (List.append_nil known).symm
  | cons decision decisions ih =>
    have hsplit : known ++ decision :: decisions = known ++ [decision] ++ decisions :=
      (List.append_cons known decision decisions)
    have hnamed : Named decision :=
      h.named decision (List.mem_append_right known List.mem_cons_self)
    have hnew : (known.any fun other => other.sourceReference = decision.sourceReference) = false := by
      refine List.any_eq_false.mpr fun other hother hsame => ?_
      have hdistinct := h.distinct
      rw [List.map_append, List.nodup_append] at hdistinct
      exact hdistinct.2.2 _ (List.mem_map_of_mem hother) _ List.mem_cons_self (of_decide_eq_true hsame)
    have hpush : WorkingSetRecord.pushDecision known decision = known ++ [decision] := by
      rw [WorkingSetRecord.pushDecision, hnamed, hnew]
      rfl
    rw [List.foldl_cons, hpush, ih (hsplit ▸ h), hsplit]

/-! ### The objective -/

theorem nonemptyTrimmed_named {s text : String} (h : nonemptyTrimmed s = some text) :
    Text.isEmpty (Text.trim text) = false := by
  rw [nonemptyTrimmed] at h
  split at h
  · cases h
  · rename_i hne
    cases h
    rw [Text.trim_trim]
    exact Bool.eq_false_iff.mpr hne

/-- The objective that the document gives is empty or no blank. -/
theorem firstUserInput_named {doc : TaskDocument} (h : firstUserInput doc ≠ "") :
    Text.isEmpty (Text.trim (firstUserInput doc)) = false := by
  rw [firstUserInput] at h ⊢
  cases hinput : (doc.completedTurns.findSome? fun pulse => nonemptyTrimmed pulse.input).or
      (nonemptyActiveInput doc) with
  | none =>
    rw [hinput] at h
    exact absurd rfl h
  | some text =>
    obtain hturn | ⟨-, hactive⟩ := Option.or_eq_some_iff.mp hinput
    · obtain ⟨pulse, -, hpulse⟩ := List.exists_of_findSome?_eq_some hturn
      exact nonemptyTrimmed_named hpulse
    · obtain ⟨pulse, -, hpulse⟩ := Option.bind_eq_some_iff.mp hactive
      exact nonemptyTrimmed_named hpulse

/-! ### One call -/

theorem wellFormed_nil : WellFormed [] :=
  ⟨nofun, List.nodup_nil⟩

/-- What the call makes of a sound prior record is sound and has all that the prior record has. -/
theorem record_of_prior {prior : WorkingSetRecord} (h : prior.Sound) (now : ℤ) (call : WorkingSetCall) :
    (call.record now (some prior)).Sound ∧
      (prior.objective ≠ "" → (call.record now (some prior)).objective = prior.objective) ∧
      prior.decisions <+: (call.record now (some prior)).decisions := by
  cases call with
  | writeWorkingSet document =>
    have hdecisions : (WorkingSetCall.record now (some prior)
        (.writeWorkingSet document)).decisions = prior.decisions := by
      have hproject : ((projectWorkingSet document now).retainDurableObjective prior).decisions = [] := by
        rw [WorkingSetRecord.retainDurableObjective]
        split <;> rfl
      have hpush : prior.decisions.foldl WorkingSetRecord.pushDecision [] = [] ++ prior.decisions :=
        pushDecision_foldl h.decisions
      rw [WorkingSetCall.record]
      simp only [WorkingSetRecord.retainReferencedDecisions, hproject, hpush, List.nil_append]
    have hobjective : (WorkingSetCall.record now (some prior)
        (.writeWorkingSet document)).objective =
          if Text.isEmpty (Text.trim prior.objective) then firstUserInput document.doc
          else prior.objective := by
      simp only [WorkingSetCall.record, WorkingSetRecord.retainReferencedDecisions,
        WorkingSetRecord.retainDurableObjective]
      split <;> rfl
    refine ⟨⟨fun hne => ?_, ?_⟩, fun hne => ?_, ?_⟩
    · rw [hobjective] at hne ⊢
      split
      · rename_i hblank
        rw [if_pos hblank] at hne
        exact firstUserInput_named hne
      · rename_i hnamed
        exact Bool.eq_false_iff.mpr hnamed
    · rw [hdecisions]
      exact h.decisions
    · rw [hobjective, h.objective hne]
      rfl
    · simp only [hdecisions, List.prefix_refl]
  | recordJoinEvidence entries =>
    obtain ⟨hwell, hprefix⟩ := recordEvidence_foldl h.decisions entries
    exact ⟨⟨h.objective, hwell⟩, fun _ => rfl, hprefix⟩

theorem record_of_none (now : ℤ) (call : WorkingSetCall) : (call.record now none).Sound := by
  cases call with
  | writeWorkingSet document => exact ⟨firstUserInput_named, wellFormed_nil⟩
  | recordJoinEvidence entries =>
    exact ⟨fun hne => absurd rfl hne, (recordEvidence_foldl wellFormed_nil entries).1⟩

theorem keeps_of_prefix {record later : WorkingSetRecord} (h : later.Sound)
    (hobjective : record.objective ≠ "" → later.objective = record.objective)
    (hdecisions : record.decisions <+: later.decisions) : record.Keeps later := by
  refine ⟨hobjective, fun decision hdecision _ => ?_⟩
  have hmem : decision ∈ later.decisions := hdecisions.subset hdecision
  have hdistinct := h.decisions.distinct
  obtain ⟨before, after, hsplit⟩ := List.append_of_mem hmem
  rw [hsplit, List.map_append, List.map_cons, List.nodup_append, List.nodup_cons] at hdistinct
  obtain ⟨-, ⟨hafter, -⟩, hbefore⟩ := hdistinct
  have hown : ((decision :: after).filter fun other =>
      other.sourceReference = decision.sourceReference) =
        decision :: after.filter fun other =>
          other.sourceReference = decision.sourceReference :=
    List.filter_cons_of_pos (decide_eq_true rfl)
  rw [hsplit, List.filter_append, hown]
  have hnone : ∀ known : List RecordedDecision,
      (∀ other ∈ known, other.sourceReference ≠ decision.sourceReference) →
      (known.filter fun other => other.sourceReference = decision.sourceReference) = [] :=
    fun known hother => List.filter_eq_nil_iff.mpr fun other hmem hsame =>
      hother other hmem (of_decide_eq_true hsame)
  rw [hnone before fun other hother hsame =>
      hbefore _ (List.mem_map_of_mem hother) _ List.mem_cons_self hsame,
    hnone after fun other hother hsame => hafter (hsame ▸ List.mem_map_of_mem hother)]
  rfl

/-! ### Runs -/

/-- All that is saved over a sound record has what that record has. -/
theorem savedRecords_of_prior {prior : WorkingSetRecord} (h : prior.Sound) (steps : List WorkingSetStep) :
    (∀ later ∈ savedRecords (some prior) steps, later.Sound ∧
      (prior.objective ≠ "" → later.objective = prior.objective) ∧
        prior.decisions <+: later.decisions) ∧
      (savedRecords (some prior) steps).Pairwise WorkingSetRecord.Keeps := by
  induction steps generalizing prior with
  | nil => exact ⟨nofun, List.Pairwise.nil⟩
  | cons step steps ih =>
    rw [savedRecords]
    split
    · rename_i record hsaved
      rw [WorkingSetStep.saved] at hsaved
      split at hsaved
      · cases hsaved
      cases hsaved
      obtain ⟨hsound, hobjective, hdecisions⟩ := record_of_prior h step.now step.call
      obtain ⟨hlater, hpairwise⟩ := ih hsound
      refine ⟨List.forall_mem_cons.mpr ⟨⟨hsound, hobjective, hdecisions⟩, ?_⟩,
        List.pairwise_cons.mpr ⟨?_, hpairwise⟩⟩
      · intro later hmem
        obtain ⟨hsound', hobjective', hdecisions'⟩ := hlater later hmem
        refine ⟨hsound', fun hne => ?_, hdecisions.trans hdecisions'⟩
        have hsame := hobjective hne
        rw [hobjective' (hsame ▸ hne), hsame]
      · intro later hmem
        obtain ⟨hsound', hobjective', hdecisions'⟩ := hlater later hmem
        exact keeps_of_prefix hsound' hobjective' hdecisions'
    · exact ih h

/-- **Each record that is saved keeps its objective and its decisions in all that are saved later.** -/
theorem savedRecords_keep (steps : List WorkingSetStep) :
    (savedRecords none steps).Pairwise WorkingSetRecord.Keeps := by
  induction steps with
  | nil => exact List.Pairwise.nil
  | cons step steps ih =>
    rw [savedRecords]
    split
    · rename_i record hsaved
      rw [WorkingSetStep.saved] at hsaved
      split at hsaved
      · cases hsaved
      cases hsaved
      have hsound := record_of_none step.now step.call
      obtain ⟨hlater, hpairwise⟩ := savedRecords_of_prior hsound steps
      refine List.pairwise_cons.mpr ⟨fun later hmem => ?_, hpairwise⟩
      obtain ⟨hsound', hobjective, hdecisions⟩ := hlater later hmem
      exact keeps_of_prefix hsound' hobjective hdecisions
    · exact ih

end Vexcoder.Task
