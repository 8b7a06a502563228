import Vexcoder.App.TuiMode
import Vexcoder.Lib.SortByKey
import Vexcoder.Tools.FileRange

/-!
# Memory candidates

The notes of a user and those that were extracted from responses are kept as candidates in a JSON file,
with a projection in markdown next to it, from which they come back when the JSON file is gone.  Only
accepted candidates are injected, as many of them as the budget allows.

What is injected is the longest prefix that fits (`injected_longest`), as long as the counts of the
candidates sum to a `usize`.
-/

namespace Vexcoder.App.Memory

open Base Lib.SortByKey Tools

inductive CandidateSource where
  | user
  | feedback
  | project
  | reference
  deriving DecidableEq

inductive CandidateStatus where
  | pending
  | accepted
  deriving DecidableEq

structure MemoryCandidate where
  source : CandidateSource
  topic : String
  body : String
  status : CandidateStatus
  sourceReference : String
  deriving DecidableEq

def memoryCandidatesSchemaVersion : ℕ := 1

structure MemoryCandidateStore where
  schemaVersion : ℕ := memoryCandidatesSchemaVersion
  candidates : List MemoryCandidate := []

/-- The JSON file with what it holds, and the notes file. -/
structure NotesFiles where
  sidecar : Option MemoryCandidateStore := none
  notes : Option String := none

/-! ### Lines of the projection -/

def topicFrom (body : String) : String :=
  let trimmed := Text.trim body
  if Text.charCount trimmed ≤ 48 then trimmed
  else String.ofList (trimmed.toList.take 48) ++ "..."

def isAutoNoteLine (line : String) : Bool :=
  match Text.stripPrefix (Text.trimStart line) "[" with
  | none => false
  | some rest =>
    match Text.splitOnce rest "] " with
    | none => false
    | some (timestamp, suffix) =>
      !Text.isEmpty timestamp && timestamp.toList.all Char.isDigit && Text.startsWith suffix "[auto] "

def stripAutoNoteBody (line : String) : String :=
  let trimmed := Text.trimStart line
  let body := (Text.stripPrefix trimmed "[").bind fun rest =>
    (Text.splitOnce rest "] ").bind fun parts => Text.stripPrefix parts.2 "[auto] "
  body.getD trimmed

def parseAutoTimestamp (line : String) : String :=
  let timestamp := (Text.stripPrefix (Text.trimStart line) "[").bind fun rest =>
    ((Text.splitOnce rest "]").map Prod.fst).filter fun timestamp =>
      !Text.isEmpty timestamp && timestamp.toList.all Char.isDigit
  timestamp.getD "0"

def feedbackCandidate (line : String) : MemoryCandidate :=
  let body := stripAutoNoteBody line
  { source := .feedback
    topic := topicFrom body
    body
    status := .pending
    sourceReference := "auto:" ++ parseAutoTimestamp line }

/-- What `migrate_markdown_lines` makes of a line. -/
def migrateLine (line : String) : Option MemoryCandidate :=
  let trimmed := Text.trim line
  if Text.isEmpty trimmed then none
  else if isAutoNoteLine trimmed then some (feedbackCandidate trimmed)
  else
    some
      { source := .user
        topic := topicFrom trimmed
        body := trimmed
        status := .accepted
        sourceReference := "memory.md" }

def migrateMarkdownLines (content : String) : List MemoryCandidate :=
  (Text.lines content).filterMap migrateLine

/-- The text of a candidate in the projection, without the line feed behind it. -/
def renderCandidate (candidate : MemoryCandidate) : String :=
  match candidate.source with
  | .feedback =>
    match Text.stripPrefix candidate.sourceReference "auto:" with
    | some timestamp => "[" ++ timestamp ++ "] [auto] " ++ candidate.body
    | none => "[0] [auto] " ++ candidate.body
  | _ => candidate.body

def renderNotesMarkdown (candidates : List MemoryCandidate) : String :=
  Text.join "" (candidates.map fun candidate => renderCandidate candidate ++ "\n")

/-! ### Calls on one notes path -/

def persistStore (store : MemoryCandidateStore) : NotesFiles :=
  { sidecar := some store, notes := some (renderNotesMarkdown store.candidates) }

def loadOrMigrate (files : NotesFiles) : NotesFiles × MemoryCandidateStore :=
  match files.sidecar with
  | some store => (files, store)
  | none =>
    match files.notes with
    | none => (files, {})
    | some content =>
      let store : MemoryCandidateStore := { candidates := migrateMarkdownLines content }
      (if store.candidates.isEmpty then files else persistStore store, store)

def addUserNote (files : NotesFiles) (note : String) : NotesFiles :=
  let store := (loadOrMigrate files).2
  persistStore
    { store with
      candidates := store.candidates ++
        [{ source := .user
           topic := topicFrom note
           body := note
           status := .accepted
           sourceReference := "/memory add" }] }

def appendFeedbackNotes (files : NotesFiles) (formattedAutoLines : List String) : NotesFiles :=
  let store := (loadOrMigrate files).2
  persistStore
    { store with candidates := store.candidates ++ formattedAutoLines.map feedbackCandidate }

def clearStore : NotesFiles := persistStore {}

def removeFeedbackCandidates (files : NotesFiles) : NotesFiles × ℕ :=
  if files.notes.isNone && files.sidecar.isNone then (files, 0)
  else
    let store := (loadOrMigrate files).2
    let retained := store.candidates.filter fun candidate => candidate.source ≠ .feedback
    (persistStore { store with candidates := retained }, store.candidates.length - retained.length)

def pendingIndices (candidates : List MemoryCandidate) : List ℕ :=
  (List.range candidates.length).filter fun index =>
    (candidates[index]?.map MemoryCandidate.status) = some .pending

def acceptTarget (candidates : List MemoryCandidate) (selector : String) : Option ℕ :=
  let pending := pendingIndices candidates
  match parseU64 selector.toList with
  | some number => if number = 0 then none else pending[number - 1]?
  | none =>
    let needle := Text.toAsciiLowercase selector
    pending.find? fun index => candidates[index]?.any fun candidate =>
      Text.contains (Text.toAsciiLowercase candidate.topic) needle ||
        Text.contains (Text.toAsciiLowercase candidate.body) needle

def MemoryCandidate.accept (candidate : MemoryCandidate) : MemoryCandidate :=
  { candidate with status := .accepted }

/-- The body of the candidate that was accepted comes with it. -/
def acceptPending (files : NotesFiles) (selector : String) : NotesFiles × Option String :=
  let (loaded, store) := loadOrMigrate files
  match acceptTarget store.candidates selector with
  | none => (loaded, none)
  | some target =>
    (persistStore
        { store with candidates := store.candidates.modify target MemoryCandidate.accept },
      store.candidates[target]?.map MemoryCandidate.body)

/-! ### Injection -/

def sourcePriority : CandidateSource → ℕ
  | .user => 0
  | .feedback => 1
  | .project => 2
  | .reference => 3

/-- `sum` at `usize`: where it is too large, it wraps or, with checks, panics. -/
def sumTokens (overflowChecks : Bool) (tokens : List ℕ) : Option ℕ :=
  tokens.foldlM
    (fun total count =>
      if total + count < 2 ^ 64 then some (total + count)
      else if overflowChecks then none
      else some ((total + count) % 2 ^ 64)) 0

/-- The loop that drops the last one; each round drops one of the `n` that are left. -/
def dropToFit (tokenBudget : ℕ) : ℕ → List (MemoryCandidate × ℕ) → ℕ → ℕ → List (MemoryCandidate × ℕ) × ℕ
  | 0, selected, _, dropped => (selected, dropped)
  | n + 1, selected, total, dropped =>
    if tokenBudget < total then
      match selected.getLast? with
      | none => (selected, dropped)
      | some last => dropToFit tokenBudget n selected.dropLast (total - last.2) (dropped + 1)
    else (selected, dropped)

section Injection

variable (overflowChecks : Bool) (tokenCount : String → UInt64)

/-- The accepted candidates with their counts, by the priority of their sources. -/
def acceptedByPriority (store : MemoryCandidateStore) : List (MemoryCandidate × ℕ) :=
  sortByKey (fun entry => sourcePriority entry.1.source)
    ((store.candidates.filter fun candidate => candidate.status = .accepted).map fun candidate =>
      (candidate, (tokenCount candidate.body).toNat))

/-- What is left of them, and how many were dropped. -/
def selectAccepted (store : MemoryCandidateStore) (tokenBudget : ℕ) :
    Option (List (MemoryCandidate × ℕ) × ℕ) :=
  let selected := acceptedByPriority tokenCount store
  (sumTokens overflowChecks (selected.map Prod.snd)).map fun total =>
    dropToFit tokenBudget selected.length selected total 0

/-- The content and the warning; `none` when the call panics. -/
def injectAccepted (store : MemoryCandidateStore) (tokenBudget : ℕ) :
    Option (Option String × Option String) :=
  (selectAccepted overflowChecks tokenCount store tokenBudget).map fun (selected, dropped) =>
    if selected.isEmpty then
      if 0 < dropped then
        (none, some ("[memory] notes exceed token budget (dropped " ++ toString dropped ++
          " accepted candidate(s) above " ++ toString tokenBudget ++ ")"))
      else (none, none)
    else
      (some (Text.join "\n" (selected.map fun entry => entry.1.body)),
        if 0 < dropped then
          some ("[memory] dropped " ++ toString dropped ++
            " accepted candidate(s) over token budget (" ++ toString tokenBudget ++ ")")
        else none)

def injectedContent (selected : List (MemoryCandidate × ℕ)) : Option String :=
  if selected.isEmpty then none else some (Text.join "\n" (selected.map fun entry => entry.1.body))

/-- The injected candidates: the first `kept` ones, and no longer prefix fits the budget. -/
structure LongestPrefix (store : MemoryCandidateStore) (tokenBudget kept : ℕ) : Prop where
  injected : ∃ warning, injectAccepted overflowChecks tokenCount store tokenBudget =
    some (injectedContent ((acceptedByPriority tokenCount store).take kept), warning)
  fits : (((acceptedByPriority tokenCount store).take kept).map Prod.snd).sum ≤ tokenBudget
  longest : ∀ more ≤ (acceptedByPriority tokenCount store).length,
    (((acceptedByPriority tokenCount store).take more).map Prod.snd).sum ≤ tokenBudget → more ≤ kept

end Injection

variable {overflowChecks : Bool} {tokenCount : String → UInt64}

theorem acceptedByPriority_perm (store : MemoryCandidateStore) :
    ((acceptedByPriority tokenCount store).map Prod.fst).Perm
      (store.candidates.filter fun candidate => candidate.status = .accepted) := by
  refine ((sortByKey_perm _).map Prod.fst).trans ?_
  rw [List.map_map]
  exact List.Perm.of_eq (List.map_id _)

theorem sumTokens_of_lt {tokens : List ℕ} (h : tokens.sum < 2 ^ 64) :
    sumTokens overflowChecks tokens = some tokens.sum := by
  have hfold : ∀ total, total + tokens.sum < 2 ^ 64 →
      tokens.foldlM
        (fun total count =>
          if total + count < 2 ^ 64 then some (total + count)
          else if overflowChecks then none
          else some ((total + count) % 2 ^ 64)) total = some (total + tokens.sum) := by
    clear h
    induction tokens with
    | nil =>
      intro total _
      rfl
    | cons count tokens ih =>
      intro total htotal
      rw [List.sum_cons] at htotal
      rw [List.foldlM_cons, if_pos (by omega), List.sum_cons, ← Nat.add_assoc]
      exact ih (total + count) (by omega)
  rw [sumTokens, hfold 0 (by omega), Nat.zero_add]

/-- Whatever it counts, the loop leaves a prefix. -/
theorem dropToFit_prefix (tokenBudget n : ℕ) (selected : List (MemoryCandidate × ℕ)) (total dropped : ℕ) :
    ∃ kept, (dropToFit tokenBudget n selected total dropped).1 = selected.take kept := by
  induction n generalizing selected total dropped with
  | zero => exact ⟨selected.length, List.take_length.symm⟩
  | succ n ih =>
    rw [dropToFit]
    split
    · split
      · exact ⟨selected.length, List.take_length.symm⟩
      · rename_i last _
        obtain ⟨kept, hkept⟩ := ih selected.dropLast (total - last.2) (dropped + 1)
        rw [List.dropLast_eq_take, List.take_take] at hkept
        rw [List.dropLast_eq_take]
        exact ⟨_, hkept⟩
    · exact ⟨selected.length, List.take_length.symm⟩

theorem dropToFit_spec (tokenBudget : ℕ) {n : ℕ} {selected : List (MemoryCandidate × ℕ)} {total : ℕ}
    (hn : selected.length = n) (htotal : (selected.map Prod.snd).sum = total) (dropped : ℕ) :
    ∃ kept ≤ n, (∃ dropped', dropToFit tokenBudget n selected total dropped =
        (selected.take kept, dropped')) ∧
      ((selected.take kept).map Prod.snd).sum ≤ tokenBudget ∧
      ∀ more ≤ n, ((selected.take more).map Prod.snd).sum ≤ tokenBudget → more ≤ kept := by
  induction n generalizing selected total dropped with
  | zero =>
    obtain rfl := List.length_eq_zero_iff.mp hn
    exact ⟨0, Nat.le_refl 0, ⟨dropped, rfl⟩, Nat.zero_le _, fun more hmore _ => hmore⟩
  | succ n ih =>
    rw [dropToFit]
    split
    · rcases selected.eq_nil_or_concat' with rfl | ⟨front, last, rfl⟩
      · cases hn
      have hlen : front.length = n := by
        rw [List.length_append, List.length_singleton] at hn
        omega
      have hsum : (front.map Prod.snd).sum = total - last.2 := by
        rw [List.map_append, List.sum_append, List.map_singleton, List.sum_singleton] at htotal
        omega
      rw [List.getLast?_concat, List.dropLast_concat]
      obtain ⟨kept, hkept, ⟨dropped', hdrop⟩, hfits, hlongest⟩ := ih hlen hsum (dropped + 1)
      have htake : ∀ m ≤ n, (front ++ [last]).take m = front.take m := by
        intro m hm
        rw [List.take_append_of_le_length (by omega)]
      refine ⟨kept, by omega, ⟨dropped', ?_⟩, ?_, ?_⟩
      · rw [htake kept hkept]
        exact hdrop
      · rw [htake kept hkept]
        exact hfits
      · intro more hmore hmoreFits
        by_cases hall : more = n + 1
        · -- The whole list is over the budget.
          rw [hall, ← hn, List.take_length] at hmoreFits
          omega
        · rw [htake more (by omega)] at hmoreFits
          exact hlongest more (by omega) hmoreFits
    · refine ⟨n + 1, Nat.le_refl _, ⟨dropped, ?_⟩, ?_, fun more hmore _ => hmore⟩
      · rw [← hn, List.take_length]
      · rw [← hn, List.take_length]
        omega

theorem injectAccepted_content {store : MemoryCandidateStore} {tokenBudget dropped : ℕ}
    {selected : List (MemoryCandidate × ℕ)}
    (h : selectAccepted overflowChecks tokenCount store tokenBudget = some (selected, dropped)) :
    ∃ warning, injectAccepted overflowChecks tokenCount store tokenBudget =
      some (injectedContent selected, warning) := by
  rw [injectAccepted, h, Option.map_some]
  dsimp only [injectedContent]
  split
  · split
    all_goals exact ⟨_, rfl⟩
  · exact ⟨_, rfl⟩

/-- **What is injected is a prefix of the accepted candidates**, whatever their counts. -/
theorem injected_prefix {store : MemoryCandidateStore} {tokenBudget : ℕ} {content warning : Option String}
    (h : injectAccepted overflowChecks tokenCount store tokenBudget = some (content, warning)) :
    ∃ kept, content = injectedContent ((acceptedByPriority tokenCount store).take kept) := by
  cases hselect : selectAccepted overflowChecks tokenCount store tokenBudget with
  | none =>
    rw [injectAccepted, hselect] at h
    cases h
  | some result =>
    obtain ⟨selected, dropped⟩ := result
    obtain ⟨warning', hinject⟩ := injectAccepted_content hselect
    cases h.symm.trans hinject
    obtain ⟨total, -, hdrop⟩ := Option.map_eq_some_iff.mp hselect
    obtain ⟨kept, hkept⟩ := dropToFit_prefix tokenBudget (acceptedByPriority tokenCount store).length
      (acceptedByPriority tokenCount store) total 0
    rw [hdrop] at hkept
    exact ⟨kept, congrArg injectedContent hkept⟩

/-- **What is injected is the longest prefix that fits the budget**, where the counts sum to a `usize`. -/
theorem injected_longest (store : MemoryCandidateStore) (tokenBudget : ℕ)
    (hsum : ((acceptedByPriority tokenCount store).map Prod.snd).sum < 2 ^ 64) :
    ∃ kept, LongestPrefix overflowChecks tokenCount store tokenBudget kept := by
  obtain ⟨kept, -, ⟨dropped, hdrop⟩, hfits, hlongest⟩ :=
    dropToFit_spec tokenBudget (rfl : (acceptedByPriority tokenCount store).length = _) rfl 0
  have hselect : selectAccepted overflowChecks tokenCount store tokenBudget =
      some ((acceptedByPriority tokenCount store).take kept, dropped) := by
    rw [selectAccepted, sumTokens_of_lt hsum, Option.map_some, hdrop]
  exact ⟨kept, injectAccepted_content hselect, hfits, hlongest⟩

end Vexcoder.App.Memory
