import Vexcoder.App.MemoryProjection
import Vexcoder.App.ModelUpdate

/-!
# Notes and their review

Calls on one notes path, between which the JSON file may be deleted.  Every candidate comes from a note of
the user or is one occurrence of an extracted note, and none of these is accepted that was not accepted
after it was appended (`run_reviewed`): what a deleted JSON file gives back is pending again.
-/

namespace Vexcoder.App.Memory

open Base Lib.Search Lib.SortByKey Tools TuiMode

def formatAutoNotes (notes : List String) (timestampSeconds : ℕ) : List String :=
  notes.map fun note => "[" ++ toString timestampSeconds ++ "] [auto] " ++ note

inductive Event where
  | addUserNote (note : String)
  | appendFeedbackNotes (response : String) (maxNotes timestampSeconds : ℕ)
  | acceptPending (selector : String)
  | removeFeedbackCandidates
  | clearStore
  | load
  | deleteSidecar

variable (host : Host)

def extractedNotes (response : String) (maxNotes : ℕ) : List String :=
  TuiMode.extractNotesFromTurn host response maxNotes

def NotesFiles.apply (files : NotesFiles) : Event → NotesFiles
  | .addUserNote note => addUserNote files note
  | .appendFeedbackNotes response maxNotes timestampSeconds =>
    appendFeedbackNotes files (formatAutoNotes (extractedNotes host response maxNotes) timestampSeconds)
  | .acceptPending selector => (acceptPending files selector).1
  | .removeFeedbackCandidates => (removeFeedbackCandidates files).1
  | .clearStore => clearStore
  | .load => (loadOrMigrate files).1
  | .deleteSidecar => { files with sidecar := none }

/-- The files after the events, from no files at all. -/
def run (events : List Event) : NotesFiles := events.foldl (NotesFiles.apply host) {}

def current (files : NotesFiles) : List MemoryCandidate := (loadOrMigrate files).2.candidates

/-! ### Where a candidate comes from -/

/-- The event that brought a candidate: a note of the user, or the extracted note at a position, with the
event that accepted it. -/
inductive Origin where
  | user (event : ℕ)
  | feedback (event position : ℕ) (acceptance : Option ℕ)

def Origin.place : Origin → Option (ℕ × ℕ)
  | .user _ => none
  | .feedback event position _ => some (event, position)

def Origin.acceptance : Origin → Option ℕ
  | .user _ => none
  | .feedback _ _ acceptance => acceptance

/-- The candidate is the note, a line of it, or what stands behind the auto tag of a line. -/
def TakenFrom (note : String) (candidate : MemoryCandidate) : Prop :=
  (candidate.source = .user ∧
      (candidate.body = note ∨ ∃ piece ∈ Text.pieces note, candidate.body = Text.trim piece)) ∨
    (candidate.source = .feedback ∧ ∃ piece ∈ Text.pieces note,
      isAutoNoteLine (Text.trim piece) = true ∧ candidate.body = stripAutoNoteBody (Text.trim piece))

/-- An extracted note that is accepted was accepted by a later event, which took its body. -/
def ComesFrom (events : List Event) (candidate : MemoryCandidate) : Origin → Prop
  | .user event => ∃ note, events[event]? = some (.addUserNote note) ∧ TakenFrom note candidate
  | .feedback event position acceptance =>
    candidate.source = .feedback ∧
      (∃ response maxNotes timestampSeconds,
        events[event]? = some (.appendFeedbackNotes response maxNotes timestampSeconds) ∧
          (extractedNotes host response maxNotes)[position]? = some candidate.body) ∧
      (candidate.status = .accepted → acceptance.isSome = true) ∧
      ∀ later ∈ acceptance, event < later ∧ ∃ selector,
        events[later]? = some (.acceptPending selector) ∧
          (acceptPending (run host (events.take later)) selector).2 = some candidate.body

/-- No extracted note is there twice, and no event accepted two of them. -/
structure Reviewed (events : List Event) (traced : List (MemoryCandidate × Origin)) : Prop where
  origins : ∀ entry ∈ traced, ComesFrom host events entry.1 entry.2
  places : (traced.filterMap fun entry => entry.2.place).Nodup
  acceptances : (traced.filterMap fun entry => entry.2.acceptance).Nodup

structure Traced (events : List Event) (traced : List (MemoryCandidate × Origin)) : Prop
    extends Reviewed host events traced where
  forms : ∀ entry ∈ traced, entry.1.source = .feedback → FeedbackForm entry.1

variable {host} {events : List Event} {traced : List (MemoryCandidate × Origin)} {files : NotesFiles}

theorem getElem?_lt {event : ℕ} {e : Event} (h : events[event]? = some e) : event < events.length :=
  (List.getElem?_eq_some_iff.mp h).1

theorem getElem?_concat {event : ℕ} {e : Event} (h : events[event]? = some e) (last : Event) :
    (events ++ [last])[event]? = some e := by
  rw [List.getElem?_append_left (getElem?_lt h), h]

variable {candidate : MemoryCandidate} {origin : Origin} {maxNotes : ℕ} {note : String}
  {entry : MemoryCandidate × Origin}

/-- What an origin says about the events stays true of more events. -/
theorem ComesFrom.concat (h : ComesFrom host events candidate origin) (last : Event) :
    ComesFrom host (events ++ [last]) candidate origin := by
  cases origin with
  | user event =>
    obtain ⟨note, hevent, htaken⟩ := h
    exact ⟨note, getElem?_concat hevent last, htaken⟩
  | feedback event position acceptance =>
    obtain ⟨hsource, ⟨response, maxNotes, timestamp, hevent, hbody⟩, haccepted, hlater⟩ := h
    refine ⟨hsource, ⟨response, maxNotes, timestamp, getElem?_concat hevent last, hbody⟩, haccepted, ?_⟩
    intro later hmem
    obtain ⟨hlt, selector, hselector, htook⟩ := hlater later hmem
    refine ⟨hlt, selector, getElem?_concat hselector last, ?_⟩
    rw [List.take_append_of_le_length (Nat.le_of_lt (getElem?_lt hselector))]
    exact htook

theorem ComesFrom.place_lt (h : ComesFrom host events candidate origin) {place : ℕ × ℕ}
    (hplace : origin.place = some place) : place.1 < events.length := by
  cases origin with
  | user event => cases hplace
  | feedback event position acceptance =>
    cases hplace
    obtain ⟨-, ⟨_, _, _, hevent, -⟩, -, -⟩ := h
    exact getElem?_lt hevent

theorem ComesFrom.acceptance_lt (h : ComesFrom host events candidate origin) {later : ℕ}
    (hlater : origin.acceptance = some later) : later < events.length := by
  cases origin with
  | user event => cases hlater
  | feedback event position acceptance =>
    obtain ⟨-, -, -, hall⟩ := h
    obtain ⟨-, selector, hselector, -⟩ := hall later hlater
    exact getElem?_lt hselector

theorem Traced.nil : Traced host events [] :=
  { origins := nofun
    places := List.nodup_nil
    acceptances := List.nodup_nil
    forms := nofun }

theorem Traced.concat (h : Traced host events traced) (last : Event) :
    Traced host (events ++ [last]) traced :=
  { origins := fun entry hentry => (h.origins entry hentry).concat last
    places := h.places
    acceptances := h.acceptances
    forms := h.forms }

theorem Traced.sublist {kept : List (MemoryCandidate × Origin)} (h : Traced host events traced)
    (hkept : kept.Sublist traced) : Traced host events kept :=
  { origins := fun entry hentry => h.origins entry (hkept.subset hentry)
    places := h.places.sublist (hkept.filterMap _)
    acceptances := h.acceptances.sublist (hkept.filterMap _)
    forms := fun entry hentry => h.forms entry (hkept.subset hentry) }

/-- Candidates that are not accepted come behind, from places that are new. -/
theorem Traced.append {added : List (MemoryCandidate × Origin)} (h : Traced host events traced)
    (hadded : Traced host events added) (hnew : ∀ entry ∈ added, entry.2.acceptance = none ∧
      ∀ place ∈ entry.2.place, ∀ old ∈ traced, old.2.place ≠ some place) :
    Traced host events (traced ++ added) := by
  refine ⟨⟨?_, ?_, ?_⟩, ?_⟩
  · intro entry hentry
    rcases List.mem_append.mp hentry with hentry | hentry
    · exact h.origins entry hentry
    · exact hadded.origins entry hentry
  · rw [List.filterMap_append, List.nodup_append']
    refine ⟨h.places, hadded.places, ?_⟩
    intro place hold hplace
    obtain ⟨old, hmem, hold⟩ := List.mem_filterMap.mp hold
    obtain ⟨entry, hentry, hplace⟩ := List.mem_filterMap.mp hplace
    exact (hnew entry hentry).2 place hplace old hmem hold
  · have hnone : (added.filterMap fun entry => entry.2.acceptance) = [] :=
      List.filterMap_eq_nil_iff.mpr fun entry hentry => (hnew entry hentry).1
    rw [List.filterMap_append, hnone, List.append_nil]
    exact h.acceptances
  · intro entry hentry
    rcases List.mem_append.mp hentry with hentry | hentry
    · exact h.forms entry hentry
    · exact hadded.forms entry hentry

/-! ### Extracted notes -/

theorem newline_not_mem_stripBulletPrefix {line content : String} (hline : '\n' ∉ line.toList)
    (h : TuiMode.stripBulletPrefix host line = some content) : '\n' ∉ content.toList := by
  have hstrip : ∀ {pat rest : String}, Text.stripPrefix line pat = some rest → '\n' ∉ rest.toList := by
    intro pat rest hrest hmem
    rw [eq_of_stripPrefix hrest, String.toList_append] at hline
    exact hline (List.mem_append_right _ hmem)
  rw [stripBulletPrefix, Option.or_eq_some_iff, Option.or_eq_some_iff] at h
  rcases h with h | ⟨-, h | ⟨-, h⟩⟩
  · exact hstrip h
  · exact hstrip h
  · split at h
    · rename_i first rest hchars
      split at h
      · cases h
        rw [Text.trimStart, String.toList_ofList, String.toList_ofList]
        intro hmem
        have hrest := List.dropWhile_subset isWhitespace hmem
        rw [hchars] at hline
        exact hline (List.mem_cons_of_mem _ hrest)
      · cases h
    · cases h

theorem noteOfLine_form {trimmed content : String} (htrim : Text.trim trimmed = trimmed)
    (hnewline : '\n' ∉ trimmed.toList) (h : TuiMode.noteOfLine host trimmed = some content) :
    Text.trim content = content ∧ content ≠ "" ∧ '\n' ∉ content.toList := by
  rw [noteOfLine] at h
  split at h
  · dsimp only at h
    split at h
    · rename_i hkept
      rw [← Option.some.inj h]
      rw [Bool.and_eq_true] at hkept
      refine ⟨?_, fun hnil => ?_, ?_⟩
      · cases stripBulletPrefix host trimmed with
        | none => exact htrim
        | some rest => exact Text.trim_trim rest
      · rw [Text.isEmpty_iff.mpr hnil] at hkept
        cases hkept.1
      · cases hbullet : stripBulletPrefix host trimmed with
        | none => exact hnewline
        | some rest => exact newline_not_mem_trim (newline_not_mem_stripBulletPrefix hnewline hbullet)
    · cases h
  · cases h

theorem mem_extractNotes {lines : List String} {inCodeBlock : Bool} {notes : List String}
    (h : note ∈ TuiMode.extractNotes host maxNotes lines inCodeBlock notes) :
    note ∈ notes ∨ ∃ line ∈ lines, TuiMode.noteOfLine host (Text.trim line) = some note := by
  induction lines generalizing inCodeBlock notes with
  | nil => exact Or.inl h
  | cons line lines ih =>
    have hrest : ∀ {inCodeBlock : Bool} {notes : List String},
        note ∈ extractNotes host maxNotes lines inCodeBlock notes →
        note ∈ notes ∨ ∃ l ∈ line :: lines, noteOfLine host (Text.trim l) = some note := by
      intro inCodeBlock notes hmem
      rcases ih hmem with hold | ⟨l, hl, hnote⟩
      · exact Or.inl hold
      · exact Or.inr ⟨l, List.mem_cons_of_mem _ hl, hnote⟩
    rw [extractNotes] at h
    split at h
    · exact hrest h
    split at h
    · exact hrest h
    have hpushed : note ∈ notes ++ (noteOfLine host (Text.trim line)).toList →
        note ∈ notes ∨ ∃ l ∈ line :: lines, noteOfLine host (Text.trim l) = some note := by
      intro hmem
      rcases List.mem_append.mp hmem with hold | hnew
      · exact Or.inl hold
      · exact Or.inr ⟨line, List.mem_cons_self, Option.mem_toList.mp hnew⟩
    dsimp only at h
    split at h
    · exact hpushed h
    · rcases hrest h with hmem | hlater
      · exact hpushed hmem
      · exact Or.inr hlater

theorem extractedNotes_form {response : String} (h : note ∈ extractedNotes host response maxNotes) :
    Text.trim note = note ∧ note ≠ "" ∧ '\n' ∉ note.toList := by
  rw [extractedNotes, extractNotesFromTurn] at h
  split at h
  · exact (List.not_mem_nil h).elim
  · rcases mem_extractNotes h with hnil | ⟨line, hline, hnote⟩
    · exact (List.not_mem_nil hnil).elim
    · exact noteOfLine_form (Text.trim_trim line)
        (newline_not_mem_trim (Text.newline_not_mem_of_mem_lines hline)) hnote

theorem timestamp_toString (n : ℕ) : Timestamp (toString n) := by
  refine ⟨fun c hc => digit_of_mem hc, fun hnil => ?_⟩
  have hlist := congrArg String.toList hnil
  rw [toList_toString] at hlist
  exact Nat.toDigits_ne_nil hlist

/-- The line of an extracted note has nothing to trim, and is one line. -/
theorem trim_autoLine (timestamp : String) (htrim : Text.trim note = note) (hne : note ≠ "") :
    Text.trim (autoLine timestamp note) = autoLine timestamp note := by
  have hlist : trim note.toList = note.toList := by
    have h := congrArg String.toList htrim
    rwa [Text.trim, String.toList_ofList] at h
  have hnil : note.toList ≠ [] := fun h => hne (String.toList_inj.mp h)
  rw [Text.trim]
  apply String.toList_inj.mp
  rw [String.toList_ofList]
  apply trim_eq_self_of_ends
  · intro c hc
    rw [autoLine_eq, String.toList_append] at hc
    obtain rfl : '[' = c := Option.some.inj hc
    decide
  · intro c hc
    rw [autoLine, String.toList_append, List.getLast?_append_of_ne_nil _ hnil, ← hlist] at hc
    exact getLast?_trim hc

theorem feedbackForm_extracted {response : String}
    (h : note ∈ extractedNotes host response maxNotes) (timestampSeconds : ℕ) :
    FeedbackForm (feedbackCandidate (autoLine (toString timestampSeconds) note)) := by
  obtain ⟨htrim, hne, hnewline⟩ := extractedNotes_form h
  refine feedbackForm_of_line (trim_autoLine _ htrim hne) ?_
    (isAutoNoteLine_autoLine (timestamp_toString timestampSeconds) note)
  rw [autoLine_eq]
  simp only [String.toList_append, List.mem_append, not_or]
  refine ⟨by decide, fun hmem => ?_, by decide, by decide, hnewline⟩
  exact absurd (digit_of_mem hmem) (by decide)

/-! ### What the calls do with the candidates -/

/-- The notes file is the projection of the JSON file, when that is there. -/
def InSync (files : NotesFiles) : Prop :=
  ∀ store ∈ files.sidecar, files.notes = some (renderNotesMarkdown store.candidates)

theorem inSync_persistStore (store : MemoryCandidateStore) : InSync (persistStore store) := by
  intro other hother
  cases hother
  rfl

theorem current_persistStore (store : MemoryCandidateStore) :
    current (persistStore store) = store.candidates := rfl

theorem loaded_inSync (h : InSync files) : InSync (loadOrMigrate files).1 := by
  rw [loadOrMigrate]
  split
  · exact h
  split
  · exact h
  · dsimp only
    split
    · exact h
    · exact inSync_persistStore _

theorem current_loaded (files : NotesFiles) : current (loadOrMigrate files).1 = current files := by
  obtain ⟨sidecar, notes⟩ := files
  cases sidecar with
  | some store => rfl
  | none =>
    cases notes with
    | none => rfl
    | some content =>
      have hload : loadOrMigrate { notes := some content } =
          (if (migrateMarkdownLines content).isEmpty then { notes := some content }
            else persistStore { candidates := migrateMarkdownLines content },
            { candidates := migrateMarkdownLines content }) := rfl
      have hcurrent : current { notes := some content } = migrateMarkdownLines content := rfl
      rw [hload]
      split
      · exact hcurrent
      · exact current_persistStore _

/-- Without the JSON file, the candidates are what their texts in the projection give. -/
theorem current_deleteSidecar (h : InSync files) :
    current { files with sidecar := none } = current files ∨
      current { files with sidecar := none } =
        (current files).flatMap fun candidate => migratePieces (renderCandidate candidate) := by
  obtain ⟨sidecar, notes⟩ := files
  cases sidecar with
  | none => exact Or.inl rfl
  | some store =>
    have hnotes : notes = some (renderNotesMarkdown store.candidates) := h store rfl
    rw [hnotes]
    exact Or.inr (migrate_renderNotes store.candidates)

/-! ### Steps -/

theorem Traced.addUserNote (h : Traced host events traced) (note : String) (candidate : MemoryCandidate)
    (hsource : candidate.source = .user) (hbody : candidate.body = note) :
    Traced host (events ++ [.addUserNote note]) (traced ++ [(candidate, .user events.length)]) := by
  refine (h.concat _).append ⟨⟨?_, List.nodup_nil, List.nodup_nil⟩, ?_⟩ ?_
  · intro entry hentry
    obtain rfl := List.mem_singleton.mp hentry
    exact ⟨note, List.getElem?_concat_length, Or.inl ⟨hsource, Or.inl hbody⟩⟩
  · intro entry hentry hfeedback
    obtain rfl := List.mem_singleton.mp hentry
    rw [hsource] at hfeedback
    cases hfeedback
  · intro entry hentry
    obtain rfl := List.mem_singleton.mp hentry
    exact ⟨rfl, fun place hplace => by cases hplace⟩

def feedbackEntries (event timestampSeconds : ℕ) (notes : List String) : List (MemoryCandidate × Origin) :=
  notes.zipIdx.map fun (note, position) =>
    (feedbackCandidate (autoLine (toString timestampSeconds) note), .feedback event position none)

theorem map_feedbackEntries (event timestampSeconds : ℕ) (notes : List String) :
    (feedbackEntries event timestampSeconds notes).map Prod.fst =
      (formatAutoNotes notes timestampSeconds).map feedbackCandidate := by
  have hnotes : notes.zipIdx.map Prod.fst = notes := List.zipIdx_map_fst 0 notes
  rw [feedbackEntries, formatAutoNotes, List.map_map, List.map_map]
  conv_rhs => rw [← hnotes, List.map_map]
  rfl

theorem places_feedbackEntries (event timestampSeconds : ℕ) (notes : List String) :
    ((feedbackEntries event timestampSeconds notes).filterMap fun entry => entry.2.place).Nodup := by
  have hplaces : ((feedbackEntries event timestampSeconds notes).filterMap
      fun entry => entry.2.place) = (notes.zipIdx.map Prod.snd).map fun position =>
        (event, position) := by
    rw [feedbackEntries, List.filterMap_map, List.map_map, ← List.filterMap_eq_map]
    rfl
  rw [hplaces, List.zipIdx_map_snd]
  exact List.Nodup.map (fun _ _ h => (Prod.mk.inj h).2) List.nodup_range'

theorem Traced.appendFeedbackNotes (h : Traced host events traced) (response : String)
    (maxNotes timestampSeconds : ℕ) :
    Traced host (events ++ [.appendFeedbackNotes response maxNotes timestampSeconds])
      (traced ++ feedbackEntries events.length timestampSeconds (extractedNotes host response maxNotes)) := by
  have hentries : ∀ entry ∈ feedbackEntries events.length timestampSeconds
      (extractedNotes host response maxNotes), ∃ note position,
        (extractedNotes host response maxNotes)[position]? = some note ∧
        entry = (feedbackCandidate (autoLine (toString timestampSeconds) note),
          .feedback events.length position none) := by
    intro entry hentry
    obtain ⟨⟨note, position⟩, hnote, hentry⟩ := List.mem_map.mp hentry
    exact ⟨note, position, List.mem_zipIdx_iff_getElem?.mp hnote, hentry.symm⟩
  refine (h.concat _).append ⟨⟨?_, places_feedbackEntries _ _ _, ?_⟩, ?_⟩ ?_
  · intro entry hentry
    obtain ⟨note, position, hnote, rfl⟩ := hentries entry hentry
    have hbody : (feedbackCandidate (autoLine (toString timestampSeconds) note)).body = note := by
      rw [feedbackCandidate_body, stripAutoNoteBody_autoLine (timestamp_toString timestampSeconds)]
    refine ⟨feedbackCandidate_source _,
      ⟨response, maxNotes, timestampSeconds, List.getElem?_concat_length, ?_⟩, ?_, ?_⟩
    · rw [hbody]
      exact hnote
    · intro haccepted
      cases haccepted
    · intro later hlater
      cases hlater
  · have hnone : ((feedbackEntries events.length timestampSeconds
        (extractedNotes host response maxNotes)).filterMap fun entry => entry.2.acceptance) = [] := by
      refine List.filterMap_eq_nil_iff.mpr fun entry hentry => ?_
      obtain ⟨note, position, -, rfl⟩ := hentries entry hentry
      rfl
    rw [hnone]
    exact List.nodup_nil
  · intro entry hentry _
    obtain ⟨note, position, hnote, rfl⟩ := hentries entry hentry
    exact feedbackForm_extracted (List.mem_of_getElem? hnote) timestampSeconds
  · intro entry hentry
    obtain ⟨note, position, -, rfl⟩ := hentries entry hentry
    refine ⟨rfl, fun place hplace old hold hsame => ?_⟩
    cases hplace
    exact absurd ((h.origins old hold).place_lt hsame) (Nat.lt_irrefl _)

theorem acceptPending_cases (files : NotesFiles) (selector : String) :
    current (acceptPending files selector).1 = current files ∨
      ∃ target candidate, (current files)[target]? = some candidate ∧
        current (acceptPending files selector).1 = (current files).modify target MemoryCandidate.accept ∧
        (acceptPending files selector).2 = some candidate.body := by
  cases htarget : acceptTarget (current files) selector with
  | none =>
    have haccept : acceptPending files selector = ((loadOrMigrate files).1, none) := by
      rw [acceptPending]
      dsimp only
      rw [← current, htarget]
    rw [haccept]
    exact Or.inl (current_loaded files)
  | some target =>
    have haccept : acceptPending files selector =
        (persistStore { (loadOrMigrate files).2 with
            candidates := (current files).modify target MemoryCandidate.accept },
          (current files)[target]?.map MemoryCandidate.body) := by
      rw [acceptPending]
      dsimp only
      rw [← current, htarget]
    rw [haccept]
    cases hget : (current files)[target]? with
    | none =>
      rw [List.modify_eq_self (List.getElem?_eq_none_iff.mp hget)]
      exact Or.inl rfl
    | some candidate => exact Or.inr ⟨target, candidate, hget, rfl, rfl⟩

def Origin.accept (event : ℕ) : Origin → Origin
  | .user added => .user added
  | .feedback added position _ => .feedback added position (some event)

theorem Origin.place_accept (event : ℕ) (origin : Origin) : (origin.accept event).place = origin.place := by
  cases origin <;> rfl

theorem Origin.acceptance_accept (event : ℕ) (origin : Origin) :
    (origin.accept event).acceptance = none ∨ (origin.accept event).acceptance = some event := by
  cases origin with
  | user added => exact Or.inl rfl
  | feedback added position acceptance => exact Or.inr rfl

theorem TakenFrom.accept (h : TakenFrom note candidate) : TakenFrom note candidate.accept := h

theorem ComesFrom.accept {selector : String} (h : ComesFrom host events candidate origin)
    (htook : (acceptPending (run host events) selector).2 = some candidate.body) :
    ComesFrom host (events ++ [.acceptPending selector]) candidate.accept (origin.accept events.length) := by
  cases origin with
  | user event =>
    obtain ⟨note, hevent, htaken⟩ := h
    exact ⟨note, getElem?_concat hevent _, htaken.accept⟩
  | feedback event position acceptance =>
    obtain ⟨hsource, ⟨response, maxNotes, timestamp, hevent, hbody⟩, -, -⟩ := h
    refine ⟨hsource, ⟨response, maxNotes, timestamp, getElem?_concat hevent _, hbody⟩, fun _ => rfl, ?_⟩
    intro later hlater
    cases hlater
    refine ⟨getElem?_lt hevent, selector, List.getElem?_concat_length, ?_⟩
    rw [List.take_left]
    exact htook

theorem Traced.acceptPending (h : Traced host events traced) {selector : String} {target : ℕ}
    (htarget : traced[target]? = some entry)
    (htook : (acceptPending (run host events) selector).2 = some entry.1.body) :
    Traced host (events ++ [.acceptPending selector])
      (traced.modify target fun entry => (entry.1.accept, entry.2.accept events.length)) := by
  obtain ⟨hlt, hget⟩ := List.getElem?_eq_some_iff.mp htarget
  have hold : traced = traced.take target ++ entry :: traced.drop (target + 1) := by
    rw [← hget, List.getElem_cons_drop, List.take_append_drop]
  have hnew : traced.modify target (fun entry => (entry.1.accept, entry.2.accept events.length)) =
      traced.take target ++ (entry.1.accept, entry.2.accept events.length) :: traced.drop (target + 1) := by
    rw [List.modify_eq_take_cons_drop hlt, hget]
  have hothers : ∀ other ∈ traced.take target ++ traced.drop (target + 1), other ∈ traced := by
    intro other hother
    rcases List.mem_append.mp hother with hother | hother
    · exact List.mem_of_mem_take hother
    · exact List.mem_of_mem_drop hother
  have hsub : (traced.take target ++ traced.drop (target + 1)).Sublist traced := by
    conv_rhs => rw [hold]
    exact List.Sublist.append_left (List.sublist_cons_self _ _) _
  rw [hnew]
  refine ⟨⟨?_, ?_, ?_⟩, ?_⟩
  · intro other hother
    rcases List.mem_cons.mp (List.perm_middle.subset hother) with rfl | hother
    · exact (h.origins entry (List.mem_of_getElem? htarget)).accept htook
    · exact (h.origins other (hothers other hother)).concat _
  · have hplaces := h.places
    rw [hold, List.filterMap_append] at hplaces
    rw [List.filterMap_append, List.filterMap_cons, Origin.place_accept]
    exact hplaces
  · have hrest : ((traced.take target ++ traced.drop (target + 1)).filterMap
        fun entry => entry.2.acceptance).Nodup := h.acceptances.sublist (hsub.filterMap _)
    refine ((List.perm_middle.filterMap _).nodup_iff).mpr ?_
    rw [List.filterMap_cons]
    rcases Origin.acceptance_accept events.length entry.2 with hnone | hsome
    · rw [hnone]
      exact hrest
    · rw [hsome]
      refine List.nodup_cons.mpr ⟨fun hmem => ?_, hrest⟩
      obtain ⟨other, hother, hsame⟩ := List.mem_filterMap.mp hmem
      exact absurd ((h.origins other (hothers other hother)).acceptance_lt hsame) (Nat.lt_irrefl _)
  · intro other hother
    rcases List.mem_cons.mp (List.perm_middle.subset hother) with rfl | hother
    · exact fun hsource => (h.forms entry (List.mem_of_getElem? htarget) hsource).accept
    · exact h.forms other (hothers other hother)

def Origin.reset : Origin → Origin
  | .user added => .user added
  | .feedback added position _ => .feedback added position none

/-- What an entry becomes when the projection is read back. -/
def migrateEntry (entry : MemoryCandidate × Origin) : List (MemoryCandidate × Origin) :=
  (migratePieces (renderCandidate entry.1)).map fun candidate => (candidate, entry.2.reset)

theorem migrateEntry_feedback (h : FeedbackForm entry.1) :
    migrateEntry entry = [({ entry.1 with status := .pending }, entry.2.reset)] := by
  rw [migrateEntry, migrate_renderCandidate_feedback h, List.map_singleton]

/-- The lines of a text taken from a note are lines of the note. -/
theorem takenFrom_migratePieces {migrated : MemoryCandidate}
    (hbody : candidate.body = note ∨ ∃ piece ∈ Text.pieces note, candidate.body = Text.trim piece)
    (h : migrated ∈ migratePieces candidate.body) : TakenFrom note migrated := by
  obtain ⟨piece, hpiece, hgives⟩ := mem_migratePieces h
  have hline : ∃ line ∈ Text.pieces note, Text.trim piece = Text.trim line := by
    rcases hbody with rfl | ⟨line, hline, hbody⟩
    · exact ⟨piece, hpiece, rfl⟩
    · rw [hbody, pieces_of_line (newline_not_mem_trim (Text.newline_not_mem_of_mem_pieces hline))] at hpiece
      obtain rfl := List.mem_singleton.mp hpiece
      exact ⟨line, hline, Text.trim_trim line⟩
  obtain ⟨line, hmem, hsame⟩ := hline
  rw [hsame] at hgives
  rcases hgives with ⟨hsource, htrim⟩ | ⟨hform, -, hauto, hstrip⟩
  · exact Or.inl ⟨hsource, Or.inr ⟨line, hmem, htrim⟩⟩
  · exact Or.inr ⟨hform.source, line, hmem, hauto, hstrip⟩

theorem comesFrom_migrateEntry {migrated : MemoryCandidate × Origin}
    (horigin : ComesFrom host events entry.1 entry.2)
    (hform : entry.1.source = .feedback → FeedbackForm entry.1) (h : migrated ∈ migrateEntry entry) :
    ComesFrom host events migrated.1 migrated.2 := by
  obtain ⟨candidate, origin⟩ := entry
  cases origin with
  | user event =>
    obtain ⟨note, hevent, htaken⟩ := horigin
    obtain ⟨other, hother, rfl⟩ := List.mem_map.mp h
    refine ⟨note, hevent, ?_⟩
    rcases htaken with ⟨hsource, hbody⟩ | htagged
    · have hrender : renderCandidate candidate = candidate.body := by
        rw [renderCandidate, hsource]
      rw [hrender] at hother
      exact takenFrom_migratePieces hbody hother
    · rw [migrate_renderCandidate_feedback (hform htagged.1)] at hother
      obtain rfl := List.mem_singleton.mp hother
      exact Or.inr htagged
  | feedback event position acceptance =>
    obtain ⟨hsource, hadded, -, -⟩ := horigin
    rw [migrateEntry_feedback (hform hsource)] at h
    obtain rfl := List.mem_singleton.mp h
    refine ⟨hsource, hadded, fun hstatus => ?_, fun _ haccepted => ?_⟩
    · cases hstatus
    · cases haccepted

theorem places_migrateEntry (horigin : ComesFrom host events entry.1 entry.2)
    (hform : entry.1.source = .feedback → FeedbackForm entry.1) :
    ((migrateEntry entry).filterMap fun entry => entry.2.place) = entry.2.place.toList := by
  obtain ⟨candidate, origin⟩ := entry
  cases origin with
  | user event =>
    refine List.filterMap_eq_nil_iff.mpr fun migrated h => ?_
    obtain ⟨other, -, rfl⟩ := List.mem_map.mp h
    rfl
  | feedback event position acceptance =>
    rw [migrateEntry_feedback (hform horigin.1)]
    rfl

theorem Traced.migrate (h : Traced host events traced) :
    Traced host events (traced.flatMap migrateEntry) := by
  have hplaces : ∀ {entries : List (MemoryCandidate × Origin)}, (∀ entry ∈ entries, entry ∈ traced) →
      ((entries.flatMap migrateEntry).filterMap fun entry => entry.2.place) =
        entries.filterMap fun entry => entry.2.place := by
    intro entries
    induction entries with
    | nil => exact fun _ => rfl
    | cons entry entries ih =>
      intro hall
      have hentry := hall entry List.mem_cons_self
      rw [List.flatMap_cons, List.filterMap_append,
        places_migrateEntry (h.origins entry hentry) (h.forms entry hentry),
        ih fun other hother => hall other (List.mem_cons_of_mem _ hother), List.filterMap_cons]
      cases entry.2.place <;> rfl
  have hacceptances : ((traced.flatMap migrateEntry).filterMap fun entry => entry.2.acceptance) = [] := by
    refine List.filterMap_eq_nil_iff.mpr fun migrated hmigrated => ?_
    obtain ⟨entry, -, hmem⟩ := List.mem_flatMap.mp hmigrated
    obtain ⟨other, -, rfl⟩ := List.mem_map.mp hmem
    show entry.2.reset.acceptance = none
    cases entry.2 <;> rfl
  refine ⟨⟨?_, ?_, ?_⟩, ?_⟩
  · intro migrated hmigrated
    obtain ⟨entry, hentry, hmem⟩ := List.mem_flatMap.mp hmigrated
    exact comesFrom_migrateEntry (h.origins entry hentry) (h.forms entry hentry) hmem
  · rw [hplaces fun entry hentry => hentry]
    exact h.places
  · rw [hacceptances]
    exact List.nodup_nil
  · intro migrated hmigrated hsource
    obtain ⟨entry, -, hmem⟩ := List.mem_flatMap.mp hmigrated
    obtain ⟨candidate, hcandidate, rfl⟩ := List.mem_map.mp hmem
    obtain ⟨piece, -, ⟨huser, -⟩ | ⟨hform, -⟩⟩ := mem_migratePieces hcandidate
    · rw [hsource] at huser
      cases huser
    · exact hform

theorem map_migrateEntry (traced : List (MemoryCandidate × Origin)) :
    (traced.flatMap migrateEntry).map Prod.fst =
      (traced.map Prod.fst).flatMap fun candidate => migratePieces (renderCandidate candidate) := by
  rw [List.map_flatMap, List.flatMap_map]
  refine List.flatMap_congr fun entry _ => ?_
  rw [migrateEntry, List.map_map]
  exact List.map_id _

/-! ### Whole runs -/

theorem run_concat (events : List Event) (last : Event) :
    run host (events ++ [last]) = (run host events).apply host last := by
  rw [run, List.foldl_append]
  rfl

theorem inSync_apply (h : InSync files) (event : Event) : InSync (files.apply host event) := by
  cases event with
  | addUserNote note | appendFeedbackNotes response maxNotes timestampSeconds | clearStore =>
    exact inSync_persistStore _
  | acceptPending selector =>
    show InSync (acceptPending files selector).1
    rw [acceptPending]
    dsimp only
    split
    · exact loaded_inSync h
    · exact inSync_persistStore _
  | removeFeedbackCandidates =>
    show InSync (removeFeedbackCandidates files).1
    rw [removeFeedbackCandidates]
    split
    · exact h
    · exact inSync_persistStore _
  | load => exact loaded_inSync h
  | deleteSidecar => exact fun store hstore => by cases hstore

theorem current_removeFeedback (files : NotesFiles) :
    current (removeFeedbackCandidates files).1 =
      (current files).filter fun candidate => candidate.source ≠ .feedback := by
  rw [removeFeedbackCandidates]
  split
  · rename_i hnone
    obtain ⟨sidecar, notes⟩ := files
    rw [Bool.and_eq_true, Option.isNone_iff_eq_none, Option.isNone_iff_eq_none] at hnone
    obtain ⟨rfl, rfl⟩ := hnone
    rfl
  · rfl

theorem map_modify_accept (traced : List (MemoryCandidate × Origin)) (target event : ℕ) :
    (traced.modify target fun entry => (entry.1.accept, entry.2.accept event)).map Prod.fst =
      (traced.map Prod.fst).modify target MemoryCandidate.accept := by
  apply List.ext_getElem?
  intro i
  rw [List.getElem?_map, List.getElem?_modify, List.getElem?_modify, List.getElem?_map]
  cases traced[i]? with
  | none => rfl
  | some entry =>
    show some (if target = i then (entry.1.accept, entry.2.accept event) else entry).1 =
      some (if target = i then entry.1.accept else entry.1)
    split <;> rfl

theorem traced_apply (hsync : InSync (run host events)) (h : Traced host events traced)
    (hcurrent : traced.map Prod.fst = current (run host events)) (event : Event) :
    ∃ traced', traced'.map Prod.fst = current (run host (events ++ [event])) ∧
      Traced host (events ++ [event]) traced' := by
  rw [run_concat]
  cases event with
  | addUserNote note =>
    refine ⟨_, ?_, h.addUserNote note
      ⟨.user, topicFrom note, note, .accepted, "/memory add"⟩ rfl rfl⟩
    rw [List.map_append, hcurrent]
    rfl
  | appendFeedbackNotes response maxNotes timestampSeconds =>
    refine ⟨_, ?_, h.appendFeedbackNotes response maxNotes timestampSeconds⟩
    rw [List.map_append, map_feedbackEntries, hcurrent]
    rfl
  | acceptPending selector =>
    rcases acceptPending_cases (run host events) selector with
      hsame | ⟨target, candidate, htarget, haccepted, htook⟩
    · exact ⟨traced, hcurrent.trans hsame.symm, h.concat _⟩
    · rw [← hcurrent, List.getElem?_map, Option.map_eq_some_iff] at htarget
      obtain ⟨entry, hentry, rfl⟩ := htarget
      refine ⟨_, ?_, h.acceptPending hentry htook⟩
      rw [map_modify_accept, hcurrent]
      exact haccepted.symm
  | removeFeedbackCandidates =>
    refine ⟨traced.filter fun entry => entry.1.source ≠ .feedback, ?_,
      (h.concat _).sublist List.filter_sublist⟩
    show _ = current (removeFeedbackCandidates (run host events)).1
    rw [current_removeFeedback, ← hcurrent, List.filter_map]
    rfl
  | clearStore => exact ⟨[], rfl, Traced.nil⟩
  | load => exact ⟨traced, (current_loaded (run host events)).symm ▸ hcurrent, h.concat _⟩
  | deleteSidecar =>
    rcases current_deleteSidecar hsync with hsame | hmigrated
    · exact ⟨traced, hcurrent.trans hsame.symm, h.concat _⟩
    · refine ⟨traced.flatMap migrateEntry, ?_, (h.migrate).concat _⟩
      rw [map_migrateEntry, hcurrent]
      exact hmigrated.symm

theorem run_traced (host : Host) (events : List Event) :
    InSync (run host events) ∧
      ∃ traced, traced.map Prod.fst = current (run host events) ∧ Traced host events traced := by
  induction events using List.reverseRecOn with
  | nil =>
    refine ⟨fun store hstore => ?_, [], rfl, Traced.nil⟩
    cases hstore
  | append_singleton events event ih =>
    obtain ⟨hsync, traced, hcurrent, htraced⟩ := ih
    refine ⟨?_, traced_apply hsync htraced hcurrent event⟩
    rw [run_concat]
    exact inSync_apply hsync event

/-- **No unreviewed note is injected.**  After any calls, with the JSON file deleted at any point, every
candidate is text that the user added or one occurrence of an extracted note; an accepted one of these
was accepted after it was appended.  What is injected is a prefix of the accepted ones, and the longest
that fits the budget where their counts sum to a `usize`. -/
theorem reviewed_and_longest (host : Host) (events : List Event) :
    let store := (loadOrMigrate (run host events)).2
    (∃ traced, traced.map Prod.fst = store.candidates ∧ Reviewed host events traced) ∧
      ∀ (overflowChecks : Bool) (tokenCount : String → UInt64) (tokenBudget : ℕ),
        ((acceptedByPriority tokenCount store).map Prod.fst).Perm
            (store.candidates.filter fun candidate => candidate.status = .accepted) ∧
          (∀ content warning, injectAccepted overflowChecks tokenCount store tokenBudget =
              some (content, warning) →
            ∃ kept, content = injectedContent ((acceptedByPriority tokenCount store).take kept)) ∧
          (((acceptedByPriority tokenCount store).map Prod.snd).sum < 2 ^ 64 →
            ∃ kept, LongestPrefix overflowChecks tokenCount store tokenBudget kept) := by
  intro store
  obtain ⟨-, traced, hcurrent, htraced⟩ := run_traced host events
  refine ⟨⟨traced, hcurrent, htraced.toReviewed⟩, fun overflowChecks tokenCount tokenBudget =>
    ⟨acceptedByPriority_perm store, fun _ _ h => injected_prefix h,
      fun hsum => injected_longest store tokenBudget hsum⟩⟩

/-- An extracted note is accepted, comes back pending when the JSON file is deleted, and is accepted
again, behind a note of the user and in front of one that stays pending. -/
def reviewedEvents : List Event :=
  [.appendFeedbackNotes "- tests are in spec/" 5 17, .acceptPending "1", .addUserNote "use tabs",
    .deleteSidecar, .acceptPending "spec", .appendFeedbackNotes "- no macros" 5 18]

/-- The budget has room for one note: the extracted one is dropped, and the pending one was never there. -/
theorem reviewed_notes_cut :
    let store := (loadOrMigrate (run TuiMode.sampleHost reviewedEvents)).2
    (acceptedByPriority (fun _ => 1) store).map (fun entry => entry.1.body) =
        ["use tabs", "tests are in spec/"] ∧
      injectAccepted true (fun _ => 1) store 1 = some (some "use tabs",
        some "[memory] dropped 1 accepted candidate(s) over token budget (1)") ∧
      ∃ kept, LongestPrefix true (fun _ => 1) store 1 kept :=
  ⟨by decide +kernel, by decide +kernel,
    ((reviewed_and_longest sampleHost reviewedEvents).2 true (fun _ => 1) 1).2.2 (by decide +kernel)⟩

/-- Two notes whose counts are the largest `usize`: the sum wraps, and one of them is injected that is
far over the budget, or the call panics. -/
theorem huge_counts_not_cut :
    let store := (loadOrMigrate (run TuiMode.sampleHost [.addUserNote "a", .addUserNote "a"])).2
    injectAccepted false (fun _ => UInt64.ofNat (2 ^ 64 - 1)) store 0 =
        some (some "a", some "[memory] dropped 1 accepted candidate(s) over token budget (0)") ∧
      injectAccepted true (fun _ => UInt64.ofNat (2 ^ 64 - 1)) store 0 = none := by
  decide +kernel

end Vexcoder.App.Memory
