import Vexcoder.App.MemoryCandidates

/-!
# The markdown projection of the candidates

An auto line carries the timestamp and the body of a feedback note.  Read back, the projection gives for
every candidate what its own lines give (`migrate_renderNotes`), and for a feedback candidate that is the
candidate itself, pending again (`migrate_renderCandidate_feedback`).
-/

namespace Vexcoder.App.Memory

open Base Lib.Search Tools

/-! ### Trimmed text -/

theorem trim_eq_self_of_ends {s : List Char} (hhead : ∀ c ∈ s.head?, isWhitespace c = false)
    (hlast : ∀ c ∈ s.getLast?, isWhitespace c = false) : trim s = s := by
  have hstart : trimStart s = s := by
    cases s with
    | nil => rfl
    | cons c s =>
      have hc : isWhitespace c = false := hhead c rfl
      exact List.dropWhile_cons_of_neg (by rw [hc]; exact Bool.false_ne_true)
  rw [trim, hstart, trimEnd]
  rcases s.eq_nil_or_concat' with rfl | ⟨front, c, rfl⟩
  · rfl
  · have hc : isWhitespace c = false := hlast c List.getLast?_concat
    rw [List.reverse_append, List.reverse_singleton, List.singleton_append,
      List.dropWhile_cons_of_neg (by rw [hc]; exact Bool.false_ne_true), List.reverse_cons,
      List.reverse_reverse]

theorem getLast?_trim {s : List Char} {c : Char} (h : c ∈ (trim s).getLast?) : isWhitespace c = false := by
  rw [trim, trimEnd, List.getLast?_reverse] at h
  have hnot := List.head?_dropWhile_not isWhitespace (trimStart s).reverse
  rw [Option.mem_def.mp h] at hnot
  simpa using hnot

theorem trim_infix (s : List Char) : trim s <:+: s := by
  have hpre : trim s <+: trimStart s := List.rdropWhile_prefix isWhitespace (trimStart s)
  exact hpre.isInfix.trans (List.dropWhile_suffix _).isInfix

theorem text_trimStart_trim (s : String) : Text.trimStart (Text.trim s) = Text.trim s := by
  rw [Text.trimStart, Text.trim, String.toList_ofList, trimStart_trim]

theorem newline_not_mem_trim {s : String} (h : '\n' ∉ s.toList) : '\n' ∉ (Text.trim s).toList := by
  rw [Text.trim, String.toList_ofList]
  exact fun hmem => h (( trim_infix s.toList).subset hmem)

/-! ### Auto lines -/

theorem stripPrefix_append (pat s : String) : Text.stripPrefix (pat ++ s) pat = some s := by
  have hpre : Text.startsWith (pat ++ s) pat = true := by
    rw [Text.startsWith, String.toList_append, List.isPrefixOf_iff_prefix]
    exact List.prefix_append _ _
  rw [Text.stripPrefix, if_pos hpre, String.toList_append, List.drop_left, String.ofList_toList]

theorem eq_of_stripPrefix {s pat rest : String} (h : Text.stripPrefix s pat = some rest) :
    s = pat ++ rest := by
  rw [Text.stripPrefix] at h
  split at h
  · rename_i hpre
    rw [Text.startsWith, List.isPrefixOf_iff_prefix] at hpre
    obtain ⟨t, ht⟩ := hpre
    cases h
    apply String.toList_inj.mp
    rw [String.toList_append, String.toList_ofList, ← ht, List.drop_left]
  · cases h

theorem splitOnce_append {front pat : String} {c : Char} (hhead : pat.toList.head? = some c)
    (hfront : c ∉ front.toList) (behind : String) :
    Text.splitOnce (front ++ (pat ++ behind)) pat = some (front, behind) := by
  have hfind : find pat.toList (front.toList ++ (pat.toList ++ behind.toList)) = some front.toList.length :=
    find_behind (not_prefix_of_head hhead hfront _) (List.prefix_append _ _)
  rw [Text.splitOnce, String.toList_append, String.toList_append, hfind, Option.map_some,
    List.take_left, ← List.append_assoc, ← List.length_append, List.drop_left,
    String.ofList_toList, String.ofList_toList]

theorem eq_of_splitOnce {s pat front behind : String}
    (h : Text.splitOnce s pat = some (front, behind)) : s = front ++ (pat ++ behind) := by
  rw [Text.splitOnce, Option.map_eq_some_iff] at h
  obtain ⟨i, hfind, hparts⟩ := h
  cases hparts
  apply String.toList_inj.mp
  rw [String.toList_append, String.toList_append, String.toList_ofList, String.toList_ofList,
    ← List.append_assoc, ← find_split hfind]

/-- `[timestamp] [auto] body` -/
def autoLine (timestamp body : String) : String := "[" ++ timestamp ++ "] [auto] " ++ body

structure Timestamp (timestamp : String) : Prop where
  digits : ∀ c ∈ timestamp.toList, c.isDigit = true
  nonempty : timestamp ≠ ""

variable {timestamp body : String}

theorem autoLine_eq (timestamp body : String) :
    autoLine timestamp body = "[" ++ (timestamp ++ ("] " ++ ("[auto] " ++ body))) := by
  apply String.toList_inj.mp
  simp [autoLine]

theorem autoLine_eq_bracket (timestamp body : String) :
    autoLine timestamp body = "[" ++ (timestamp ++ ("]" ++ (" [auto] " ++ body))) := by
  apply String.toList_inj.mp
  simp [autoLine]

theorem trimStart_autoLine (timestamp body : String) :
    Text.trimStart (autoLine timestamp body) = autoLine timestamp body := by
  apply String.toList_inj.mp
  rw [autoLine_eq, Text.trimStart, String.toList_ofList, String.toList_append]
  rfl

theorem Timestamp.bracket_not_mem (h : Timestamp timestamp) : ']' ∉ timestamp.toList :=
  fun hmem => absurd (h.digits ']' hmem) (by decide)

theorem splitOnce_autoLine (h : Timestamp timestamp) (body : String) :
    Text.splitOnce (timestamp ++ ("] " ++ ("[auto] " ++ body))) "] " =
      some (timestamp, "[auto] " ++ body) :=
  splitOnce_append rfl h.bracket_not_mem _

theorem isAutoNoteLine_autoLine (h : Timestamp timestamp) (body : String) :
    isAutoNoteLine (autoLine timestamp body) = true := by
  have hempty : Text.isEmpty timestamp = false :=
    Bool.eq_false_iff.mpr fun hempty => h.nonempty (Text.isEmpty_iff.mp hempty)
  have hdigits : timestamp.toList.all Char.isDigit = true := List.all_eq_true.mpr h.digits
  have htag : Text.startsWith ("[auto] " ++ body) "[auto] " = true := by
    rw [Text.startsWith, String.toList_append, List.isPrefixOf_iff_prefix]
    exact List.prefix_append _ _
  rw [isAutoNoteLine, trimStart_autoLine, autoLine_eq, stripPrefix_append]
  dsimp only
  rw [splitOnce_autoLine h]
  show (!Text.isEmpty timestamp && timestamp.toList.all Char.isDigit &&
    Text.startsWith ("[auto] " ++ body) "[auto] ") = true
  rw [hempty, hdigits, htag]
  rfl

theorem stripAutoNoteBody_autoLine (h : Timestamp timestamp) (body : String) :
    stripAutoNoteBody (autoLine timestamp body) = body := by
  rw [stripAutoNoteBody, trimStart_autoLine, autoLine_eq, stripPrefix_append, Option.bind_some,
    splitOnce_autoLine h, Option.bind_some, stripPrefix_append, Option.getD_some]

theorem parseAutoTimestamp_autoLine (h : Timestamp timestamp) (body : String) :
    parseAutoTimestamp (autoLine timestamp body) = timestamp := by
  have hempty : Text.isEmpty timestamp = false :=
    Bool.eq_false_iff.mpr fun hempty => h.nonempty (Text.isEmpty_iff.mp hempty)
  have hdigits : timestamp.toList.all Char.isDigit = true := List.all_eq_true.mpr h.digits
  have hsplit : Text.splitOnce (timestamp ++ ("]" ++ (" [auto] " ++ body))) "]" =
      some (timestamp, " [auto] " ++ body) := splitOnce_append rfl h.bracket_not_mem _
  rw [parseAutoTimestamp, trimStart_autoLine, autoLine_eq_bracket, stripPrefix_append,
    Option.bind_some, hsplit, Option.map_some, Option.filter_some_pos, Option.getD_some]
  rw [hempty, hdigits]
  rfl

theorem eq_autoLine {line : String} (hstart : Text.trimStart line = line)
    (h : isAutoNoteLine line = true) : ∃ timestamp body, Timestamp timestamp ∧
      line = autoLine timestamp body := by
  rw [isAutoNoteLine, hstart] at h
  split at h
  · cases h
  rename_i rest hrest
  split at h
  · cases h
  rename_i timestamp suffix hsplit
  rw [Bool.and_eq_true, Bool.and_eq_true, List.all_eq_true] at h
  obtain ⟨⟨hempty, hdigits⟩, htag⟩ := h
  have hbody : Text.stripPrefix suffix "[auto] " =
      some (String.ofList (suffix.toList.drop "[auto] ".toList.length)) := if_pos htag
  refine ⟨timestamp, String.ofList (suffix.toList.drop "[auto] ".toList.length),
    ⟨hdigits, fun hnil => ?_⟩, ?_⟩
  · rw [Text.isEmpty_iff.mpr hnil] at hempty
    cases hempty
  · rw [autoLine_eq, ← eq_of_stripPrefix hbody, ← eq_of_splitOnce hsplit]
    exact eq_of_stripPrefix hrest

theorem feedbackCandidate_autoLine (h : Timestamp timestamp) (body : String) :
    feedbackCandidate (autoLine timestamp body) =
      { source := .feedback
        topic := topicFrom body
        body
        status := .pending
        sourceReference := "auto:" ++ timestamp } := by
  rw [feedbackCandidate, stripAutoNoteBody_autoLine h, parseAutoTimestamp_autoLine h]

theorem feedbackCandidate_source (line : String) : (feedbackCandidate line).source = .feedback := rfl

theorem feedbackCandidate_status (line : String) : (feedbackCandidate line).status = .pending := rfl

theorem feedbackCandidate_body (line : String) : (feedbackCandidate line).body = stripAutoNoteBody line := rfl

/-- A feedback candidate whose line in the projection is its auto line, with nothing to trim. -/
structure FeedbackForm (candidate : MemoryCandidate) : Prop where
  source : candidate.source = .feedback
  topic : candidate.topic = topicFrom candidate.body
  line : ∃ timestamp, Timestamp timestamp ∧ candidate.sourceReference = "auto:" ++ timestamp ∧
    Text.trim (autoLine timestamp candidate.body) = autoLine timestamp candidate.body ∧
    '\n' ∉ (autoLine timestamp candidate.body).toList

theorem FeedbackForm.accept {candidate : MemoryCandidate} (h : FeedbackForm candidate) :
    FeedbackForm candidate.accept := ⟨h.source, h.topic, h.line⟩

/-- A trimmed line that is taken for an auto line gives a feedback candidate of this form. -/
theorem feedbackForm_of_line {line : String} (htrim : Text.trim line = line)
    (hnewline : '\n' ∉ line.toList) (h : isAutoNoteLine line = true) :
    FeedbackForm (feedbackCandidate line) := by
  have hstart : Text.trimStart line = line := by
    have htrimmed := text_trimStart_trim line
    rwa [htrim] at htrimmed
  obtain ⟨timestamp, body, hstamp, hline⟩ := eq_autoLine hstart h
  rw [hline] at htrim hnewline ⊢
  rw [feedbackCandidate_autoLine hstamp]
  refine ⟨?_, ?_, timestamp, hstamp, ?_, htrim, hnewline⟩ <;> dsimp only

/-! ### The projection is read back -/

def migratePieces (text : String) : List MemoryCandidate := (Text.pieces text).filterMap migrateLine

theorem migrateLine_blank : migrateLine "" = none := by decide

theorem text_trim_withoutCr (piece : String) : Text.trim (Text.withoutCr piece) = Text.trim piece := by
  rw [Text.trim, Text.trim, Text.withoutCr, String.toList_ofList, Text.stripCarriageReturn]
  split
  · rename_i hcr
    obtain ⟨front, hfront⟩ := List.getLast?_eq_some_iff.mp hcr
    rw [hfront, List.dropLast_concat, trim, trim]
    have hblank : isWhitespace '\r' = true := by decide
    by_cases hall : front.all isWhitespace = true
    · have hnil : trimStart front = [] := List.dropWhile_eq_nil_iff.mpr (List.all_eq_true.mp hall)
      have hcrNil : trimStart (front ++ ['\r']) = [] :=
        List.dropWhile_eq_nil_iff.mpr fun c hc => by
          rcases List.mem_append.mp hc with hc | hc
          · exact List.all_eq_true.mp hall c hc
          · obtain rfl := List.mem_singleton.mp hc
            exact hblank
      rw [hnil, hcrNil]
    · have hstart : trimStart (front ++ ['\r']) = trimStart front ++ ['\r'] := by
        rw [trimStart, List.dropWhile_append, if_neg]
        · rfl
        · rw [List.isEmpty_iff, List.dropWhile_eq_nil_iff]
          exact fun h => hall (List.all_eq_true.mpr h)
      rw [hstart, trimEnd, trimEnd, List.reverse_append, List.reverse_singleton,
        List.singleton_append, List.dropWhile_cons_of_pos hblank]
  · rfl

theorem migrateLine_withoutCr (piece : String) : migrateLine (Text.withoutCr piece) = migrateLine piece := by
  rw [migrateLine, migrateLine, text_trim_withoutCr]

/-- A carriage return and a last line feed make no difference to what the lines give. -/
theorem filterMap_relined (K : List String) :
    (Text.relined K).filterMap migrateLine = K.filterMap migrateLine := by
  induction K with
  | nil => rfl
  | cons piece K ih =>
    cases K with
    | nil =>
      rw [Text.relined]
      split
      · rename_i hblank
        rw [hblank, List.filterMap_cons_none migrateLine_blank]
      · rfl
    | cons next rest =>
      rw [Text.relined_cons (List.cons_ne_nil _ _), List.filterMap_cons, migrateLine_withoutCr, ih,
        ← List.filterMap_cons]

theorem migrateMarkdownLines_eq (content : String) :
    migrateMarkdownLines content = migratePieces content := by
  rw [migrateMarkdownLines, Text.lines_eq_relined, filterMap_relined, migratePieces]

theorem migratePieces_append (text rest : String) :
    migratePieces (text ++ "\n" ++ rest) = migratePieces text ++ migratePieces rest := by
  have hpieces : Text.pieces (text ++ "\n" ++ rest) = Text.pieces text ++ Text.pieces rest := by
    rw [Text.pieces, Text.pieces, Text.pieces, String.toList_append, String.toList_append,
      Text.toList_newline, List.append_assoc, List.singleton_append, splitOn_eq, splitOn_eq,
      splitOn_eq, List.splitOn_append_cons_self, List.map_append]
  rw [migratePieces, hpieces, List.filterMap_append]
  rfl

theorem migrate_renderNotes (candidates : List MemoryCandidate) :
    migrateMarkdownLines (renderNotesMarkdown candidates) =
      candidates.flatMap fun candidate => migratePieces (renderCandidate candidate) := by
  rw [migrateMarkdownLines_eq, renderNotesMarkdown]
  induction candidates with
  | nil => decide
  | cons candidate rest ih =>
    have hjoin : Text.join "" ((candidate :: rest).map fun c => renderCandidate c ++ "\n") =
        renderCandidate candidate ++ "\n" ++
          Text.join "" (rest.map fun c => renderCandidate c ++ "\n") := by
      apply String.toList_inj.mp
      rw [List.map_cons, String.toList_append, Text.toList_join_empty, Text.toList_join_empty,
        List.flatMap_cons]
    rw [hjoin, migratePieces_append, ih, List.flatMap_cons]

theorem pieces_of_line {line : String} (h : '\n' ∉ line.toList) : Text.pieces line = [line] :=
  Text.pieces_join (List.cons_ne_nil line []) fun l hl => by
    obtain rfl := List.mem_singleton.mp hl
    exact h

theorem migratePieces_of_line {line : String} (h : '\n' ∉ line.toList) :
    migratePieces line = (migrateLine line).toList := by
  rw [migratePieces, pieces_of_line h]
  cases hline : migrateLine line with
  | none => rw [List.filterMap_cons_none hline]; rfl
  | some candidate => rw [List.filterMap_cons_some hline]; rfl

/-- A feedback candidate comes back pending. -/
theorem migrate_renderCandidate_feedback {candidate : MemoryCandidate} (h : FeedbackForm candidate) :
    migratePieces (renderCandidate candidate) = [{ candidate with status := .pending }] := by
  obtain ⟨hsource, htopic, timestamp, hstamp, hreference, htrim, hnewline⟩ := h
  have hrender : renderCandidate candidate = autoLine timestamp candidate.body := by
    rw [renderCandidate, hsource, hreference]
    rw [stripPrefix_append]
    rfl
  have hnonempty : ¬ Text.isEmpty (autoLine timestamp candidate.body) = true := by
    rw [Text.isEmpty, autoLine_eq, String.toList_append]
    exact Bool.false_ne_true
  have hline : migrateLine (autoLine timestamp candidate.body) =
      some { candidate with status := .pending } := by
    rw [migrateLine]
    show (if Text.isEmpty (Text.trim (autoLine timestamp candidate.body)) then none else _) = _
    rw [htrim, if_neg hnonempty, if_pos (isAutoNoteLine_autoLine hstamp _),
      feedbackCandidate_autoLine hstamp, ← htopic, ← hreference, ← hsource]
  rw [hrender, migratePieces_of_line hnewline, hline, Option.toList_some]

/-- What a line gives is accepted for the user's own text, and a feedback candidate otherwise. -/
theorem mem_migratePieces {text : String} {candidate : MemoryCandidate}
    (h : candidate ∈ migratePieces text) : ∃ piece ∈ Text.pieces text,
      (candidate.source = .user ∧ candidate.body = Text.trim piece) ∨
      (FeedbackForm candidate ∧ candidate.status = .pending ∧
        isAutoNoteLine (Text.trim piece) = true ∧
        candidate.body = stripAutoNoteBody (Text.trim piece)) := by
  obtain ⟨piece, hpiece, hline⟩ := List.mem_filterMap.mp h
  refine ⟨piece, hpiece, ?_⟩
  rw [migrateLine] at hline
  split at hline
  · cases hline
  split at hline
  · rename_i hauto
    have hform := feedbackForm_of_line (Text.trim_trim piece)
      (newline_not_mem_trim (Text.newline_not_mem_of_mem_pieces hpiece)) hauto
    rw [← Option.some.inj hline]
    exact Or.inr ⟨hform, feedbackCandidate_status _, hauto, feedbackCandidate_body _⟩
  · rw [← Option.some.inj hline]
    exact Or.inl ⟨rfl, rfl⟩

end Vexcoder.App.Memory
