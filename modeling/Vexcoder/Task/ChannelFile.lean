import Vexcoder.Lib.LineChunks
import Vexcoder.Stream.SseChunks
import Vexcoder.Task.PeerDelivery

/-!
# The bytes of the channel file

The file is read line by line: a line must be a text, and the reader skips one of more than
`maxLineBytes` bytes, which the writer does not look at.  Bytes that a failed write left behind have no
line feed at their end, and the next message is written behind them in the same line.
-/

namespace Vexcoder.Task

open Base Lib
open Lib.LineChunks
open Vexcoder.Stream (lineFeed)

def utf8 (text : List Char) : List UInt8 := text.flatMap String.utf8EncodeChar

/-- The bytes of a message without the line feed. -/
def messageBytes (codec : PeerMessageCodec) (message : PeerMessage) : List UInt8 :=
  utf8 (codec.toString message).toList

/-- `count_lines`: what is no text is not counted. -/
def countFileLines (file : List UInt8) : ℕ :=
  (chunks lineFeed file).countP fun chunk =>
    match fromUtf8 chunk with
    | none => false
    | some line => !(trim line).isEmpty

/-- `append_message_inner`; a file that does not exist has no bytes. -/
def appendToFile (codec : PeerMessageCodec) (file : List UInt8) (message : PeerMessage) :
    Except AppendMessageError (List UInt8) :=
  if maxChannelDepth ≤ countFileLines file then .error .channelFull
  else if maxChannelFileBytes ≤ file.length then .error .channelFull
  else .ok (file ++ (messageBytes codec message ++ [lineFeed]))

/-- The loop of `read_messages`: the line that is no text is an error. -/
def readChunks (codec : PeerMessageCodec) (afterMs : ℕ) (recipientFilter : Option String)
    (results : List PeerMessage) : List (List UInt8) → Option (List PeerMessage)
  | [] => some results
  | chunk :: rest =>
    match fromUtf8 chunk with
    | none => none
    | some line =>
      if maxLineBytes < chunk.length || (trim line).isEmpty then
        readChunks codec afterMs recipientFilter results rest
      else
        match codec.fromStr (String.ofList (trim line)) with
        | none => readChunks codec afterMs recipientFilter results rest
        | some message =>
          if message.sentAt ≤ afterMs then readChunks codec afterMs recipientFilter results rest
          else if !addressedTo recipientFilter message then
            readChunks codec afterMs recipientFilter results rest
          else
            let results := results ++ [message]
            if maxChannelReadBatch ≤ results.length then some results
            else readChunks codec afterMs recipientFilter results rest

/-- `read_messages` -/
def readFile (codec : PeerMessageCodec) (file : List UInt8) (afterMs : ℕ)
    (recipientFilter : Option String) : Option (List PeerMessage) :=
  readChunks codec afterMs recipientFilter [] (chunks lineFeed file)

/-! ### What a line holds -/

def IsText (chunk : List UInt8) : Prop := (fromUtf8 chunk).isSome = true

/-- The message of a line, also of one that is too long for the reader. -/
def parseChunk (codec : PeerMessageCodec) (chunk : List UInt8) : Option PeerMessage :=
  (fromUtf8 chunk).bind fun line =>
    if (trim line).isEmpty then none else codec.fromStr (String.ofList (trim line))

def messagesOf (codec : PeerMessageCodec) (file : List UInt8) : List PeerMessage :=
  (chunks lineFeed file).filterMap (parseChunk codec)

def readChunk (codec : PeerMessageCodec) (afterMs : ℕ) (recipientFilter : Option String)
    (chunk : List UInt8) : Option PeerMessage :=
  if maxLineBytes < chunk.length then none
  else (parseChunk codec chunk).filter fun message =>
    decide (afterMs < message.sentAt) && addressedTo recipientFilter message

def LineReads (codec : PeerMessageCodec) (message : PeerMessage) (chunk : List UInt8) : Prop :=
  chunk.length ≤ maxLineBytes ∧ parseChunk codec chunk = some message

variable {codec : PeerMessageCodec} {recipientFilter : Option String} {afterMs : ℕ}
  {message : PeerMessage} {chunk : List UInt8} {cs front rest : List (List UInt8)}
  {results messages : List PeerMessage} {file : List UInt8}

theorem readChunks_cons (htext : IsText chunk) :
    readChunks codec afterMs recipientFilter results (chunk :: rest) =
      match readChunk codec afterMs recipientFilter chunk with
      | none => readChunks codec afterMs recipientFilter results rest
      | some message =>
        if maxChannelReadBatch ≤ (results ++ [message]).length then some (results ++ [message])
        else readChunks codec afterMs recipientFilter (results ++ [message]) rest := by
  obtain ⟨line, hline⟩ := Option.isSome_iff_exists.mp htext
  rw [readChunks, readChunk, parseChunk, hline]
  dsimp only [Option.bind_some]
  by_cases hlong : maxLineBytes < chunk.length
  · rw [if_pos hlong, if_pos (by rw [decide_eq_true hlong]; rfl)]
  rw [if_neg hlong, decide_eq_false hlong, Bool.false_or]
  cases hblank : (trim line).isEmpty with
  | true => rfl
  | false =>
    rw [if_neg Bool.false_ne_true, if_neg Bool.false_ne_true]
    cases codec.fromStr (String.ofList (trim line)) with
    | none => rfl
    | some message =>
      have hfilter : (some message).filter (fun message =>
          decide (afterMs < message.sentAt) && addressedTo recipientFilter message) =
            if afterMs < message.sentAt ∧ addressedTo recipientFilter message = true then some message
            else none := by
        simp only [Option.filter, Bool.and_eq_true, decide_eq_true_eq]
      rw [hfilter]
      dsimp only
      by_cases hold : message.sentAt ≤ afterMs
      · rw [if_pos hold, if_neg fun h => absurd h.1 (Nat.not_lt.mpr hold)]
      rw [if_neg hold]
      by_cases haddressed : addressedTo recipientFilter message = true
      · have hnot : ¬(!addressedTo recipientFilter message) = true := by simp [haddressed]
        have hboth : afterMs < message.sentAt ∧ addressedTo recipientFilter message = true :=
          ⟨Nat.lt_of_not_le hold, haddressed⟩
        rw [if_neg hnot, if_pos hboth]
      · have hnot : (!addressedTo recipientFilter message) = true := by simp [haddressed]
        rw [if_pos hnot, if_neg fun h => haddressed h.2]

theorem readChunk_parse (h : readChunk codec afterMs recipientFilter chunk = some message) :
    parseChunk codec chunk = some message ∧ chunk.length ≤ maxLineBytes := by
  rw [readChunk] at h
  split at h
  · cases h
  · rename_i hlong
    exact ⟨(Option.filter_eq_some_iff.mp h).1, Nat.le_of_not_lt hlong⟩

theorem readChunk_of_lineReads (h : LineReads codec message chunk) (hafter : afterMs < message.sentAt) :
    readChunk codec afterMs none chunk = some message := by
  rw [readChunk, if_neg (Nat.not_lt.mpr h.1), h.2, Option.filter_some]
  rw [decide_eq_true hafter]
  rfl

theorem readChunk_sublist (codec : PeerMessageCodec) (afterMs : ℕ) (recipientFilter : Option String)
    (cs : List (List UInt8)) :
    (cs.filterMap (readChunk codec afterMs recipientFilter)).Sublist (cs.filterMap (parseChunk codec)) := by
  induction cs with
  | nil => exact List.Sublist.slnil
  | cons chunk cs ih =>
    cases hread : readChunk codec afterMs recipientFilter chunk with
    | none =>
      rw [List.filterMap_cons_none hread]
      cases hparse : parseChunk codec chunk with
      | none => rwa [List.filterMap_cons_none hparse]
      | some message =>
        rw [List.filterMap_cons_some hparse]
        exact ih.trans (List.sublist_cons_self _ _)
    | some message =>
      rw [List.filterMap_cons_some hread, List.filterMap_cons_some (readChunk_parse hread).1]
      exact ih.cons_cons message

/-- **The lines in front**: the reader is done with them and stops, or goes on behind them. -/
theorem readChunks_append (hroom : results.length < maxChannelReadBatch)
    (h : readChunks codec afterMs recipientFilter results (front ++ rest) = some messages) :
    (messages.length = maxChannelReadBatch ∧
        messages <+: results ++ front.filterMap (readChunk codec afterMs recipientFilter)) ∨
      ((∀ chunk ∈ front, IsText chunk) ∧
        (results ++ front.filterMap (readChunk codec afterMs recipientFilter)).length < maxChannelReadBatch ∧
        readChunks codec afterMs recipientFilter
          (results ++ front.filterMap (readChunk codec afterMs recipientFilter)) rest = some messages) := by
  induction front generalizing results with
  | nil =>
    refine Or.inr ⟨nofun, ?_, ?_⟩
    all_goals rwa [List.filterMap_nil, List.append_nil]
  | cons chunk front ih =>
    rw [List.cons_append] at h
    have htext : IsText chunk := by
      rw [IsText, Option.isSome_iff_ne_none]
      intro hnone
      rw [readChunks, hnone] at h
      cases h
    rw [readChunks_cons htext] at h
    cases hread : readChunk codec afterMs recipientFilter chunk with
    | none =>
      rw [hread] at h
      rw [List.filterMap_cons_none hread]
      refine (ih hroom h).imp_right fun ⟨hfront, hrest⟩ => ⟨?_, hrest⟩
      exact List.forall_mem_cons.mpr ⟨htext, hfront⟩
    | some message =>
      rw [hread] at h
      dsimp only at h
      have hsplit : results ++ (chunk :: front).filterMap (readChunk codec afterMs recipientFilter) =
          (results ++ [message]) ++ front.filterMap (readChunk codec afterMs recipientFilter) := by
        rw [List.filterMap_cons_some hread, List.append_assoc, List.singleton_append]
      have hlength : (results ++ [message]).length = results.length + 1 := by
        rw [List.length_append, List.length_singleton]
      rw [hsplit]
      split at h
      · cases h
        exact Or.inl ⟨by omega, List.prefix_append _ _⟩
      · rename_i hmore
        refine (ih (Nat.lt_of_not_le hmore) h).imp_right fun ⟨hfront, hrest⟩ => ⟨?_, hrest⟩
        exact List.forall_mem_cons.mpr ⟨htext, hfront⟩

/-- The reader goes on behind lines that are texts and leave room. -/
theorem readChunks_skip (htext : ∀ chunk ∈ front, IsText chunk)
    (hroom : (results ++ front.filterMap (readChunk codec afterMs recipientFilter)).length <
      maxChannelReadBatch) :
    readChunks codec afterMs recipientFilter results (front ++ rest) =
      readChunks codec afterMs recipientFilter
        (results ++ front.filterMap (readChunk codec afterMs recipientFilter)) rest := by
  induction front generalizing results with
  | nil => rw [List.filterMap_nil, List.append_nil, List.nil_append]
  | cons chunk front ih =>
    obtain ⟨hchunk, hfront⟩ := List.forall_mem_cons.mp htext
    rw [List.cons_append, readChunks_cons hchunk]
    cases hread : readChunk codec afterMs recipientFilter chunk with
    | none =>
      rw [List.filterMap_cons_none hread] at hroom ⊢
      exact ih hfront hroom
    | some message =>
      have hsplit : results ++ (chunk :: front).filterMap (readChunk codec afterMs recipientFilter) =
          (results ++ [message]) ++ front.filterMap (readChunk codec afterMs recipientFilter) := by
        rw [List.filterMap_cons_some hread, List.append_assoc, List.singleton_append]
      rw [hsplit] at hroom ⊢
      have hmore : (results ++ [message]).length < maxChannelReadBatch := by
        rw [List.length_append] at hroom
        omega
      dsimp only
      rw [if_neg (Nat.not_le.mpr hmore)]
      exact ih hfront hroom

/-! ### The bytes of a text -/

theorem or_ne_lineFeed {a b : UInt8} (hb : 128 ≤ b.toNat) : lineFeed ≠ a ||| b := by
  intro h
  have hle : b.toNat ≤ (a ||| b).toNat := by
    exact Nat.right_le_or
  rw [← h] at hle
  have hten : lineFeed.toNat = 10 := rfl
  omega

theorem eq_newline_of_mem {c : Char} (h : lineFeed ∈ String.utf8EncodeChar c) : c = '\n' := by
  have hpos := Char.utf8Size_pos c
  have hfour := Char.utf8Size_le_four c
  have hsize : c.utf8Size = 1 ∨ c.utf8Size = 2 ∨ c.utf8Size = 3 ∨ c.utf8Size = 4 := by omega
  rcases hsize with hsize | hsize | hsize | hsize
  · rw [String.utf8EncodeChar_eq_singleton hsize, List.mem_singleton] at h
    have hsmall : c.val.toNat ≤ 127 := Char.utf8Size_eq_one_iff.mp hsize
    have hval : c.val.toNat % 256 = 10 := congrArg UInt8.toNat h.symm
    apply Char.ext
    apply UInt32.toNat_inj.mp
    show c.val.toNat = 10
    omega
  · rw [String.utf8EncodeChar_eq_cons_cons hsize] at h
    simp [or_ne_lineFeed] at h
  · rw [String.utf8EncodeChar_eq_cons_cons_cons hsize] at h
    simp [or_ne_lineFeed] at h
  · rw [String.utf8EncodeChar_eq_cons_cons_cons_cons hsize] at h
    simp [or_ne_lineFeed] at h

theorem lineFeed_notMem_utf8 {text : List Char} (h : '\n' ∉ text) : lineFeed ∉ utf8 text := by
  intro hmem
  obtain ⟨c, hc, hbyte⟩ := List.mem_flatMap.mp hmem
  exact h (eq_newline_of_mem hbyte ▸ hc)

variable (text : List Char)

theorem length_utf8 : (utf8 text).length = byteLen text := by
  induction text with
  | nil => rfl
  | cons c text ih =>
    rw [utf8, List.flatMap_cons, List.length_append, String.length_utf8EncodeChar, ← utf8, ih]
    rfl

theorem utf8_line : utf8 text ++ [lineFeed] = utf8 (text ++ ['\n']) := by
  rw [utf8, utf8, List.flatMap_append]
  rfl

theorem fromUtf8_line : fromUtf8 (utf8 text ++ [lineFeed]) = some (text ++ ['\n']) := by
  rw [utf8_line]
  exact fromUtf8_encode _

theorem trim_line : trim (text ++ ['\n']) = trim text := by
  have hspace : isWhitespace '\n' = true := by decide
  rw [trim, trim, trimStart, trimStart, List.dropWhile_append]
  split
  · rename_i hnil
    rw [List.isEmpty_iff.mp hnil, List.dropWhile_cons_of_pos hspace, List.dropWhile_nil]
  · rw [trimEnd, trimEnd, List.reverse_append, List.reverse_singleton, List.singleton_append,
      List.dropWhile_cons_of_pos hspace]

/-! ### An accepted message -/

/-- The file without what stands behind its last line feed. -/
def wholeLines (file : List UInt8) : List UInt8 := (cut lineFeed file).1.flatten

/-- The message comes back, behind those of the lines before it. -/
def ComesBack (codec : PeerMessageCodec) (afterMs : ℕ) (file file' : List UInt8)
    (message : PeerMessage) : Prop :=
  ∃ earlier, readFile codec (wholeLines file) afterMs none = some earlier ∧
    readFile codec file' afterMs none = some (earlier ++ [message])

/-- The lines of the file are texts, and with the message behind it the last one is read as the
message. -/
def CompletesLine (codec : PeerMessageCodec) (file : List UInt8) (message : PeerMessage) : Prop :=
  (∀ chunk ∈ (cut lineFeed file).1, IsText chunk) ∧
    LineReads codec message ((cut lineFeed file).2 ++ (messageBytes codec message ++ [lineFeed]))

variable {file' : List UInt8}

theorem chunks_appended (hline : '\n' ∉ (codec.toString message).toList)
    (h : appendToFile codec file message = .ok file') :
    chunks lineFeed file' = (cut lineFeed file).1 ++
      [(cut lineFeed file).2 ++ (messageBytes codec message ++ [lineFeed])] := by
  rw [appendToFile] at h
  split at h
  · cases h
  · split at h
    · cases h
    · cases h
      exact chunks_append_line (lineFeed_notMem_utf8 hline)

theorem readChunks_singleton : readChunks codec afterMs recipientFilter results [chunk] = some messages ↔
    IsText chunk ∧ messages = results ++ (readChunk codec afterMs recipientFilter chunk).toList := by
  cases hline : fromUtf8 chunk with
  | none =>
    rw [readChunks, IsText, hline]
    simp
  | some line =>
    have htext : IsText chunk := Option.isSome_iff_exists.mpr ⟨line, hline⟩
    rw [readChunks_cons htext]
    cases readChunk codec afterMs recipientFilter chunk with
    | none => simp [readChunks, htext, eq_comm]
    | some message => simp [readChunks, htext, eq_comm]

theorem readChunk_eq_some_iff (hafter : afterMs < message.sentAt) :
    readChunk codec afterMs none chunk = some message ↔ LineReads codec message chunk :=
  ⟨fun h => ⟨(readChunk_parse h).2, (readChunk_parse h).1⟩, fun h => readChunk_of_lineReads h hafter⟩

theorem LineReads.isText (h : LineReads codec message chunk) : IsText chunk := by
  obtain ⟨line, hline, -⟩ := Option.bind_eq_some_iff.mp h.2
  exact Option.isSome_iff_exists.mpr ⟨line, hline⟩

/-- **The reader finds the accepted message** exactly behind texts, in a line that is read as it. -/
theorem comesBack_iff (hline : '\n' ∉ (codec.toString message).toList)
    (happend : appendToFile codec file message = .ok file') (hafter : afterMs < message.sentAt)
    (hfew : (messagesOf codec file').length ≤ maxChannelReadBatch) :
    ComesBack codec afterMs file file' message ↔ CompletesLine codec file message := by
  have hpos : ([] : List PeerMessage).length < maxChannelReadBatch := by decide
  rw [ComesBack, readFile, readFile, wholeLines, chunks_flatten, chunks_appended hline happend]
  constructor
  · rintro ⟨earlier, hearlier, hall⟩
    rw [← List.append_nil (cut lineFeed file).1] at hearlier
    rcases readChunks_append hpos hearlier with ⟨hfull, hprefix⟩ | ⟨htext, hroom, hrest⟩
    · -- a full batch has no room for one more
      rcases readChunks_append hpos hall with ⟨hfull', -⟩ | ⟨-, hroom, -⟩
      · rw [List.length_append, List.length_singleton] at hfull'
        omega
      · have := hprefix.length_le
        omega
    · cases hrest
      rw [readChunks_skip htext hroom, readChunks_singleton] at hall
      have hlast := List.append_cancel_left hall.2
      refine ⟨htext, (readChunk_eq_some_iff hafter).mp ?_⟩
      exact Option.toList_eq_singleton_iff.mp hlast.symm
  · rintro ⟨htext, hread⟩
    have hroom : ([] ++ (cut lineFeed file).1.filterMap (readChunk codec afterMs none)).length <
        maxChannelReadBatch := by
      have hle := (readChunk_sublist codec afterMs none (cut lineFeed file).1).length_le
      rw [messagesOf, chunks_appended hline happend, List.filterMap_append,
        List.filterMap_cons_some hread.2, List.length_append] at hfew
      simp only [List.filterMap_nil, List.length_singleton] at hfew
      rw [List.nil_append]
      omega
    refine ⟨[] ++ (cut lineFeed file).1.filterMap (readChunk codec afterMs none), ?_, ?_⟩
    · rw [← List.append_nil (cut lineFeed file).1, readChunks_skip htext hroom, List.append_nil]
      rfl
    · rw [readChunks_skip htext hroom, readChunks_singleton, (readChunk_eq_some_iff hafter).mpr hread]
      exact ⟨hread.isText, rfl⟩

theorem mem_read_iff (hline : '\n' ∉ (codec.toString message).toList)
    (happend : appendToFile codec file message = .ok file') (hafter : afterMs < message.sentAt)
    (hfew : (messagesOf codec file').length ≤ maxChannelReadBatch)
    (hnew : message ∉ messagesOf codec (wholeLines file)) :
    (∃ messages, readFile codec file' afterMs none = some messages ∧ message ∈ messages) ↔
      CompletesLine codec file message := by
  constructor
  · rintro ⟨messages, hread, hmem⟩
    have hpos : ([] : List PeerMessage).length < maxChannelReadBatch := by decide
    have hout : message ∉ (cut lineFeed file).1.filterMap (readChunk codec afterMs none) := by
      rw [messagesOf, wholeLines, chunks_flatten] at hnew
      exact fun hmem => hnew ((readChunk_sublist codec afterMs none _).subset hmem)
    rw [readFile, chunks_appended hline happend] at hread
    rcases readChunks_append hpos hread with ⟨-, hpre⟩ | ⟨htext, -, hrest⟩
    · exact absurd (hpre.subset hmem) hout
    · rw [readChunks_singleton] at hrest
      rw [hrest.2] at hmem
      refine ⟨htext, (readChunk_eq_some_iff hafter).mp ?_⟩
      exact Option.mem_toList.mp ((List.mem_append.mp hmem).resolve_left hout)
  · intro h
    obtain ⟨earlier, -, hread⟩ := (comesBack_iff hline happend hafter hfew).mpr h
    exact ⟨_, hread, List.mem_append_right _ List.mem_cons_self⟩

theorem lineReads_iff_short (hcodec : codec.ReadsBack message) :
    LineReads codec message (messageBytes codec message ++ [lineFeed]) ↔
      lineBytes (codec.toString message) ≤ maxLineBytes := by
  have hlength : (messageBytes codec message ++ [lineFeed]).length = lineBytes (codec.toString message) := by
    rw [List.length_append, messageBytes, length_utf8]
    rfl
  have htrim : trim (codec.toString message).toList = (codec.toString message).toList := by
    have := congrArg String.toList hcodec.trimmed
    rwa [Text.trim, String.toList_ofList] at this
  have hparse : parseChunk codec (messageBytes codec message ++ [lineFeed]) = some message := by
    have hblank : ((codec.toString message).toList).isEmpty = false := hcodec.notBlank
    rw [parseChunk, messageBytes, fromUtf8_line, Option.bind_some, trim_line, htrim, hblank,
      String.ofList_toList]
    exact hcodec.fromStr
  rw [LineReads, hlength]
  exact ⟨And.left, fun hshort => ⟨hshort, hparse⟩⟩

theorem completesLine_iff_short (hcodec : codec.ReadsBack message) (hend : (cut lineFeed file).2 = []) :
    CompletesLine codec file message ↔ (∀ chunk ∈ (cut lineFeed file).1, IsText chunk) ∧
      lineBytes (codec.toString message) ≤ maxLineBytes := by
  rw [CompletesLine, hend, List.nil_append, lineReads_iff_short hcodec]

end Vexcoder.Task
