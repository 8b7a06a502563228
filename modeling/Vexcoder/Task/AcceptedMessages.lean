import Vexcoder.Base.Slices
import Vexcoder.Task.ChannelSenders

/-!
# Accepted and not read

The writer bounds the content of a message nowhere and the line not at all; the reader leaves out a line
of more than `maxLineBytes` bytes.  How long a line is depends on the escapes of the JSON in it:
in `quotes 4096`, which a sender may post, each character of the content takes two bytes.
-/

namespace Vexcoder.Task

open Base Lib
open Lib.LineChunks
open Vexcoder.Stream (lineFeed)
open ChannelState (kindName firstMessage)

/-- **An accepted message** is read exactly when it completes a line that the reader reads as it, which
behind a line feed is a matter of its length; and whatever the senders do, the depth is kept. -/
theorem accepted_read_iff (codec : PeerMessageCodec) (hcodec : Senders.OneLine codec) :
    (∀ file file' message afterMs, codec.ReadsBack message →
        appendToFile codec file message = .ok file' → afterMs < message.sentAt →
        (messagesOf codec file').length ≤ maxChannelReadBatch →
        (ComesBack codec afterMs file file' message ↔ CompletesLine codec file message) ∧
          (message ∉ messagesOf codec (wholeLines file) →
            ((∃ messages, readFile codec file' afterMs none = some messages ∧ message ∈ messages) ↔
              CompletesLine codec file message)) ∧
          ((cut lineFeed file).2 = [] →
            (CompletesLine codec file message ↔
              (∀ chunk ∈ (cut lineFeed file).1, IsText chunk) ∧
                lineBytes (codec.toString message) ≤ maxLineBytes))) ∧
      ∀ file, countFileLines file ≤ maxChannelDepth → ∀ events,
        countFileLines (Senders.run codec { file } events).file ≤ maxChannelDepth ∧
          (messagesOf codec (Senders.run codec { file } events).file).length ≤ maxChannelDepth := by
  refine ⟨?_, fun file hfile events => Senders.depth_run hcodec hfile events⟩
  intro file file' message afterMs hreads happend hafter hfew
  refine ⟨comesBack_iff (hcodec message) happend hafter hfew,
    mem_read_iff (hcodec message) happend hafter hfew, completesLine_iff_short hreads⟩

/-! ### The JSON of a message -/

/-- What `serde_json` writes of a character of a string. -/
def escapeChar (c : Char) : List Char :=
  if c = '"' then ['\\', '"']
  else if c = '\\' then ['\\', '\\']
  else if c = '\n' then ['\\', 'n']
  else if c = '\r' then ['\\', 'r']
  else if c = '\t' then ['\\', 't']
  else if c = '\x08' then ['\\', 'b']
  else if c = '\x0c' then ['\\', 'f']
  else if c.toNat < 32 then
    ['\\', 'u', '0', '0', Nat.digitChar (c.toNat / 16), Nat.digitChar (c.toNat % 16)]
  else [c]

def quoted (s : String) : List Char := '"' :: (s.toList.flatMap escapeChar ++ ['"'])

def field (name : String) (value : List Char) : List Char := '"' :: (name.toList ++ '"' :: ':' :: value)

def serdeBody (message : PeerMessage) : List Char :=
  field "id" (quoted message.id) ++ ',' ::
    (field "sent_at" (Nat.toDigits 10 message.sentAt) ++ ',' ::
      (field "sender_id" (quoted message.senderId) ++ ',' ::
        (field "sender_agent_id" (quoted message.senderAgentId) ++ ',' ::
          (field "recipient" (quoted message.recipient) ++ ',' ::
            (field "kind" (quoted (kindName message.kind)) ++ ',' ::
              (field "content" (quoted message.content) ++ ',' ::
                field "parent_task_id" (quoted message.parentTaskId)))))))

def serdeLine (message : PeerMessage) : String :=
  String.ofList ('\x7b' :: (serdeBody message ++ ['\x7d']))

def serdeCodec (message : PeerMessage) : PeerMessageCodec where
  toString := serdeLine
  fromStr line := if line = serdeLine message then some message else none

theorem newline_notMem_escapeChar (c : Char) : '\n' ∉ escapeChar c := by
  have hdigits : ∀ n < 32, '\n' ∉ ['\\', 'u', '0', '0', Nat.digitChar (n / 16), Nat.digitChar (n % 16)] := by
    decide
  rw [escapeChar]
  split_ifs with h₁ h₂ h₃ h₄ h₅ h₆ h₇ h₈
  · decide
  · decide
  · decide
  · decide
  · decide
  · decide
  · decide
  · exact hdigits _ h₈
  · rw [List.mem_singleton]
    exact fun h => h₃ h.symm

theorem newline_notMem_quoted (s : String) : '\n' ∉ quoted s := by
  simp [quoted, newline_notMem_escapeChar]

variable (message : PeerMessage)

theorem newline_notMem_serdeBody : '\n' ∉ serdeBody message := by
  have hdigits : '\n' ∉ Nat.toDigits 10 message.sentAt := fun hmem =>
    absurd (Nat.isDigit_of_mem_toDigits (by decide) (by decide) hmem) (by decide)
  simp [serdeBody, field, newline_notMem_quoted, hdigits]

theorem serdeLine_toList :
    (serdeLine message).toList = '\x7b' :: (serdeBody message ++ ['\x7d']) := String.toList_ofList

theorem serdeCodec_oneLine : Senders.OneLine (serdeCodec message) := by
  intro other
  show '\n' ∉ (serdeLine other).toList
  simp [serdeLine_toList, newline_notMem_serdeBody]

theorem trim_braces (body : List Char) : trim ('\x7b' :: (body ++ ['\x7d'])) = '\x7b' :: (body ++ ['\x7d']) := by
  have hopen : isWhitespace '\x7b' = false := by decide
  have hclose : isWhitespace '\x7d' = false := by decide
  rw [trim, trimStart, List.dropWhile_cons_of_neg (by rw [hopen]; decide), trimEnd, ← List.cons_append,
    List.reverse_append, List.reverse_singleton, List.singleton_append,
    List.dropWhile_cons_of_neg (by rw [hclose]; decide), List.reverse_cons, List.reverse_reverse]

theorem serdeCodec_readsBack : (serdeCodec message).ReadsBack message := by
  have hread : ∀ line, (serdeCodec message).fromStr line =
      if line = serdeLine message then some message else none := fun _ => rfl
  refine ⟨?_, ?_, ?_⟩
  · rw [hread]
    exact if_pos rfl
  · show Text.trim (serdeLine message) = serdeLine message
    rw [Text.trim, serdeLine_toList, trim_braces]
    rfl
  · show Text.isEmpty (serdeLine message) = false
    rw [Text.isEmpty, serdeLine_toList]
    rfl

/-! ### A short message and a long one -/

theorem appendToFile_nil (codec : PeerMessageCodec) (message : PeerMessage) :
    appendToFile codec [] message = .ok (messageBytes codec message ++ [lineFeed]) := by
  rw [appendToFile, if_neg (by decide), if_neg (by decide), List.nil_append]

theorem messagesOf_single_le {codec : PeerMessageCodec} {message : PeerMessage} {file : List UInt8}
    (hline : '\n' ∉ (codec.toString message).toList) (h : appendToFile codec [] message = .ok file) :
    (messagesOf codec file).length ≤ maxChannelReadBatch := by
  rw [messagesOf, chunks_appended hline h]
  refine (List.length_filterMap_le _ _).trans ?_
  show 1 ≤ maxChannelReadBatch
  decide

theorem accepted_read_sample :
    ComesBack (serdeCodec firstMessage) 4 []
      (messageBytes (serdeCodec firstMessage) firstMessage ++ [lineFeed]) firstMessage := by
  have hline := serdeCodec_oneLine firstMessage
  have happend := appendToFile_nil (serdeCodec firstMessage) firstMessage
  have h := (accepted_read_iff (serdeCodec firstMessage) hline).1 [] _ firstMessage 4
    (serdeCodec_readsBack firstMessage) happend (by decide)
    (messagesOf_single_le (hline firstMessage) happend)
  refine h.1.mpr ((h.2.2 rfl).mpr ⟨nofun, ?_⟩)
  have hbody : byteLen (serdeBody firstMessage) = 137 := Nat.eq_of_beq_eq_true (by decide +kernel)
  have hbytes : lineBytes (serdeLine firstMessage) = 140 := by
    rw [lineBytes, serdeLine_toList, byteLen_cons, byteLen_append, hbody]
    rfl
  show lineBytes (serdeLine firstMessage) ≤ maxLineBytes
  rw [hbytes]
  decide

/-- A message of `n` quotation marks; a content may have 4096 bytes. -/
def quotes (n : ℕ) : PeerMessage :=
  { firstMessage with content := String.ofList (List.replicate n '"') }

theorem lt_lineBytes_quotes (n : ℕ) : 2 * n < lineBytes (serdeLine (quotes n)) := by
  have hcontent : byteLen ((List.replicate n '"').flatMap escapeChar) = 2 * n := by
    induction n with
    | zero => rfl
    | succ n ih =>
      rw [List.replicate_succ, List.flatMap_cons, byteLen_append, ih]
      show 2 + 2 * n = 2 * (n + 1)
      omega
  have hquoted : quoted (quotes n).content =
      '"' :: ((List.replicate n '"').flatMap escapeChar ++ ['"']) := by
    rw [quoted, quotes, String.toList_ofList]
  rw [lineBytes, serdeLine_toList, serdeBody, hquoted]
  simp only [byteLen_append, byteLen_cons, field, hcontent]
  omega

/-- **The message that nobody reads**: the append succeeds, and the channel is read without it. -/
theorem quotes_not_read :
    ∃ file, appendToFile (serdeCodec (quotes 4096)) [] (quotes 4096) = .ok file ∧
      (messagesOf (serdeCodec (quotes 4096)) file).length ≤ maxChannelReadBatch ∧
      ¬∃ messages, readFile (serdeCodec (quotes 4096)) file 4 none = some messages ∧
        quotes 4096 ∈ messages := by
  have hline := serdeCodec_oneLine (quotes 4096) (quotes 4096)
  have happend := appendToFile_nil (serdeCodec (quotes 4096)) (quotes 4096)
  have hfew := messagesOf_single_le hline happend
  refine ⟨_, happend, hfew, fun h => ?_⟩
  have hcompletes := (mem_read_iff hline happend (by decide) hfew List.not_mem_nil).mp h
  have hshort : lineBytes (serdeLine (quotes 4096)) ≤ maxLineBytes :=
    ((completesLine_iff_short (serdeCodec_readsBack (quotes 4096)) rfl).mp hcompletes).2
  have hmax : maxLineBytes = 2 * 4096 := by decide
  have hlong := lt_lineBytes_quotes 4096
  omega

end Vexcoder.Task
