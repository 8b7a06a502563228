import Vexcoder.Conversation.TaggedParameters
import Vexcoder.Stream.Chunking

/-!
# Tool calls written as text and read back

The text of a call reaches the normaliser in pieces.  Every beginning of it is held back, and its end
emits the call, unless a value of the call contains the closing tag, or is read as something else.
`Faithful` is what the name, the keys and the values must be like.
-/

namespace Vexcoder.Conversation

open Base Lib Lib.Search Vexcoder.Stream StreamTextNormaliser

/-! ### The text of a call -/

def callBody (codec : JsonCodec) (members : List (String × Value)) : List Char :=
  '\n' :: paramsText codec members

def header (name : List Char) : List Char := functionTag ++ (name ++ ['>'])

def callText (codec : JsonCodec) (name : List Char) (members : List (String × Value)) : List Char :=
  header name ++ (callBody codec members ++ functionClose)

theorem toList_param (codec : JsonCodec) (key : String) (value : Value) :
    ("<parameter=" ++ key ++ ">\n" ++ textProtocolValue codec.toString value ++
      "\n</parameter>\n").toList = paramText key.toList (valueText codec value) := by
  have hopen : ">\n".toList = ['>', '\n'] := by decide
  have hclose : "\n</parameter>\n".toList = '\n' :: (parameterClose ++ ['\n']) := by decide
  simp only [String.toList_append, hopen, hclose, List.append_assoc, List.cons_append,
    List.nil_append, paramText, framed]
  rfl

theorem toList_render (codec : JsonCodec) (id name : String) (members : List (String × Value)) :
    (renderToolCallsForTextProtocol codec.toString [.toolUse id name (.object members)]).toList =
      callText codec name.toList members := by
  have hparams : (members.map fun member => "<parameter=" ++ member.1 ++ ">\n" ++
      textProtocolValue codec.toString member.2 ++ "\n</parameter>\n").flatMap String.toList =
        paramsText codec members := by
    rw [List.flatMap_map]
    exact List.flatMap_congr fun member _ => toList_param codec member.1 member.2
  show ("<function=" ++ name ++ ">\n" ++ Text.join "" (members.map fun member =>
    "<parameter=" ++ member.1 ++ ">\n" ++ textProtocolValue codec.toString member.2 ++
      "\n</parameter>\n") ++ "</function>").toList = _
  have hopen : ">\n".toList = ['>', '\n'] := by decide
  simp only [String.toList_append, Text.toList_join_empty, hparams, hopen, callText, header, callBody,
    List.append_assoc, List.cons_append, List.nil_append]
  rfl

variable {name : List Char} {codec : JsonCodec} {members : List (String × Value)}

theorem header_not_close (h : '<' ∉ name) (w : List Char) :
    ∀ i < (header name).length, ¬ functionClose <+: (header name).drop i ++ w := by
  have honce : HeadOnce '<' (header name) := by
    refine ⟨functionTag.tail ++ (name ++ ['>']), rfl, ?_⟩
    simp only [List.mem_append, not_or, List.mem_singleton]
    exact ⟨by decide, h, by decide⟩
  refine not_prefix_of_headOnce rfl honce ?_ ?_ w
  · have htag : functionTag.length = 10 := by decide
    have hclose : functionClose.length = 11 := by decide
    simp only [header, List.length_append, List.length_singleton]
    omega
  · intro hpre
    have hsecond := (List.cons_prefix_cons.mp (List.cons_prefix_cons.mp hpre).2).1
    revert hsecond
    decide

theorem find_close_header (h : '<' ∉ name) (w : List Char) :
    find functionClose (header name ++ w) = (find functionClose w).map (· + (header name).length) :=
  find_append_right (header_not_close h w)

theorem trim_prefix (s : List Char) : trim s <+: trimStart s := by
  unfold trim trimEnd
  rw [← List.reverse_suffix, List.reverse_reverse]
  exact List.dropWhile_suffix _

/-- The body of a call does not start with a brace. -/
theorem body_head (codec : JsonCodec) (members : List (String × Value)) (n : ℕ) :
    (trim ((callBody codec members).take n)).head? ≠ some '{' := by
  intro hhead
  obtain ⟨r, hr⟩ := List.head?_eq_some_iff.mp hhead
  have hpre := trim_prefix ((callBody codec members).take n)
  rw [hr] at hpre
  obtain ⟨t, ht⟩ := hpre
  cases n with
  | zero => cases ht
  | succ n =>
    have hparams : trimStart ((callBody codec members).take (n + 1)) =
        trimStart ((paramsText codec members).take n) :=
      trimStart_append_of_all (show ['\n'].all isWhitespace = true by decide) _
    refine trimStart_head_ne (w := (paramsText codec members).take n) (fun c hc => ?_)
      (by rw [← hparams, ← ht]; rfl)
    cases members with
    | nil => cases n <;> cases hc
    | cons member members =>
      cases n with
      | zero => cases hc
      | succ n => exact (Option.some.inj hc).symm

theorem parseSingleTaggedToolCall_call {codec : JsonCodec} {name body : List Char} (hname : Bare name)
    (hbody : (trim body).head? ≠ some '{') :
    parseSingleTaggedToolCall codec (header name ++ (body ++ functionClose)) =
      some (if name.isEmpty then none
        else some (String.ofList name, .object (parseTaggedParameters codec body))) := by
  have hafter : (header name ++ (body ++ functionClose)).drop functionTag.length =
      name ++ '>' :: (body ++ functionClose) := by
    rw [header, List.append_assoc, List.append_assoc]
    rfl
  have htaken : ((header name ++ (body ++ functionClose)).take
      (functionTag.length + name.length)).drop functionTag.length = name := by
    rw [← List.take_drop, hafter, List.take_left]
  have hlen : (header name).length = functionTag.length + name.length + 1 := by
    simp only [header, List.length_append, List.length_singleton]
    omega
  have hend : (header name ++ (body ++ functionClose)).length - functionClose.length =
      (header name ++ body).length := by
    simp only [List.length_append]
    omega
  have hcut : ((header name ++ (body ++ functionClose)).take (header name ++ body).length).drop
      (functionTag.length + name.length + 1) = body := by
    rw [← List.append_assoc, List.take_left, ← hlen, List.drop_left]
  have hlong : ¬ (header name ++ body).length < functionTag.length + name.length + 1 := by
    rw [List.length_append]
    omega
  rw [parseSingleTaggedToolCall]
  simp only [hafter, find_key hname.noClose, htaken, hname.trimmed, hend, hcut, if_neg hlong, if_neg hbody]
  split
  · rfl
  · split <;> rfl

/-- The first closing tag: the one that was written, or one in the text of a value. -/
theorem find_close_body (body : List Char) :
    ∃ j ≤ body.length, find functionClose (body ++ functionClose) = some j := by
  cases hfind : find functionClose (body ++ functionClose) with
  | none => exact absurd (List.suffix_append _ _).isInfix (find_eq_none_iff_not_inside.mp hfind)
  | some j =>
    refine ⟨j, ?_, rfl⟩
    have := find_le hfind
    rw [List.length_append] at this
    omega

theorem functionOutcome_call (hname : Bare name) {j : ℕ} (hj : j ≤ (callBody codec members).length)
    (hfind : find functionClose (callBody codec members ++ functionClose) = some j) :
    functionOutcome codec (callText codec name members) =
      .closed
        (if name.isEmpty then pushTextChunk (stripToolCallWrappers
          (header name ++ ((callBody codec members).take j ++ functionClose)))
        else [.taggedToolCall (String.ofList name)
          (.object (parseTaggedParameters codec ((callBody codec members).take j)))])
        (skipToolCallCloses ((callBody codec members ++ functionClose).drop (j + functionClose.length))) := by
  have hclose : find functionClose (callText codec name members) = some (j + (header name).length) := by
    rw [callText, find_close_header hname.noOpen, hfind]
    rfl
  have hend : j + (header name).length + functionClose.length =
      (header name).length + (j + functionClose.length) := by
    omega
  have hraw : (callText codec name members).take
      (j + (header name).length + functionClose.length) =
      header name ++ ((callBody codec members).take j ++ functionClose) := by
    rw [hend, callText, List.take_length_add_append, find_take hfind, List.take_append_of_le_length hj]
  have hrest : (callText codec name members).drop
      (j + (header name).length + functionClose.length) =
      (callBody codec members ++ functionClose).drop (j + functionClose.length) := by
    rw [hend, callText, List.drop_length_add_append]
  rw [functionOutcome]
  simp only [hclose, hraw, hrest, parseSingleTaggedToolCall_call hname (body_head codec members j)]
  by_cases hempty : name.isEmpty = true
  · simp only [if_pos hempty]
  · simp only [if_neg hempty]

theorem paramText_not_close {key text : List Char} (hkey : Bare key) (htext : TagFree text) (w : List Char) :
    ∀ i < (paramText key text).length, ¬ functionClose <+: (paramText key text).drop i ++ w := by
  have hopen : HeadOnce '<' parameterTag := ⟨parameterTag.tail, by decide, by decide⟩
  have hclose : HeadOnce '<' parameterClose := ⟨parameterClose.tail, by decide, by decide⟩
  have hkeyed : '<' ∉ key ++ ['>'] := by
    simp only [List.mem_append, not_or, List.mem_singleton]
    exact ⟨hkey.noOpen, by decide⟩
  have hparts : paramText key text =
      parameterTag ++ ((key ++ ['>']) ++ (framed text ++ (parameterClose ++ ['\n']))) := by
    simp only [paramText, List.append_assoc, List.singleton_append]
  rw [hparts]
  apply not_prefix_append
  · exact not_prefix_of_headOnce rfl hopen (by decide) (by decide) _
  apply not_prefix_append
  · exact not_prefix_of_head rfl hkeyed _
  apply not_prefix_append
  · exact htext.not_prefix (by decide) _
  apply not_prefix_append
  · exact not_prefix_of_headOnce rfl hclose (by decide) (by decide) _
  · exact not_prefix_of_head rfl (by decide) _

theorem paramsText_not_close (hkeys : ∀ member ∈ members, Bare member.1.toList)
    (htexts : ∀ member ∈ members, TagFree (valueText codec member.2)) (w : List Char) :
    ∀ i < (paramsText codec members).length, ¬ functionClose <+: (paramsText codec members).drop i ++ w := by
  induction members with
  | nil => exact fun i hi => absurd hi (Nat.not_lt_zero i)
  | cons member members ih =>
    show ∀ i < (paramText member.1.toList (valueText codec member.2) ++ paramsText codec members).length, _
    refine not_prefix_append (paramText_not_close (hkeys member List.mem_cons_self)
      (htexts member List.mem_cons_self) _) (ih ?_ ?_)
    · exact fun m hm => hkeys m (List.mem_cons_of_mem _ hm)
    · exact fun m hm => htexts m (List.mem_cons_of_mem _ hm)

/-- Without tags in the values, it is the one that was written. -/
theorem find_close_of_tagFree (hkeys : ∀ member ∈ members, Bare member.1.toList)
    (htexts : ∀ member ∈ members, TagFree (valueText codec member.2)) :
    find functionClose (callBody codec members ++ functionClose) = some (callBody codec members).length := by
  refine find_behind ?_ (List.prefix_refl _)
  show ∀ i < (['\n'] ++ paramsText codec members).length, _
  exact not_prefix_append (not_prefix_of_head rfl (by decide) _) (paramsText_not_close hkeys htexts _)

theorem length_le_paramsText (codec : JsonCodec) (members : List (String × Value)) :
    members.length ≤ (paramsText codec members).length := by
  induction members with
  | nil => exact Nat.zero_le _
  | cons member members ih =>
    have hparams : paramsText codec (member :: members) =
        paramText member.1.toList (valueText codec member.2) ++ paramsText codec members := rfl
    have htag : parameterTag.length = 11 := by decide
    simp only [hparams, paramText, List.length_append, List.length_cons, htag]
    omega

/-- The parameters of such a body are those that were written, without the one that has no name. -/
theorem parseTaggedParameters_body (hsorted : Assoc.Sorted members)
    (hkeys : ∀ member ∈ members, Bare member.1.toList)
    (htexts : ∀ member ∈ members, TagFree (valueText codec member.2)) :
    parseTaggedParameters codec (callBody codec members) =
      (members.filter fun member => member.1 ≠ "").map fun member =>
        (member.1, taggedParameterJsonValue codec (framed (valueText codec member.2))) := by
  have hlen := length_le_paramsText codec members
  rw [parseTaggedParameters, callBody, parseTaggedParametersFrom_params hkeys htexts
    (by rw [List.length_cons]; omega), foldl_insertTagged (show Assoc.Sorted ([] ++ members) from hsorted)]
  rfl

/-! ### However the text is cut -/

theorem feed_nil_chunks (codec : JsonCodec) (n : StreamTextNormaliser) {chunks : List (List Char)}
    (h : chunks.flatten = []) : n.feed codec chunks = some n.finish := by
  induction chunks with
  | nil => rfl
  | cons chunk chunks ih =>
    obtain ⟨rfl, hrest⟩ := List.append_eq_nil_iff.mp h
    show (n.feed codec chunks).map ([] ++ ·) = _
    rw [ih hrest]
    rfl

/-- What is emitted at the end of a text, of which every beginning is held back, is emitted for every
cut of it. -/
theorem feed_held {text : List Char} {out : List NormalisedChunk}
    (hheld : ∀ p r, r ≠ [] → p ++ r = text → normaliseBuffer codec p = some ([], p))
    (hwhole : normaliseBuffer codec text = some (out, [])) {p : List Char}
    {chunks : List (List Char)} (hne : chunks.flatten ≠ []) (h : p ++ chunks.flatten = text) :
    StreamTextNormaliser.feed codec ⟨p⟩ chunks = some out := by
  induction chunks generalizing p with
  | nil => exact absurd rfl hne
  | cons chunk chunks ih =>
    by_cases hchunk : chunk = []
    · subst hchunk
      show (feed codec ⟨p⟩ chunks).map ([] ++ ·) = _
      rw [ih hne h]
      rfl
    · have hnormalise : normalise codec ⟨p⟩ chunk =
          (normaliseBuffer codec (p ++ chunk)).map fun result => (result.1, ⟨result.2⟩) :=
        if_neg (by rwa [List.isEmpty_iff])
      rw [List.flatten_cons, ← List.append_assoc] at h
      rw [feed, hnormalise]
      by_cases hrest : chunks.flatten = []
      · rw [hrest, List.append_nil] at h
        rw [h, hwhole]
        show (feed codec ⟨[]⟩ chunks).map (out ++ ·) = _
        rw [feed_nil_chunks codec _ hrest]
        show some (out ++ []) = some out
        rw [List.append_nil]
      · rw [hheld _ _ hrest h]
        show (feed codec ⟨p ++ chunk⟩ chunks).map ([] ++ ·) = _
        rw [ih hrest h]
        rfl

/-! ### A call and the normaliser -/

section

variable {codec : JsonCodec} {name : List Char} {members : List (String × Value)}

theorem functionTag_opens (w : List Char) : functionTag <+: header name ++ w := by
  rw [header, List.append_assoc]
  exact List.prefix_append _ _

theorem normaliseStep_of_functionTag {w : List Char} (h : functionTag <+: w) :
    normaliseStep codec w = ([], functionOutcome codec w) := by
  rw [normaliseStep, nextTag_of_functionTag h]
  rfl

/-- The start of the opening tag is held back. -/
theorem normaliseBuffer_of_prefix {p : List Char} (h : p <+: functionTag)
    (hlen : p.length < functionTag.length) : normaliseBuffer codec p = some ([], p) := by
  have htag : functionTag.length = 10 := by decide
  have hnone : nextTag p = .none := by
    have hfind : find functionTag p = none := by
      refine find_eq_none_iff_not_inside.mpr fun hin => ?_
      have := hin.length_le
      omega
    have hhermes : findHermesJsonToolCall p = none := by
      refine (findFirst_eq_none_iff _ _).mpr fun i _ => ?_
      rw [← Bool.not_eq_true]
      intro hhere
      have hshort := ((hermesHere_iff _).mp hhere).1.length_le
      have htool : toolCallTag.length = 11 := by decide
      rw [List.length_drop] at hshort
      omega
    rw [nextTag, hfind, hhermes]
  have hsplit : splitIncompleteToolTagSuffix p = ([], p) := by
    cases p with
    | nil => rfl
    | cons c p =>
      obtain ⟨r, hr⟩ := h
      obtain ⟨rfl, htail⟩ : c = '<' ∧ p ++ r = functionTag.tail := List.cons.inj hr
      have hno : '<' ∉ p := by
        intro hmem
        have hmem' : '<' ∈ functionTag.tail := htail ▸ List.mem_append_left _ hmem
        revert hmem'
        decide
      have hlast := split_of_lastOpen (t := []) hno
      rw [if_pos (looksLikePartialToolTag_of_start functionTag_held ⟨r, hr⟩)] at hlast
      exact hlast
  have hstep := normaliseStep_none codec hnone
  rw [hsplit] at hstep
  exact normaliseBuffer_wait codec hstep

/-- Every beginning of a call is held back. -/
theorem normaliseBuffer_beginning (hname : Bare name) (hkeys : ∀ member ∈ members, Bare member.1.toList)
    (htexts : ∀ member ∈ members, TagFree (valueText codec member.2)) {p r : List Char} (hr : r ≠ [])
    (h : p ++ r = callText codec name members) :
    normaliseBuffer codec p = some ([], p) := by
  have hp : p <+: callText codec name members := ⟨r, h⟩
  have htag : functionTag <+: callText codec name members := functionTag_opens _
  by_cases hlen : p.length < functionTag.length
  · exact normaliseBuffer_of_prefix (List.prefix_of_prefix_length_le hp htag (Nat.le_of_lt hlen)) hlen
  have hopen : functionTag <+: p :=
    List.prefix_of_prefix_length_le htag hp (Nat.le_of_not_lt hlen)
  have hclose : find functionClose (p ++ r) =
      some ((callBody codec members).length + (header name).length) := by
    rw [h, callText, find_close_header hname.noOpen, find_close_of_tagFree hkeys htexts]
    rfl
  have hnone : find functionClose p = none := by
    by_contra hsome
    obtain ⟨i, hi⟩ := Option.ne_none_iff_exists'.mp hsome
    have hsame := Option.some.inj ((find_append_left hi r).symm.trans hclose)
    have hle := find_le hi
    have hlength := congrArg List.length h
    have hpos := List.length_pos_iff.mpr hr
    simp only [callText, List.length_append] at hlength
    omega
  have hstep : normaliseStep codec p = ([], .wait p) := by
    rw [normaliseStep_of_functionTag hopen, functionOutcome, hnone]
  exact normaliseBuffer_wait codec hstep

theorem normaliseBuffer_call (hname : Bare name) (hnamed : name ≠ [])
    (hsorted : Assoc.Sorted members) (hkeys : ∀ member ∈ members, Bare member.1.toList)
    (htexts : ∀ member ∈ members, TagFree (valueText codec member.2)) :
    normaliseBuffer codec (callText codec name members) =
      some ([.taggedToolCall (String.ofList name) (.object
        ((members.filter fun member => member.1 ≠ "").map fun member =>
          (member.1, taggedParameterJsonValue codec (framed (valueText codec member.2)))))], []) := by
  have hfind := find_close_of_tagFree hkeys htexts
  have hrest : (callBody codec members ++ functionClose).drop
      ((callBody codec members).length + functionClose.length) = [] := by
    rw [← List.length_append, List.drop_length]
  have houtcome := functionOutcome_call hname (Nat.le_refl _) hfind
  rw [List.take_length, hrest, if_neg (by rwa [List.isEmpty_iff]),
    parseTaggedParameters_body hsorted hkeys htexts] at houtcome
  have hopens : functionTag <+: header name ++ (callBody codec members ++ functionClose) :=
    functionTag_opens _
  have hstep : normaliseStep codec _ = _ := normaliseStep_of_functionTag hopens
  have hclosed := normaliseBuffer_closed codec (hstep.trans (congrArg (Prod.mk []) houtcome))
  exact hclosed

/-! ### Reading a call back -/

def toolCalls (chunks : List NormalisedChunk) : List (String × Value) :=
  chunks.flatMap fun chunk =>
    match chunk with
    | .taggedToolCall name input => [(name, input)]
    | .text _ => []

@[simp] theorem toolCalls_append (a b : List NormalisedChunk) :
    toolCalls (a ++ b) = toolCalls a ++ toolCalls b :=
  List.flatMap_append

@[simp] theorem toolCalls_pushTextChunk (s : List Char) : toolCalls (pushTextChunk s) = [] := by
  unfold pushTextChunk
  split <;> rfl

@[simp] theorem toolCalls_finish (n : StreamTextNormaliser) : toolCalls n.finish = [] :=
  toolCalls_pushTextChunk _

theorem ofList_ne_empty {s : List Char} (h : ¬ s.isEmpty = true) : String.ofList s ≠ "" :=
  fun hempty => h (List.isEmpty_iff.mpr (String.ofList_eq_empty_iff.mp hempty))

theorem parseHermesJsonToolCall_named {content : List Char} {name : String} {input : Value}
    (h : parseHermesJsonToolCall codec content = some (name, input)) : name ≠ "" := by
  obtain ⟨obj, -, h⟩ := Option.bind_eq_some_iff.mp h
  obtain ⟨value, -, h⟩ := Option.bind_eq_some_iff.mp h
  obtain ⟨text, -, h⟩ := Option.bind_eq_some_iff.mp h
  dsimp only at h
  split at h
  · cases h
  · rename_i hempty
    obtain ⟨rfl, -⟩ := Prod.mk.inj (Option.some.inj h)
    exact ofList_ne_empty hempty

theorem parseSingleTaggedToolCall_named {raw : List Char} {name : String} {input : Value}
    (h : parseSingleTaggedToolCall codec raw = some (some (name, input))) : name ≠ "" := by
  unfold parseSingleTaggedToolCall at h
  dsimp only at h
  split at h
  · cases h
  split at h
  · cases h
  rename_i hempty
  split at h
  · cases h
  have named {text : List Char} {value : Value} (hempty : ¬ text.isEmpty = true)
      (h : some (some (String.ofList text, value)) = some (some (name, input))) : name ≠ "" := by
    obtain ⟨rfl, -⟩ := Prod.mk.inj (Option.some.inj (Option.some.inj h))
    exact ofList_ne_empty hempty
  split at h
  · split at h
    all_goals exact named hempty h
  · exact named hempty h

theorem named_of_normaliseStep {pending : List Char} {chunks : List NormalisedChunk}
    {rest : List Char} (h : (normaliseStep codec pending).2 = .closed chunks rest) :
    ∀ call ∈ toolCalls chunks, call.1 ≠ "" := by
  unfold normaliseStep at h
  split at h
  · cases h
  · unfold hermesOutcome at h
    split at h
    · cases h
    obtain ⟨rfl, -⟩ := TagOutcome.closed.inj h
    split
    · rename_i hparse
      intro call hcall
      obtain rfl := List.mem_singleton.mp hcall
      exact parseHermesJsonToolCall_named hparse
    · exact nofun
  · unfold functionOutcome at h
    split at h
    · cases h
    dsimp only at h
    split at h
    · cases h
    rename_i hparse
    obtain ⟨rfl, -⟩ := TagOutcome.closed.inj h
    split
    · intro call hcall
      obtain rfl := List.mem_singleton.mp hcall
      exact parseSingleTaggedToolCall_named hparse
    · rw [toolCalls_pushTextChunk]
      exact nofun

variable {out : List NormalisedChunk}

theorem named_of_normaliseLoop {fuel : ℕ} {pending left : List Char}
    (h : normaliseLoop codec fuel pending = some (out, left)) :
    ∀ call ∈ toolCalls out, call.1 ≠ "" := by
  induction fuel generalizing pending out left with
  | zero => cases h
  | succ fuel ih =>
    rw [normaliseLoop] at h
    split at h
    · obtain ⟨rfl, -⟩ := Prod.mk.inj (Option.some.inj h)
      rw [toolCalls_pushTextChunk]
      exact List.forall_mem_nil _
    · rename_i chunks rest hstep
      obtain ⟨⟨later, last⟩, hlater, heq⟩ := Option.map_eq_some_iff.mp h
      obtain ⟨rfl, -⟩ := Prod.mk.inj heq
      intro call hcall
      simp only [toolCalls_append, toolCalls_pushTextChunk, List.nil_append, List.mem_append] at hcall
      rcases hcall with hcall | hcall
      · exact named_of_normaliseStep hstep call hcall
      · exact ih hlater call hcall
    · cases h

/-- The text of the call, however it is cut, is read as this one call. -/
theorem feed_callText (hname : Bare name) (hkeys : ∀ member ∈ members, Bare member.1.toList)
    (hsorted : Assoc.Sorted members) (hprinted : ∀ member ∈ members,
      isString member.2 = false → Printed codec member.2)
    (h : Faithful codec name members) {chunks : List (List Char)}
    (hchunks : chunks.flatten = callText codec name members) :
    StreamTextNormaliser.feed codec {} chunks =
      some [.taggedToolCall (String.ofList name) (.object members)] := by
  have hcall := normaliseBuffer_call hname h.named hsorted hkeys h.tagFree
  have hall : members.filter (fun member => member.1 ≠ "") = members :=
    List.filter_eq_self.mpr fun member hmem => decide_eq_true (h.keyed member hmem)
  have hsame : members.map (fun member =>
      (member.1, taggedParameterJsonValue codec (framed (valueText codec member.2)))) = members := by
    refine (List.map_congr_left fun member hmem => ?_).trans (List.map_id members)
    have hread := (tagged_framed_iff (hprinted member hmem)).mpr (h.readsBack member hmem)
    show (member.1, _) = member
    rw [hread]
  rw [hall, hsame] at hcall
  have hne : chunks.flatten ≠ [] := by
    rw [hchunks, callText]
    exact nofun
  exact feed_held (fun p r hr hp => normaliseBuffer_beginning hname hkeys h.tagFree hr hp) hcall hne hchunks

/-- The call that is read from the whole text: there is one when the name is not empty, and its input
are the parameters in front of the first closing tag. -/
theorem toolCalls_feed_callText (hname : Bare name)
    (hfeed : StreamTextNormaliser.feed codec {} [callText codec name members] = some out) {j : ℕ}
    (hj : j ≤ (callBody codec members).length)
    (hfind : find functionClose (callBody codec members ++ functionClose) = some j) :
    ∃ later, (∀ call ∈ later, call.1 ≠ "") ∧
      toolCalls out = (if name.isEmpty then []
        else [(String.ofList name,
          .object (parseTaggedParameters codec ((callBody codec members).take j)))]) ++ later := by
  have hnonempty : ¬ (callText codec name members).isEmpty = true := by
    exact nofun
  rw [feed, normalise, if_neg hnonempty] at hfeed
  have hopens : functionTag <+: header name ++ (callBody codec members ++ functionClose) :=
    functionTag_opens _
  have hstep : normaliseStep codec _ = _ := normaliseStep_of_functionTag hopens
  have hclosed := normaliseBuffer_closed codec
    (hstep.trans (congrArg (Prod.mk []) (functionOutcome_call hname hj hfind)))
  rw [List.nil_append, callText, hclosed] at hfeed
  generalize skipToolCallCloses _ = rest at hfeed
  cases hrest : normaliseBuffer codec rest with
  | none =>
    rw [hrest] at hfeed
    cases hfeed
  | some r =>
    obtain ⟨later, left⟩ := r
    rw [hrest] at hfeed
    obtain rfl := Option.some.inj hfeed
    refine ⟨toolCalls later, named_of_normaliseLoop hrest, ?_⟩
    have htext : textChunks [] = [] := rfl
    have hfinish : toolCalls (finish ⟨left⟩) = [] := toolCalls_finish _
    simp only [toolCalls_append, htext, List.nil_append, hfinish, List.append_nil]
    split
    · rw [toolCalls_pushTextChunk]
    · rfl

theorem faithful_of_feed (hname : Bare name) (hkeys : ∀ member ∈ members, Bare member.1.toList)
    (hsorted : Assoc.Sorted members)
    (hprinted : ∀ member ∈ members, isString member.2 = false → Printed codec member.2)
    (htagFree : ∀ member ∈ members, isString member.2 = false → TagFree (valueText codec member.2))
    (hfeed : StreamTextNormaliser.feed codec {} [callText codec name members] = some out)
    (hcalls : toolCalls out = [(String.ofList name, .object members)]) :
    Faithful codec name members := by
  obtain ⟨j, hj, hfind⟩ := find_close_body (callBody codec members)
  obtain ⟨later, hlater, hsame⟩ := toolCalls_feed_callText hname hfeed hj hfind
  rw [hcalls] at hsame
  have hnamed : name ≠ [] := by
    rintro rfl
    have hmem : (String.ofList [], Value.object members) ∈ later := by
      rw [show later = _ from hsame.symm]
      exact List.mem_singleton_self _
    exact hlater _ hmem rfl
  rw [if_neg (by rwa [List.isEmpty_iff])] at hsame
  have hmembers : members = parseTaggedParameters codec ((callBody codec members).take j) :=
    Value.object.inj (Prod.mk.inj (List.cons.inj hsame).1).2
  -- the strings that were read have no tag in them
  have htexts : ∀ member ∈ members, TagFree (valueText codec member.2) := by
    rintro ⟨key, value⟩ hmem
    cases value with
    | string s =>
      have hbody : ¬ functionClose <:+: (callBody codec members).take j := by
        rw [← List.take_append_of_le_length hj]
        exact not_infix_take (by decide) hfind (Nat.le_refl j)
      rcases tagFree_of_parse hbody (hmembers ▸ hmem) with hin | hfree
      · cases hin
      · exact hfree
    | null | bool | number | array | object => exact htagFree _ hmem rfl
  obtain rfl : (callBody codec members).length = j :=
    Option.some.inj ((find_close_of_tagFree hkeys htexts).symm.trans hfind)
  rw [List.take_length, parseTaggedParameters_body hsorted hkeys htexts] at hmembers
  have hall : members.filter (fun member => member.1 ≠ "") = members := by
    refine List.filter_sublist.eq_of_length ?_
    have hlen := congrArg List.length hmembers
    rw [List.length_map] at hlen
    exact hlen.symm
  rw [hall] at hmembers
  refine ⟨hnamed, fun member hmem => ?_, htexts, fun member hmem => ?_⟩
  · exact of_decide_eq_true (List.filter_eq_self.mp hall member hmem)
  · rw [← tagged_framed_iff (hprinted member hmem)]
    have hsame := List.map_inj_left.mp ((List.map_id members).trans hmembers) member hmem
    exact (Prod.mk.inj hsame).2.symm

end

/-! ### Round trip -/

/-- What the text of a call gives, however it is cut. -/
def RoundTrips (codec : JsonCodec) (name : String) (input : Value) : Prop :=
  ∀ (id : String) (chunks : List (List Char)),
    chunks.flatten = (renderToolCallsForTextProtocol codec.toString [.toolUse id name input]).toList →
    ∃ out, StreamTextNormaliser.feed codec {} chunks = some out ∧ toolCalls out = [(name, input)]

/-- **Round trip of a call**: a faithful call is read back, and nothing else is emitted with it; and a
call that is read back is faithful, when no tag is in the text of its values that are no strings. -/
theorem roundTrips_iff (codec : JsonCodec) (name : String) (members : List (String × Value))
    (hname : Bare name.toList) (hkeys : ∀ member ∈ members, Bare member.1.toList)
    (hsorted : Assoc.Sorted members)
    (hprinted : ∀ member ∈ members, isString member.2 = false → Printed codec member.2) :
    (Faithful codec name.toList members → RoundTrips codec name (.object members)) ∧
      ((∀ member ∈ members, isString member.2 = false → TagFree (valueText codec member.2)) →
        RoundTrips codec name (.object members) → Faithful codec name.toList members) := by
  constructor
  · intro h id chunks hchunks
    rw [toList_render] at hchunks
    refine ⟨_, feed_callText hname hkeys hsorted hprinted h hchunks, ?_⟩
    rw [String.ofList_toList]
    rfl
  · intro htagFree h
    obtain ⟨out, hfeed, hcalls⟩ := h "" [callText codec name.toList members] (by
      rw [List.flatten_singleton, toList_render])
    refine faithful_of_feed hname hkeys hsorted hprinted htagFree hfeed ?_
    rw [String.ofList_toList]
    exact hcalls

def integerCodec : JsonCodec where
  fromStr s := (parseU64 s).map fun n => .number (.posInt n)
  toString
    | .number (.posInt n) => (toString n).toList
    | _ => []
  parseF64 _ := none

theorem roundTrips_iff_readFile :
    RoundTrips integerCodec "read_file"
      (.object [("offset", .number (.posInt 3)), ("path", .string "a.rs")]) := by
  refine (roundTrips_iff integerCodec "read_file"
    [("offset", .number (.posInt 3)), ("path", .string "a.rs")] ?_ ?_ ?_ ?_).1 ?_
  · exact ⟨by decide, by decide, by decide⟩
  · intro member hmem
    rcases List.mem_cons.mp hmem with rfl | hmem
    · exact ⟨by decide, by decide, by decide⟩
    · obtain rfl := List.mem_singleton.mp hmem
      exact ⟨by decide, by decide, by decide⟩
  · show List.Pairwise (· < ·) ["offset", "path"]
    decide
  · intro member hmem hstring
    rcases List.mem_cons.mp hmem with rfl | hmem
    · exact ⟨by decide, by decide, by decide, ⟨.number (.posInt 3), by decide, rfl⟩⟩
    · obtain rfl := List.mem_singleton.mp hmem
      cases hstring
  · refine ⟨by decide, by decide, ?_, ?_⟩
    · intro member hmem
      rcases List.mem_cons.mp hmem with rfl | hmem
      · show ∀ tag ∈ valueTags, ¬ tag <:+: "3".toList
        decide
      · obtain rfl := List.mem_singleton.mp hmem
        show ∀ tag ∈ valueTags, ¬ tag <:+: "a.rs".toList
        decide
    · intro member hmem
      rcases List.mem_cons.mp hmem with rfl | hmem
      · show integerCodec.fromStr (integerCodec.toString _) = some _
        decide
      obtain rfl := List.mem_singleton.mp hmem
      refine ⟨by decide, .inr ⟨?_, by decide, by decide, rfl⟩⟩
      have hnone : integerCodec.fromStr (trim "a.rs".toList) = none := by decide
      intro v hv
      rw [hnone] at hv
      cases hv

/-- **A string that looks like a number** is read back as the number. -/
theorem numeric_string_reads_as_number :
    ¬ RoundTrips integerCodec "read_file" (.object [("path", .string "42")]) := by
  intro h
  obtain ⟨out, hfeed, hcalls⟩ := h ""
    ["<function=read_file>\n<parameter=path>\n42\n</parameter>\n</function>".toList] (by decide)
  have hread : feed integerCodec {}
      ["<function=read_file>\n<parameter=path>\n42\n</parameter>\n</function>".toList] =
      some [.taggedToolCall "read_file" (.object [("path", .number (.posInt 42))])] := by
    decide
  rw [hread] at hfeed
  obtain rfl := Option.some.inj hfeed
  revert hcalls
  decide

end Vexcoder.Conversation
