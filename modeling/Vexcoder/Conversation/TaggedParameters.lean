import Mathlib.Data.String.Basic
import Vexcoder.Conversation.Tools
import Vexcoder.Stream.NormaliserStep

/-!
# The parameters of a call, written and read

`render_tool_calls_for_text_protocol` writes the input of a call as tagged parameters, a string as it is
and any other value as JSON text; `parse_tagged_parameters` guesses the type of each.  The text of a
value does not say what type it has, and nothing in it is escaped.
-/

namespace Vexcoder.Conversation

open Base Lib Lib.Search Vexcoder.Stream

/-! ### What can be read back -/

/-- No `<` or `>` is in the name, and no quotes or white space are around it. -/
structure Bare (s : List Char) : Prop where
  noOpen : '<' ∉ s
  noClose : '>' ∉ s
  trimmed : trimQuotes s = s

/-- The tags that end a value. -/
def valueTags : List (List Char) := [parameterTag, parameterClose, functionClose]

def TagFree (text : List Char) : Prop := ∀ tag ∈ valueTags, ¬ tag <:+: text

/-- Nothing that the reader tries takes the text for a value of another type. -/
def ReadAsText (codec : JsonCodec) (text : List Char) : Prop :=
  text = [] ∨
    (∀ v, codec.fromStr text = some v → ∃ s, v = .string s) ∧ parseU64 text = none ∧
      parseI64 text = none ∧ codec.parseF64 text = none

def isString : Value → Bool
  | .string _ => true
  | _ => false

/-- A string has no carriage return in front of a line feed, nor at its end, and is no text of another
type; the JSON text of any other value is read as that value. -/
def ReadsBack (codec : JsonCodec) : Value → Prop
  | .string s => ¬ ['\r', '\n'] <:+: s.toList ++ ['\n'] ∧ ReadAsText codec (trim s.toList)
  | v => codec.fromStr (codec.toString v) = some v

def valueText (codec : JsonCodec) (v : Value) : List Char :=
  (textProtocolValue codec.toString v).toList

structure Faithful (codec : JsonCodec) (name : List Char) (members : List (String × Value)) :
    Prop where
  named : name ≠ []
  keyed : ∀ member ∈ members, member.1 ≠ ""
  tagFree : ∀ member ∈ members, TagFree (valueText codec member.2)
  readsBack : ∀ member ∈ members, ReadsBack codec member.2

/-- The JSON text of a value that is no string: compact, and not the text of a string. -/
structure Printed (codec : JsonCodec) (v : Value) : Prop where
  nonempty : codec.toString v ≠ []
  trimmed : trim (codec.toString v) = codec.toString v
  noReturn : '\r' ∉ codec.toString v
  reads : ∃ w, codec.fromStr (codec.toString v) = some w ∧ isString w = false

/-! ### The text of a value -/

/-- What stands between the tags of a parameter. -/
def framed (text : List Char) : List Char := '\n' :: (text ++ ['\n'])

variable {text raw tag : List Char} {codec : JsonCodec} {v : Value} {members : List (String × Value)}

theorem normalize_framed (h : ¬ ['\r', '\n'] <:+: text ++ ['\n']) :
    normalizeTaggedParameterValue (framed text) = text := by
  have hno : ∀ i < (framed text).length, ¬ ['\r', '\n'] <+: (framed text).drop i := by
    intro i hi hpre
    cases i with
    | zero =>
      have := (List.cons_prefix_cons.mp hpre).1
      cases this
    | succ i =>
      refine h (infix_iff_drop.mpr ⟨i, ?_, hpre⟩)
      have : (framed text).length = (text ++ ['\n']).length + 1 := rfl
      omega
  rw [normalizeTaggedParameterValue, replaceAll_eq_self _ hno]
  show (if (text ++ ['\n']).getLast? = some '\n' then (text ++ ['\n']).dropLast else _) = text
  rw [if_pos (by simp), List.dropLast_concat]

theorem replaceFrom_length_le (k : ℕ) (l : List Char) :
    (replaceFrom ['\r', '\n'] ['\n'] k l).length ≤ l.length - k := by
  induction l generalizing k with
  | nil => simp [replaceFrom]
  | cons a l ih =>
    cases k with
    | succ k =>
      have := ih k
      rw [replaceFrom, List.length_cons]
      omega
    | zero =>
      rw [replaceFrom]
      split
      · rename_i h
        have hlen := h.length_le
        have := ih (['\r', '\n'].length - 1)
        simp only [List.length_append, List.length_cons, List.length_nil] at this hlen ⊢
        omega
      · have := ih 0
        simp only [List.length_cons]
        omega

theorem replaceAll_length_lt {l : List Char} (h : ['\r', '\n'] <:+: l) :
    (replaceAll ['\r', '\n'] ['\n'] l).length < l.length := by
  induction l with
  | nil =>
    have := h.length_le
    simp at this
  | cons a l ih =>
    rw [replaceAll, replaceFrom]
    split
    · rename_i hpre
      have hlen := hpre.length_le
      have := replaceFrom_length_le (['\r', '\n'].length - 1) l
      simp only [List.length_append, List.length_cons, List.length_nil] at this hlen ⊢
      omega
    · rename_i hpre
      have hin : ['\r', '\n'] <:+: l := (List.infix_cons_iff.mp h).resolve_left hpre
      have := ih hin
      rw [replaceAll] at this
      simp only [List.length_cons]
      omega

theorem replaceFrom_lineFeed (x : List Char) (k : ℕ) (hk : k ≤ x.length) :
    ∃ y, replaceFrom ['\r', '\n'] ['\n'] k (x ++ ['\n']) = y ++ ['\n'] := by
  induction x generalizing k with
  | nil =>
    obtain rfl : k = 0 := Nat.le_zero.mp hk
    exact ⟨[], by decide⟩
  | cons a x ih =>
    cases k with
    | succ k => exact ih k (Nat.le_of_succ_le_succ hk)
    | zero =>
      rw [List.cons_append, replaceFrom]
      split
      · cases x with
        | nil => exact ⟨[], rfl⟩
        | cons b x =>
          obtain ⟨y, hy⟩ := ih 1 (by rw [List.length_cons]; omega)
          refine ⟨'\n' :: y, ?_⟩
          show ['\n'] ++ replaceFrom _ _ 1 _ = _
          rw [hy]
          rfl
      · obtain ⟨y, hy⟩ := ih 0 (Nat.zero_le _)
        exact ⟨a :: y, by rw [hy]; rfl⟩

/-- The frame is taken off, and the carriage returns in front of line feeds with it. -/
theorem normalize_framed_iff (text : List Char) :
    normalizeTaggedParameterValue (framed text) = text ↔ ¬ ['\r', '\n'] <:+: text ++ ['\n'] := by
  refine ⟨fun hsame hin => ?_, normalize_framed⟩
  have hreplace : replaceAll ['\r', '\n'] ['\n'] (framed text) =
      '\n' :: replaceAll ['\r', '\n'] ['\n'] (text ++ ['\n']) := by
    rw [framed, replaceAll, replaceFrom, if_neg]
    · rfl
    · intro hpre
      have := (List.cons_prefix_cons.mp hpre).1
      cases this
  obtain ⟨y, hy⟩ := replaceFrom_lineFeed text 0 (Nat.zero_le _)
  have hlen := replaceAll_length_lt hin
  rw [normalizeTaggedParameterValue, hreplace, replaceAll, hy] at hsame
  have htext : y = text := by simpa using hsame
  rw [replaceAll, hy, htext] at hlen
  exact Nat.lt_irrefl _ hlen

theorem tagged_of_text (h : ReadAsText codec (trim (normalizeTaggedParameterValue raw))) :
    taggedParameterJsonValue codec raw = .string (String.ofList (normalizeTaggedParameterValue raw)) := by
  unfold taggedParameterJsonValue
  dsimp only
  generalize normalizeTaggedParameterValue raw = value at h
  generalize trim value = trimmed at h
  rcases h with rfl | ⟨hjson, hu64, hi64, hf64⟩
  · rfl
  split
  · rfl
  · rw [hu64, hi64, hf64]
    split
    · rfl
    · rfl
    · rename_i parsed hnot heq
      obtain ⟨s, rfl⟩ := hjson parsed heq
      exact absurd rfl (hnot s)

theorem tagged_of_not_text (h : ¬ ReadAsText codec (trim (normalizeTaggedParameterValue raw))) :
    isString (taggedParameterJsonValue codec raw) = false := by
  unfold taggedParameterJsonValue
  dsimp only
  generalize normalizeTaggedParameterValue raw = value at h
  generalize trim value = trimmed at h
  split
  · rename_i hempty
    exact absurd (.inl (List.isEmpty_iff.mp hempty)) h
  split
  · rename_i s heq
    split
    · rfl
    · rfl
    · rfl
    rename_i hu64 hi64 hf64
    refine absurd (.inr ⟨fun v hv => ?_, hu64, hi64, hf64⟩) h
    rw [heq] at hv
    exact ⟨s, (Option.some.inj hv).symm⟩
  · rename_i heq
    split
    · rfl
    · rfl
    · rfl
    rename_i hu64 hi64 hf64
    refine absurd (.inr ⟨fun v hv => ?_, hu64, hi64, hf64⟩) h
    rw [heq] at hv
    cases hv
  · rename_i parsed hnot heq
    cases parsed with
    | string s => exact absurd rfl (hnot s)
    | null | bool | number | array | object => rfl

theorem tagged_string {s : String} (h : taggedParameterJsonValue codec raw = .string s) :
    s = String.ofList (normalizeTaggedParameterValue raw) := by
  by_cases htext : ReadAsText codec (trim (normalizeTaggedParameterValue raw))
  · rw [tagged_of_text htext] at h
    exact (Value.string.inj h).symm
  · have hnot := tagged_of_not_text htext
    rw [h] at hnot
    cases hnot

/-- The JSON text of a value that is no string is read as JSON. -/
theorem tagged_printed (hv : isString v = false) (h : Printed codec v) :
    some (taggedParameterJsonValue codec (framed (valueText codec v))) =
      codec.fromStr (codec.toString v) := by
  have htext : valueText codec v = codec.toString v := by
    cases v with
    | string s => cases hv
    | null | bool | number | array | object => exact String.toList_ofList
  have hno : ¬ ['\r', '\n'] <:+: codec.toString v ++ ['\n'] := by
    intro hin
    have hmem := hin.subset List.mem_cons_self
    rcases List.mem_append.mp hmem with hmem | hmem
    · exact h.noReturn hmem
    · cases List.mem_singleton.mp hmem
  obtain ⟨w, hread, hw⟩ := h.reads
  have hne : (codec.toString v).isEmpty = false := by
    rw [List.isEmpty_eq_false_iff]
    exact h.nonempty
  rw [htext, taggedParameterJsonValue]
  simp only [normalize_framed hno, h.trimmed, hne, hread]
  cases w with
  | string s => cases hw
  | null | bool | number | array | object => rfl

/-- A framed value is read as itself when it `ReadsBack`. -/
theorem tagged_framed_iff (h : isString v = false → Printed codec v) :
    taggedParameterJsonValue codec (framed (valueText codec v)) = v ↔ ReadsBack codec v := by
  cases v with
  | string s =>
    show taggedParameterJsonValue codec (framed s.toList) = .string s ↔ _ ∧ _
    constructor
    · intro hsame
      have hnorm := congrArg String.toList (tagged_string hsame)
      rw [String.toList_ofList] at hnorm
      replace hnorm := hnorm.symm
      refine ⟨(normalize_framed_iff _).mp hnorm, by_contra fun htext => ?_⟩
      have hnot : isString (taggedParameterJsonValue codec (framed s.toList)) = false :=
        tagged_of_not_text (by rwa [hnorm])
      rw [hsame] at hnot
      cases hnot
    · rintro ⟨hreturn, htext⟩
      have hnorm := normalize_framed hreturn
      rw [tagged_of_text (by rwa [hnorm]), hnorm, String.ofList_toList]
  | null | bool | number | array | object =>
    rw [← Option.some_inj, tagged_printed rfl (h rfl)]
    rfl

/-! ### The parameters -/

theorem valueTag_spec (h : tag ∈ valueTags) : tag ≠ [] ∧ tag.head? = some '<' ∧ '\n' ∉ tag := by
  revert tag
  decide

theorem TagFree.not_prefix (h : TagFree text) (htag : tag ∈ valueTags) (w : List Char) :
    ∀ i < (framed text).length, ¬ tag <+: (framed text).drop i ++ w := by
  obtain ⟨hne, hhead, hfeed⟩ := valueTag_spec htag
  intro i hi hpre
  cases i with
  | zero =>
    obtain ⟨r, rfl⟩ := List.head?_eq_some_iff.mp hhead
    have := (List.cons_prefix_cons.mp hpre).1
    cases this
  | succ i =>
    have hlen : i ≤ text.length := by
      simp only [framed, List.length_cons, List.length_append, List.length_nil] at hi
      omega
    have hdrop : (framed text).drop (i + 1) ++ w = text.drop i ++ '\n' :: w := by
      show (text ++ ['\n']).drop i ++ w = _
      rw [List.drop_append_of_le_length hlen, List.append_assoc]
      rfl
    rw [hdrop] at hpre
    exact h tag htag (infix_iff_drop.mpr ⟨i, hlen, prefix_of_barrier hfeed hpre⟩)

def paramText (key text : List Char) : List Char :=
  parameterTag ++ (key ++ '>' :: (framed text ++ (parameterClose ++ ['\n'])))

def paramsText (codec : JsonCodec) (members : List (String × Value)) : List Char :=
  members.flatMap fun (key, value) => paramText key.toList (valueText codec value)

theorem find_key {key w : List Char} (h : '>' ∉ key) : find ['>'] (key ++ '>' :: w) = some key.length :=
  find_behind (not_prefix_of_head rfl h _) (List.cons_prefix_cons.mpr ⟨rfl, List.nil_prefix⟩)

/-- What the reader does with a parameter: a parameter without a name is passed over. -/
def insertTagged (codec : JsonCodec) (key text : List Char) (input : List (String × Value)) :
    List (String × Value) :=
  if key.isEmpty then input
  else Value.insertMember (String.ofList key) (taggedParameterJsonValue codec (framed text)) input

theorem parseTaggedParametersFrom_param {key before w : List Char} (hkey : Bare key)
    (htext : TagFree text) (hbefore : '<' ∉ before) (fuel : ℕ) (input : List (String × Value)) :
    parseTaggedParametersFrom codec (fuel + 1) (before ++ (paramText key text ++ w)) input =
      parseTaggedParametersFrom codec fuel ('\n' :: w) (insertTagged codec key text input) := by
  have hstart : find parameterTag (before ++ (paramText key text ++ w)) = some before.length := by
    refine find_behind (not_prefix_of_head rfl hbefore _) ?_
    exact List.prefix_append _ _
  have hdrop : (before ++ (paramText key text ++ w)).drop (before.length + parameterTag.length) =
      key ++ '>' :: (framed text ++ (parameterClose ++ '\n' :: w)) := by
    rw [← List.drop_drop, List.drop_left, paramText, List.append_assoc, List.drop_left]
    simp only [List.append_assoc, List.cons_append, List.nil_append]
  have hvalue : (key ++ '>' :: (framed text ++ (parameterClose ++ '\n' :: w))).drop (key.length + 1) =
      framed text ++ (parameterClose ++ '\n' :: w) := by
    rw [← List.drop_drop, List.drop_left]
    rfl
  have hclose : find parameterClose (framed text ++ (parameterClose ++ '\n' :: w)) =
      some (framed text).length :=
    find_behind (htext.not_prefix (by decide) _) (List.prefix_append _ _)
  have hrest : (framed text ++ (parameterClose ++ '\n' :: w)).drop
      ((framed text).length + parameterClose.length) = '\n' :: w := by
    rw [← List.drop_drop, List.drop_left, List.drop_left]
  rw [parseTaggedParametersFrom]
  simp only [hstart, hdrop, find_key hkey.noClose, List.take_left, hvalue, hclose, hkey.trimmed]
  cases hnext : find parameterTag (framed text ++ (parameterClose ++ '\n' :: w)) with
  | none =>
    simp only [hrest, List.take_left]
    rfl
  | some next =>
    have hpre := ((find_eq_some_iff _ _ _).mp hnext).2.1
    have hlate : ¬ next < (framed text).length := by
      intro hlt
      rw [List.drop_append_of_le_length (Nat.le_of_lt hlt)] at hpre
      exact htext.not_prefix (by decide) _ next hlt hpre
    simp only [if_neg hlate, hrest, List.take_left]
    rfl

theorem parseTaggedParametersFrom_params (hkeys : ∀ member ∈ members, Bare member.1.toList)
    (htexts : ∀ member ∈ members, TagFree (valueText codec member.2)) {fuel : ℕ}
    (hfuel : members.length < fuel) (input : List (String × Value)) :
    parseTaggedParametersFrom codec fuel ('\n' :: paramsText codec members) input =
      members.foldl (fun input member =>
        insertTagged codec member.1.toList (valueText codec member.2) input) input := by
  induction members generalizing fuel input with
  | nil =>
    obtain ⟨fuel, rfl⟩ : ∃ n, fuel = n + 1 := ⟨fuel - 1, by
      omega⟩
    have hnone : find parameterTag ('\n' :: paramsText codec []) = none := by
      show find parameterTag ['\n'] = none
      decide
    rw [parseTaggedParametersFrom]
    simp only [hnone, List.foldl_nil]
  | cons member members ih =>
    obtain ⟨fuel, rfl⟩ : ∃ n, fuel = n + 1 := ⟨fuel - 1, by omega⟩
    have hturn : parseTaggedParametersFrom codec (fuel + 1) (['\n'] ++
        (paramText member.1.toList (valueText codec member.2) ++ paramsText codec members)) input = _ :=
      parseTaggedParametersFrom_param (hkeys member List.mem_cons_self)
        (htexts member List.mem_cons_self) (by decide) fuel input
    rw [List.length_cons] at hfuel
    refine hturn.trans (ih ?_ ?_ (by omega) _)
    · exact fun m hm => hkeys m (List.mem_cons_of_mem _ hm)
    · exact fun m hm => htexts m (List.mem_cons_of_mem _ hm)

/-! ### The members that are read -/

theorem insertMember_last {key : String} {value : Value} (h : ∀ k ∈ Assoc.keys members, k < key) :
    Value.insertMember key value members = members ++ [(key, value)] := by
  induction members with
  | nil => rfl
  | cons member members ih =>
    obtain ⟨k, v⟩ := member
    have hlt : k < key := h k List.mem_cons_self
    rw [Value.insertMember, if_neg hlt.ne', if_neg hlt.not_gt,
      ih fun k hk => h k (List.mem_cons_of_mem _ hk), List.cons_append]

/-- The members come back in their order, without those that have no name. -/
theorem foldl_insertTagged {done : List (String × Value)} (hsorted : Assoc.Sorted (done ++ members)) :
    members.foldl (fun input member =>
        insertTagged codec member.1.toList (valueText codec member.2) input) done =
      done ++ (members.filter fun member => member.1 ≠ "").map fun member =>
        (member.1, taggedParameterJsonValue codec (framed (valueText codec member.2))) := by
  induction members generalizing done with
  | nil => exact (List.append_nil done).symm
  | cons member members ih =>
    obtain ⟨key, value⟩ := member
    rw [List.foldl_cons, List.filter_cons]
    by_cases hkey : key = ""
    · subst hkey
      have hsub : (done ++ members).Sublist (done ++ ("", value) :: members) :=
        (List.Sublist.refl done).append (List.sublist_cons_self _ _)
      exact ih (hsorted.sublist (hsub.map Prod.fst))
    · have hempty : key.toList.isEmpty = false := by
        rw [List.isEmpty_eq_false_iff]
        exact fun hnil => hkey (String.toList_eq_nil_iff.mp hnil)
      have hlast : ∀ k ∈ Assoc.keys done, k < key := by
        intro k hk
        have hpair := hsorted
        rw [Assoc.Sorted, Assoc.keys, List.map_append, List.pairwise_append] at hpair
        exact hpair.2.2 k hk key List.mem_cons_self
      have hinsert : insertTagged codec key.toList (valueText codec value) done =
          done ++ [(key, taggedParameterJsonValue codec (framed (valueText codec value)))] := by
        rw [insertTagged, if_neg (by rw [hempty]; exact Bool.false_ne_true), String.ofList_toList,
          insertMember_last hlast]
      have hsorted' : Assoc.Sorted
          (done ++ [(key, taggedParameterJsonValue codec (framed (valueText codec value)))] ++ members) := by
        rw [List.append_assoc]
        simpa only [Assoc.Sorted, Assoc.keys, List.map_append, List.map_cons, List.singleton_append]
          using hsorted
      have hrest := ih hsorted'
      rw [hinsert, hrest, if_pos (by simpa using hkey), List.append_assoc]
      rfl

/-! ### A string that is read has no tag -/

theorem infix_of_normalize (htag : tag ∈ valueTags) (h : tag <:+: normalizeTaggedParameterValue raw) :
    tag <:+: raw := by
  have hno : ∀ c ∈ ['\n'], c ∉ tag := by
    intro c hc hmem
    obtain rfl := List.mem_singleton.mp hc
    exact (valueTag_spec htag).2.2 hmem
  refine infix_of_replaceFrom (List.cons_ne_nil _ _) hno
    (show tag <:+: replaceAll ['\r', '\n'] ['\n'] raw from ?_)
  have hdrop (value : List Char)
      (h : tag <:+: if value.getLast? = some '\n' then value.dropLast else value) :
      tag <:+: value := by
    split at h
    · exact h.trans (List.dropLast_prefix value).isInfix
    · exact h
  replace h := hdrop _ h
  split at h
  · rename_i rest heq
    rw [heq]
    exact h.trans (List.suffix_cons _ _).isInfix
  · exact h

theorem mem_insertMember {key k : String} {value : Value}
    (h : (k, v) ∈ Value.insertMember key value members) :
    (k, v) = (key, value) ∨ (k, v) ∈ members := by
  induction members with
  | nil => exact .inl (List.mem_singleton.mp h)
  | cons member members ih =>
    rw [Value.insertMember] at h
    split at h
    · rcases List.mem_cons.mp h with h | h
      · exact .inl h
      · exact .inr (List.mem_cons_of_mem _ h)
    · split at h
      · exact List.mem_cons.mp h
      · rcases List.mem_cons.mp h with h | h
        · exact .inr (h ▸ List.mem_cons_self)
        · exact (ih h).imp_right (List.mem_cons_of_mem _)

theorem tagFree_take {n : ℕ} (hfunction : ¬ functionClose <:+: text)
    (hclose : ∀ i, find parameterClose text = some i → n ≤ i)
    (htag : ∀ i, find parameterTag text = some i → n ≤ i) : TagFree (text.take n) := by
  have hfree (tag : List Char) (hne : tag ≠ []) (h : ∀ i, find tag text = some i → n ≤ i) :
      ¬ tag <:+: text.take n := by
    cases hfind : find tag text with
    | none =>
      intro hin
      exact find_eq_none_iff_not_inside.mp hfind (hin.trans (List.take_prefix n text).isInfix)
    | some i => exact not_infix_take hne hfind (h i hfind)
  intro tag hmem
  rcases List.mem_cons.mp hmem with rfl | hmem
  · exact hfree parameterTag (by decide) htag
  rcases List.mem_cons.mp hmem with rfl | hmem
  · exact hfree parameterClose (by decide) hclose
  · obtain rfl := List.mem_singleton.mp hmem
    exact fun hin => hfunction (hin.trans (List.take_prefix n text).isInfix)

theorem tagFree_of_parse {fuel : ℕ} {body : List Char} {input : List (String × Value)}
    (hbody : ¬ functionClose <:+: body) {k s : String}
    (h : (k, .string s) ∈ parseTaggedParametersFrom codec fuel body input) :
    (k, .string s) ∈ input ∨ TagFree s.toList := by
  induction fuel generalizing body input with
  | zero => exact .inl h
  | succ fuel ih =>
    rw [parseTaggedParametersFrom] at h
    split at h
    · exact .inl h
    rename_i parameterRel hparameter
    dsimp only at h
    split at h
    · exact .inl h
    rename_i keyEnd hkey
    generalize hvalue : (body.drop (parameterRel + parameterTag.length)).drop (keyEnd + 1) = valueText at h
    have hsuffix : valueText <:+: body := by
      rw [← hvalue]
      exact ((List.drop_suffix _ _).trans (List.drop_suffix _ _)).isInfix
    have hfunction : ¬ functionClose <:+: valueText := fun hin => hbody (hin.trans hsuffix)
    generalize trimQuotes _ = key at h
    have turn (stop next : ℕ) (hclose : ∀ i, find parameterClose valueText = some i → stop ≤ i)
        (htag : ∀ i, find parameterTag valueText = some i → stop ≤ i)
        (h : (k, .string s) ∈ parseTaggedParametersFrom codec fuel (valueText.drop next)
          (if key.isEmpty then input
          else Value.insertMember (String.ofList key)
            (taggedParameterJsonValue codec (valueText.take stop)) input)) :
        (k, .string s) ∈ input ∨ TagFree s.toList := by
      have hrest : ¬ functionClose <:+: valueText.drop next := fun hin =>
        hfunction (hin.trans (List.drop_suffix _ _).isInfix)
      rcases ih hrest h with hin | hs
      · split at hin
        · exact .inl hin
        · rcases mem_insertMember hin with heq | hin
          · obtain ⟨-, hread⟩ := Prod.mk.inj heq
            rw [tagged_string hread.symm, String.toList_ofList]
            have hfree := tagFree_take hfunction hclose htag
            exact .inr fun tag htag hin => hfree tag htag (infix_of_normalize htag hin)
          · exact .inl hin
      · exact .inr hs
    cases hclose : find parameterClose valueText with
    | none =>
      cases htag : find parameterTag valueText with
      | none =>
        exact turn _ _ (by simp [hclose]) (by simp [htag]) h
      | some next =>
        simp only [hclose, htag] at h
        exact turn _ _ (by simp [hclose]) (by simp [htag]) h
    | some close =>
      cases htag : find parameterTag valueText with
      | none =>
        simp only [hclose, htag] at h
        exact turn _ _ (by simp [hclose]) (by simp [htag]) h
      | some next =>
        simp only [hclose, htag] at h
        split at h
        · refine turn _ _ ?_ (by simp [htag]) h
          intro i hi
          obtain rfl := Option.some.inj (hclose.symm.trans hi)
          show next ≤ close
          omega
        · refine turn _ _ (by simp [hclose]) ?_ h
          intro i hi
          obtain rfl := Option.some.inj (htag.symm.trans hi)
          show close ≤ next
          omega

end Vexcoder.Conversation
