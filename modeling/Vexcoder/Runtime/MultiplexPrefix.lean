import Vexcoder.Base.Json
import Vexcoder.Base.Lines
import Vexcoder.Lib.Assoc
import Mathlib.Data.List.Sort
import Mathlib.Data.List.Perm.Subperm
import Mathlib.Data.String.Basic

/-!
# The shared prefix

`implemented_json` writes a prefix as one JSON text in which nothing is left that does not count: blanks
at the ends of lines, the order of the tools, the order of the members of an object.  Here the members
of an object stand in any order, each key once.

Two prefixes have the same text exactly when what counts is the same in both
(`implementedJson_eq_iff`), where a prompt without any line and one with a single blank line count as the
same.
-/

namespace Vexcoder.Base.Value

open Lib.Assoc

mutual
/-- The keys of every object, at any depth, are different. -/
def Distinct : Value → Prop
  | .array xs => DistinctItems xs
  | .object m => (keys m).Nodup ∧ DistinctMembers m
  | _ => True

def DistinctItems : List Value → Prop
  | [] => True
  | x :: xs => Distinct x ∧ DistinctItems xs

def DistinctMembers : List (String × Value) → Prop
  | [] => True
  | (_, x) :: m => Distinct x ∧ DistinctMembers m
end

mutual
/-- The same value up to the order of the members of objects, at any depth. -/
def Alike : Value → Value → Prop
  | .array xs, .array ys => AlikeItems xs ys
  | .object m, .object n => m.length = n.length ∧ AlikeMembers m n
  | v, w => v = w

def AlikeItems : List Value → List Value → Prop
  | [], [] => True
  | x :: xs, y :: ys => Alike x y ∧ AlikeItems xs ys
  | _, _ => False

/-- Every member has one with its key among the others. -/
def AlikeMembers : List (String × Value) → List (String × Value) → Prop
  | [], _ => True
  | (key, x) :: m, n => (∃ y, (key, y) ∈ n ∧ Alike x y) ∧ AlikeMembers m n
end

end Vexcoder.Base.Value

namespace Vexcoder.Runtime.MultiplexPrefix

open Base Base.Value Lib.Assoc

structure ToolDescriptor where
  name : String
  schema : Value
  distinct : schema.Distinct

structure SharedPrefix where
  systemPrompt : String := ""
  tools : List ToolDescriptor := []
  workspaceContext : String := ""

/-! ### The text of a prefix -/

def sortMembers (members : List (String × Value)) : List (String × Value) :=
  ((keys members).insertionSort (· ≤ ·)).filterMap fun key =>
    (find? key members).map fun entry => (key, entry)

mutual
def thinJsonValue : Value → Value
  | .array items => .array (thinItems items)
  | .object members => .object (sortMembers (thinMembers members))
  | value => value

def thinItems : List Value → List Value
  | [] => []
  | item :: items => thinJsonValue item :: thinItems items

def thinMembers : List (String × Value) → List (String × Value)
  | [] => []
  | (key, entry) :: members => (key, thinJsonValue entry) :: thinMembers members
end

def thinJsonString (codec : JsonCodec) (value : Value) : String :=
  String.ofList (codec.toString (thinJsonValue value))

def trimmedLines (input : String) : List String := (Text.lines input).map Text.trimEnd

def normalisePrompt (input : String) : String := Text.join "\n" (trimmedLines input)

structure ImplementedTool where
  name : String
  schema : Value
  schemaJson : String

namespace ImplementedTool

def of (codec : JsonCodec) (tool : ToolDescriptor) : ImplementedTool :=
  let schema := thinJsonValue tool.schema
  { name := tool.name, schema, schemaJson := thinJsonString codec schema }

/-- The order of the tools: by name, then by the text of the schema. -/
def Before (a b : ImplementedTool) : Prop :=
  a.name < b.name ∨ a.name = b.name ∧ a.schemaJson ≤ b.schemaJson

instance : DecidableRel Before := fun _ _ => inferInstanceAs (Decidable (_ ∨ _))

def entry (tool : ImplementedTool) : Value :=
  .object [("name", .string tool.name), ("schema", tool.schema)]

end ImplementedTool

namespace SharedPrefix

variable (codec : JsonCodec) (shared : SharedPrefix)

def implementedTools : List ImplementedTool :=
  (shared.tools.map (ImplementedTool.of codec)).insertionSort ImplementedTool.Before

def implementedValue : Value :=
  .object
    [("system_prompt", .string (normalisePrompt shared.systemPrompt)),
      ("tools", .array ((shared.implementedTools codec).map ImplementedTool.entry)),
      ("workspace_context", .string (Text.trimEnd shared.workspaceContext))]

def implementedJson : String := thinJsonString codec (shared.implementedValue codec)

/-! ### What counts -/

/-- The same tools, each as often, up to the order of the members in their schemas. -/
def SameTools (tools tools' : List ToolDescriptor) : Prop :=
  ∃ reordered, tools.Perm reordered ∧
    List.Forall₂ (fun tool tool' : ToolDescriptor =>
      tool.name = tool'.name ∧ tool.schema.Alike tool'.schema) reordered tools'

/-- No line, or one that is blank. -/
def IsBlankPrompt (input : String) : Prop := trimmedLines input = [] ∨ trimmedLines input = [""]

/-- The values whose texts are compared or given out. -/
def Writes (value : Value) : Prop :=
  value = shared.implementedValue codec ∨ ∃ tool ∈ shared.tools, value = thinJsonValue tool.schema

end SharedPrefix

/-! ### Members in order -/

variable {members members' : List (String × Value)}

theorem keys_thinMembers (members : List (String × Value)) : keys (thinMembers members) = keys members := by
  induction members with
  | nil => rfl
  | cons entry members ih =>
    obtain ⟨key, value⟩ := entry
    exact congrArg (key :: ·) ih

theorem mem_thinMembers {key : String} {value : Value} :
    (key, value) ∈ thinMembers members ↔ ∃ entry, (key, entry) ∈ members ∧ thinJsonValue entry = value := by
  induction members with
  | nil => simp [thinMembers]
  | cons head members ih =>
    obtain ⟨other, entry⟩ := head
    simp only [thinMembers, List.mem_cons, ih, Prod.mk.injEq]
    constructor
    · rintro (⟨rfl, rfl⟩ | ⟨entry', hmem, rfl⟩)
      · exact ⟨entry, .inl ⟨rfl, rfl⟩, rfl⟩
      · exact ⟨entry', .inr hmem, rfl⟩
    · rintro ⟨entry', ⟨rfl, rfl⟩ | hmem, rfl⟩
      · exact .inl ⟨rfl, rfl⟩
      · exact .inr ⟨entry', hmem, rfl⟩

theorem filterMap_keys (h : (keys members).Nodup) :
    ((keys members).filterMap fun key => (find? key members).map fun entry => (key, entry)) =
      members := by
  rw [keys, List.filterMap_map]
  refine (List.filterMap_congr ?_).trans (List.filterMap_some (l := members))
  intro entry hmem
  rw [Function.comp_apply, find?_of_mem h hmem]
  rfl

theorem sortMembers_perm (h : (keys members).Nodup) : (sortMembers members).Perm members := by
  have hsort := (List.perm_insertionSort (· ≤ ·) (keys members)).filterMap fun key =>
    (find? key members).map fun entry => (key, entry)
  rw [filterMap_keys h] at hsort
  exact hsort

theorem keys_sortMembers (members : List (String × Value)) :
    keys (sortMembers members) = (keys members).insertionSort (· ≤ ·) := by
  rw [sortMembers, keys, List.map_filterMap]
  refine (List.filterMap_congr ?_).trans (List.filterMap_some (l := (keys members).insertionSort (· ≤ ·)))
  intro key hkey
  have hmem := (List.mem_insertionSort _).mp hkey
  obtain ⟨value, hvalue⟩ := Option.isSome_iff_exists.mp (mem_keys_iff_find?.mp hmem)
  rw [hvalue]
  rfl

theorem pairwise_sortMembers (members : List (String × Value)) :
    (sortMembers members).Pairwise fun a b => a.1 ≤ b.1 := by
  have hsorted := List.pairwise_insertionSort (· ≤ ·) (keys members)
  rw [← keys_sortMembers, keys, List.pairwise_map] at hsorted
  exact hsorted

theorem sortMembers_eq_iff (h : (keys members).Nodup) (h' : (keys members').Nodup) :
    sortMembers members = sortMembers members' ↔ members.Perm members' := by
  constructor
  · intro heq
    exact (sortMembers_perm h).symm.trans (heq ▸ sortMembers_perm h')
  · intro hperm
    refine List.Perm.eq_of_pairwise ?_ (pairwise_sortMembers members) (pairwise_sortMembers members')
      ((sortMembers_perm h).trans (hperm.trans (sortMembers_perm h').symm))
    intro a b ha hb hle hge
    have hmem := (sortMembers_perm h).mem_iff.mp ha
    have hmem' := hperm.mem_iff.mpr ((sortMembers_perm h').mem_iff.mp hb)
    exact List.inj_on_of_nodup_map h hmem hmem' (le_antisymm hle hge)

theorem sortMembers_of_sorted (hsorted : (keys members).Pairwise (· < ·)) :
    sortMembers members = members := by
  rw [sortMembers, (hsorted.imp le_of_lt).insertionSort_eq]
  exact filterMap_keys (hsorted.imp ne_of_lt)

theorem sortMembers_sortMembers (h : (keys members).Nodup) :
    sortMembers (sortMembers members) = sortMembers members := by
  have hperm := sortMembers_perm h
  exact (sortMembers_eq_iff ((hperm.map Prod.fst).nodup_iff.mpr h) h).mpr hperm

/-- All members of one object stand in another that is not longer. -/
theorem perm_iff_subset (h : (keys members).Nodup) :
    members.Perm members' ↔ members.length = members'.length ∧ ∀ a ∈ members, a ∈ members' := by
  constructor
  · intro hperm
    exact ⟨hperm.length_eq, fun a => hperm.mem_iff.mp⟩
  · rintro ⟨hlen, hsubset⟩
    exact (List.subperm_of_subset h.of_map hsubset).perm_of_length_le hlen.ge

/-! ### The canonical form -/

theorem distinct_of_mem {key : String} {value : Value} (h : DistinctMembers members)
    (hmem : (key, value) ∈ members) : value.Distinct := by
  induction members with
  | nil => cases hmem
  | cons entry members ih =>
    rcases List.mem_cons.mp hmem with rfl | hmem
    · exact h.1
    · exact ih h.2 hmem

theorem length_thinMembers (members : List (String × Value)) :
    (thinMembers members).length = members.length := by
  have hkeys := congrArg List.length (keys_thinMembers members)
  rw [keys, List.length_map, keys, List.length_map] at hkeys
  exact hkeys

mutual
/-- **Values have the same canonical form exactly when they are alike.** -/
theorem thinJsonValue_eq_iff : ∀ v w : Value, v.Distinct → w.Distinct →
    (thinJsonValue v = thinJsonValue w ↔ v.Alike w)
  | .null, w, _, _ => by cases w <;> simp [thinJsonValue, Alike]
  | .bool _, w, _, _ => by cases w <;> simp [thinJsonValue, Alike]
  | .number _, w, _, _ => by cases w <;> simp [thinJsonValue, Alike]
  | .string _, w, _, _ => by cases w <;> simp [thinJsonValue, Alike]
  | .array xs, w, h, h' => by
    cases w with
    | array ys =>
      rw [thinJsonValue, thinJsonValue, Value.array.injEq, Alike]
      exact thinItems_eq_iff xs ys h h'
    | _ => simp [thinJsonValue, Alike]
  | .object m, w, h, h' => by
    cases w with
    | object n =>
      have hkeys : (keys (thinMembers m)).Nodup := (keys_thinMembers m).symm ▸ h.1
      have hkeys' : (keys (thinMembers n)).Nodup := (keys_thinMembers n).symm ▸ h'.1
      rw [thinJsonValue, thinJsonValue, Value.object.injEq, Alike, sortMembers_eq_iff hkeys hkeys',
        perm_iff_subset hkeys, length_thinMembers, length_thinMembers,
        thinMembers_subset_iff m n h.2 h'.2]
    | _ => simp [thinJsonValue, Alike]

theorem thinItems_eq_iff : ∀ xs ys : List Value, DistinctItems xs → DistinctItems ys →
    (thinItems xs = thinItems ys ↔ AlikeItems xs ys)
  | [], ys, _, _ => by cases ys <;> simp [thinItems, AlikeItems]
  | x :: xs, ys, h, h' => by
    cases ys with
    | nil => simp [thinItems, AlikeItems]
    | cons y ys =>
      rw [thinItems, thinItems, List.cons.injEq, AlikeItems, thinJsonValue_eq_iff x y h.1 h'.1,
        thinItems_eq_iff xs ys h.2 h'.2]

theorem thinMembers_subset_iff : ∀ m n : List (String × Value), DistinctMembers m →
    DistinctMembers n → ((∀ a ∈ thinMembers m, a ∈ thinMembers n) ↔ AlikeMembers m n)
  | [], n, _, _ => by simp [thinMembers, AlikeMembers]
  | (key, x) :: m, n, h, h' => by
    rw [thinMembers, List.forall_mem_cons, AlikeMembers, thinMembers_subset_iff m n h.2 h', mem_thinMembers]
    refine and_congr_left fun _ => exists_congr fun y => and_congr_right fun hmem => ?_
    rw [eq_comm]
    exact thinJsonValue_eq_iff x y h.1 (distinct_of_mem h' hmem)
end

theorem thinItems_eq_map (items : List Value) : thinItems items = items.map thinJsonValue := by
  induction items with
  | nil => rfl
  | cons item items ih => rw [thinItems, ih, List.map_cons]

theorem thinMembers_eq_self (h : ∀ a ∈ members, thinJsonValue a.2 = a.2) : thinMembers members = members := by
  induction members with
  | nil => rfl
  | cons entry members ih =>
    obtain ⟨key, value⟩ := entry
    rw [List.forall_mem_cons] at h
    rw [thinMembers, h.1, ih h.2]

mutual
theorem thinJsonValue_thinJsonValue : ∀ v : Value, v.Distinct →
    thinJsonValue (thinJsonValue v) = thinJsonValue v
  | .null, _ => rfl
  | .bool _, _ => rfl
  | .number _, _ => rfl
  | .string _, _ => rfl
  | .array xs, h => by
    rw [thinJsonValue, thinJsonValue, thinItems_thinItems xs h]
  | .object m, h => by
    have hkeys : (keys (thinMembers m)).Nodup := (keys_thinMembers m).symm ▸ h.1
    have hthin : thinMembers (sortMembers (thinMembers m)) = sortMembers (thinMembers m) :=
      thinMembers_eq_self fun a ha =>
        thinMembers_thin m h.2 a ((sortMembers_perm hkeys).mem_iff.mp ha)
    rw [thinJsonValue, thinJsonValue, hthin, sortMembers_sortMembers hkeys]

theorem thinItems_thinItems : ∀ xs : List Value, DistinctItems xs → thinItems (thinItems xs) = thinItems xs
  | [], _ => rfl
  | x :: xs, h => by
    rw [thinItems, thinItems, thinJsonValue_thinJsonValue x h.1, thinItems_thinItems xs h.2]

theorem thinMembers_thin : ∀ m : List (String × Value), DistinctMembers m →
    ∀ a ∈ thinMembers m, thinJsonValue a.2 = a.2
  | [], _ => nofun
  | (key, x) :: m, h => by
    rw [thinMembers, List.forall_mem_cons]
    exact ⟨thinJsonValue_thinJsonValue x h.1, thinMembers_thin m h.2⟩
end

/-! ### Tools -/

namespace ImplementedTool

variable {codec : JsonCodec} {a b : ImplementedTool}

theorem before_total (a b : ImplementedTool) : a.Before b ∨ b.Before a := by
  rcases lt_trichotomy a.name b.name with hlt | heq | hgt
  · exact .inl (.inl hlt)
  · rcases le_total a.schemaJson b.schemaJson with hle | hge
    · exact .inl (.inr ⟨heq, hle⟩)
    · exact .inr (.inr ⟨heq.symm, hge⟩)
  · exact .inr (.inl hgt)

theorem before_trans {c : ImplementedTool} (h : a.Before b) (h' : b.Before c) : a.Before c := by
  rcases h with hlt | ⟨heq, hle⟩
  · rcases h' with hlt' | ⟨heq', -⟩
    · exact .inl (hlt.trans hlt')
    · exact .inl (heq' ▸ hlt)
  · rcases h' with hlt' | ⟨heq', hle'⟩
    · exact .inl (heq ▸ hlt')
    · exact .inr ⟨heq.trans heq', hle.trans hle'⟩

theorem before_antisymm (h : a.Before b) (h' : b.Before a) :
    a.name = b.name ∧ a.schemaJson = b.schemaJson := by
  rcases h with hlt | ⟨heq, hle⟩
  · rcases h' with hlt' | ⟨heq', -⟩
    · exact absurd (hlt.trans hlt') (lt_irrefl _)
    · exact absurd (heq' ▸ hlt) (lt_irrefl _)
  · rcases h' with hlt' | ⟨-, hge⟩
    · exact absurd (heq ▸ hlt') (lt_irrefl _)
    · exact ⟨heq, le_antisymm hle hge⟩

theorem pairwise_sort (tools : List ImplementedTool) : (tools.insertionSort Before).Pairwise Before := by
  have : IsTrans ImplementedTool Before := ⟨fun _ _ _ => before_trans⟩
  have : Std.Total (Before : ImplementedTool → ImplementedTool → Prop) := ⟨before_total⟩
  exact List.pairwise_insertionSort Before tools

/-- Sorted lists are the same when the tools are, where the text of a schema tells it. -/
theorem sort_eq_iff {tools tools' : List ImplementedTool}
    (htells : ∀ a ∈ tools, ∀ b ∈ tools, a.schemaJson = b.schemaJson → a.schema = b.schema) :
    tools.insertionSort Before = tools'.insertionSort Before ↔ tools.Perm tools' := by
  have hsort := List.perm_insertionSort Before tools
  have hsort' := List.perm_insertionSort Before tools'
  constructor
  · intro heq
    exact hsort.symm.trans (heq ▸ hsort')
  · intro hperm
    refine List.Perm.eq_of_pairwise ?_ (pairwise_sort tools) (pairwise_sort tools')
      (hsort.trans (hperm.trans hsort'.symm))
    intro a b ha hb hab hba
    obtain ⟨hname, hjson⟩ := before_antisymm hab hba
    have hschema := htells a (hsort.mem_iff.mp ha) b (hperm.mem_iff.mpr (hsort'.mem_iff.mp hb)) hjson
    cases a
    cases b
    cases hname
    cases hjson
    cases hschema
    rfl

theorem of_eq_of_iff {tool tool' : ToolDescriptor} :
    of codec tool = of codec tool' ↔ tool.name = tool'.name ∧ tool.schema.Alike tool'.schema := by
  rw [← thinJsonValue_eq_iff _ _ tool.distinct tool'.distinct]
  constructor
  · intro h
    exact ⟨congrArg ImplementedTool.name h, congrArg ImplementedTool.schema h⟩
  · rintro ⟨hname, hschema⟩
    rw [of, of, hname, hschema]

end ImplementedTool

/-- Images in any order, where the same image is told by a relation. -/
theorem map_perm_map_iff {α β : Type} {f : α → β} {r : α → α → Prop} {l l' : List α}
    (hr : ∀ x y, f x = f y ↔ r x y) :
    (l.map f).Perm (l'.map f) ↔ ∃ middle, l.Perm middle ∧ List.Forall₂ r middle l' := by
  have himage : ∀ k : List α, List.Forall₂ r k l' ↔ k.map f = l'.map f := by
    intro k
    rw [← List.forall₂_eq_eq_eq, List.forall₂_map_left_iff, List.forall₂_map_right_iff]
    exact ⟨fun h => h.imp fun x y => (hr x y).mpr, fun h => h.imp fun x y => (hr x y).mp⟩
  constructor
  · intro hperm
    have hcomp : Relation.Comp (List.Forall₂ fun x y => f x = y) List.Perm l (l'.map f) := by
      refine ⟨l.map f, ?_, hperm⟩
      rw [List.forall₂_map_right_iff]
      exact List.forall₂_refl l
    rw [List.forall₂_comp_perm_eq_perm_comp_forall₂] at hcomp
    obtain ⟨middle, hmiddle, hall⟩ := hcomp
    rw [List.forall₂_map_right_iff] at hall
    exact ⟨middle, hmiddle, hall.imp fun x y => (hr x y).mp⟩
  · rintro ⟨middle, hmiddle, hall⟩
    exact (hmiddle.map f).trans (.of_eq ((himage middle).mp hall))

/-! ### Prompts -/

theorem newline_not_mem_trimmedLines {input line : String} (h : line ∈ trimmedLines input) :
    '\n' ∉ line.toList := by
  obtain ⟨untrimmed, hmem, rfl⟩ := List.mem_map.mp h
  intro hnewline
  refine Text.newline_not_mem_of_mem_lines hmem ?_
  rw [Text.trimEnd, String.toList_ofList, trimEnd, List.mem_reverse] at hnewline
  exact List.mem_reverse.mp ((List.dropWhile_sublist _).mem hnewline)

/-- **Normalised prompts are the same when the lines are**, or when neither has more than a blank one. -/
theorem normalisePrompt_eq_iff {input input' : String} :
    normalisePrompt input = normalisePrompt input' ↔ trimmedLines input = trimmedLines input' ∨
      SharedPrefix.IsBlankPrompt input ∧ SharedPrefix.IsBlankPrompt input' := by
  have hblank : ∀ K : List String, (∀ l ∈ K, '\n' ∉ l.toList) → Text.join "\n" K = "" →
      K = [] ∨ K = [""] := by
    intro K hK hjoin
    by_cases hnil : K = []
    · exact .inl hnil
    · have hpieces := Text.pieces_join hnil hK
      rw [hjoin] at hpieces
      exact .inr (hpieces.symm.trans (by decide +kernel))
  have hlines : ∀ line ∈ trimmedLines input, '\n' ∉ line.toList :=
    fun _ => newline_not_mem_trimmedLines
  have hlines' : ∀ line ∈ trimmedLines input', '\n' ∉ line.toList :=
    fun _ => newline_not_mem_trimmedLines
  rw [normalisePrompt, normalisePrompt, SharedPrefix.IsBlankPrompt]
  constructor
  · intro heq
    by_cases hnil : trimmedLines input = []
    · rw [hnil] at heq
      exact .inr ⟨.inl hnil, hblank _ hlines' heq.symm⟩
    by_cases hnil' : trimmedLines input' = []
    · rw [hnil'] at heq
      exact .inr ⟨hblank _ hlines heq, .inl hnil'⟩
    · refine .inl ?_
      rw [← Text.pieces_join hnil hlines, heq, Text.pieces_join hnil' hlines']
  · rintro (heq | ⟨hleft, hright⟩)
    · rw [heq]
    · rcases hleft with hleft | hleft <;> rcases hright with hright | hright <;> rw [hleft, hright] <;> rfl

/-! ### The text of a prefix -/

namespace SharedPrefix

variable {codec : JsonCodec} {shared a b : SharedPrefix}

/-- The tools of a prefix have their canonical form already. -/
theorem thin_entry {tool : ImplementedTool} (h : tool ∈ shared.implementedTools codec) :
    thinJsonValue tool.entry = tool.entry := by
  have hmem := (List.mem_insertionSort _).mp h
  obtain ⟨descriptor, -, rfl⟩ := List.mem_map.mp hmem
  show Value.object (sortMembers [("name", .string descriptor.name),
    ("schema", thinJsonValue (thinJsonValue descriptor.schema))]) = _
  rw [thinJsonValue_thinJsonValue _ descriptor.distinct, sortMembers_of_sorted]
  · rfl
  · show ["name", "schema"].Pairwise (· < ·)
    decide

theorem thin_implementedValue :
    thinJsonValue (shared.implementedValue codec) = shared.implementedValue codec := by
  have htools : thinItems ((shared.implementedTools codec).map ImplementedTool.entry) =
      (shared.implementedTools codec).map ImplementedTool.entry := by
    rw [thinItems_eq_map, List.map_map]
    exact List.map_congr_left fun tool htool => thin_entry htool
  rw [implementedValue]
  simp only [thinMembers, thinJsonValue, htools]
  rw [sortMembers_of_sorted]
  show ["system_prompt", "tools", "workspace_context"].Pairwise (· < ·)
  decide

theorem implementedTools_eq_iff (htells : ∀ tool ∈ a.tools, ∀ tool' ∈ a.tools,
      codec.toString (thinJsonValue tool.schema) = codec.toString (thinJsonValue tool'.schema) →
        thinJsonValue tool.schema = thinJsonValue tool'.schema) :
    a.implementedTools codec = b.implementedTools codec ↔ SameTools a.tools b.tools := by
  rw [implementedTools, implementedTools, ImplementedTool.sort_eq_iff, SameTools,
    map_perm_map_iff fun _ _ => ImplementedTool.of_eq_of_iff]
  intro tool htool tool' htool' hjson
  obtain ⟨descriptor, hmem, rfl⟩ := List.mem_map.mp htool
  obtain ⟨descriptor', hmem', rfl⟩ := List.mem_map.mp htool'
  refine htells descriptor hmem descriptor' hmem' ?_
  have htext : codec.toString (thinJsonValue (thinJsonValue descriptor.schema)) =
      codec.toString (thinJsonValue (thinJsonValue descriptor'.schema)) := String.ofList_inj.mp hjson
  rw [thinJsonValue_thinJsonValue _ descriptor.distinct,
    thinJsonValue_thinJsonValue _ descriptor'.distinct] at htext
  exact htext

theorem entry_inj {tool tool' : ImplementedTool} (h : tool ∈ a.implementedTools codec)
    (h' : tool' ∈ b.implementedTools codec) (heq : tool.entry = tool'.entry) : tool = tool' := by
  obtain ⟨descriptor, -, rfl⟩ := List.mem_map.mp ((List.mem_insertionSort _).mp h)
  obtain ⟨descriptor', -, rfl⟩ := List.mem_map.mp ((List.mem_insertionSort _).mp h')
  simp only [ImplementedTool.entry, ImplementedTool.of, Value.object.injEq, List.cons.injEq,
    Prod.mk.injEq, Value.string.injEq, true_and, and_true] at heq
  rw [ImplementedTool.of, ImplementedTool.of, heq.1, heq.2]

theorem map_entry_eq_iff :
    (a.implementedTools codec).map ImplementedTool.entry =
      (b.implementedTools codec).map ImplementedTool.entry ↔
      a.implementedTools codec = b.implementedTools codec := by
  constructor
  · intro heq
    have hall := List.forall₂_map_right_iff.mp (List.forall₂_map_left_iff.mp
      (heq ▸ List.forall₂_refl _ : List.Forall₂ (· = ·)
        ((a.implementedTools codec).map ImplementedTool.entry)
        ((b.implementedTools codec).map ImplementedTool.entry)))
    rw [← List.forall₂_eq_eq_eq]
    refine List.forall₂_iff_get.mpr ?_
    obtain ⟨hlen, hget⟩ := List.forall₂_iff_get.mp hall
    exact ⟨hlen, fun i hi hi' =>
      entry_inj (List.get_mem _ _) (List.get_mem _ _) (hget i hi hi')⟩
  · intro heq
    rw [heq]

/-- **Two prefixes have the same text exactly when what counts is the same.** -/
theorem implementedJson_eq_iff
    (htells : ∀ v w, a.Writes codec v ∨ b.Writes codec v → a.Writes codec w ∨ b.Writes codec w →
      codec.toString v = codec.toString w → v = w) :
    a.implementedJson codec = b.implementedJson codec ↔
      (trimmedLines a.systemPrompt = trimmedLines b.systemPrompt ∨
        IsBlankPrompt a.systemPrompt ∧ IsBlankPrompt b.systemPrompt) ∧
      SameTools a.tools b.tools ∧
      Text.trimEnd a.workspaceContext = Text.trimEnd b.workspaceContext := by
  have htext : a.implementedJson codec = b.implementedJson codec ↔
      a.implementedValue codec = b.implementedValue codec := by
    rw [implementedJson, implementedJson, thinJsonString, thinJsonString, thin_implementedValue,
      thin_implementedValue, String.ofList_inj]
    exact ⟨htells _ _ (.inl (.inl rfl)) (.inr (.inl rfl)), congrArg codec.toString⟩
  have htools : a.implementedTools codec = b.implementedTools codec ↔ SameTools a.tools b.tools :=
    implementedTools_eq_iff fun tool hmem tool' hmem' =>
      htells _ _ (.inl (.inr ⟨tool, hmem, rfl⟩)) (.inl (.inr ⟨tool', hmem', rfl⟩))
  rw [htext, implementedValue, implementedValue]
  simp only [Value.object.injEq, List.cons.injEq, Prod.mk.injEq, Value.string.injEq,
    Value.array.injEq, true_and, and_true]
  rw [normalisePrompt_eq_iff, map_entry_eq_iff, htools]

/-! ### One tool, written in two ways -/

mutual
def plainText : Value → List Char
  | .null => "null".toList
  | .bool b => (if b then "true" else "false").toList
  | .number _ => []
  | .string s => '"' :: (s.toList ++ ['"'])
  | .array items => '[' :: (plainItems items ++ [']'])
  | .object members => '\x7b' :: (plainMembers members ++ ['\x7d'])

def plainItems : List Value → List Char
  | [] => []
  | [item] => plainText item
  | item :: items => plainText item ++ ',' :: plainItems items

def plainMembers : List (String × Value) → List Char
  | [] => []
  | [(key, entry)] => '"' :: (key.toList ++ '"' :: ':' :: plainText entry)
  | (key, entry) :: members =>
    '"' :: (key.toList ++ '"' :: ':' :: (plainText entry ++ ',' :: plainMembers members))
end

def plainCodec : JsonCodec := ⟨fun _ => none, plainText, fun _ => none⟩

def readTool : ToolDescriptor :=
  ⟨"read_file", .object [("type", .string "object"), ("required", .array [.string "path"])],
    by simp [Value.Distinct, DistinctMembers, DistinctItems, keys]⟩

def readTool' : ToolDescriptor :=
  ⟨"read_file", .object [("required", .array [.string "path"]), ("type", .string "object")],
    by simp [Value.Distinct, DistinctMembers, DistinctItems, keys]⟩

def reading : SharedPrefix := { systemPrompt := "Read. \n", tools := [readTool] }
def reading' : SharedPrefix :=
  { systemPrompt := "Read.", tools := [readTool'], workspaceContext := "\n" }

theorem writes_reading {v : Value} (h : reading.Writes plainCodec v ∨ reading'.Writes plainCodec v) :
    v = reading.implementedValue plainCodec ∨ v = thinJsonValue readTool.schema := by
  have hvalue : reading'.implementedValue plainCodec = reading.implementedValue plainCodec := by
    decide +kernel
  have hschema : thinJsonValue readTool'.schema = thinJsonValue readTool.schema := by decide +kernel
  rcases h with (rfl | ⟨tool, hmem, rfl⟩) | rfl | ⟨tool, hmem, rfl⟩
  · exact .inl rfl
  · rw [List.mem_singleton.mp hmem]
    exact .inr rfl
  · exact .inl hvalue
  · rw [List.mem_singleton.mp hmem]
    exact .inr hschema

theorem reading_implementedJson :
    reading.implementedJson plainCodec = reading'.implementedJson plainCodec := by
  refine (implementedJson_eq_iff ?_).mpr
    ⟨.inl (by decide +kernel), ⟨[readTool], .rfl, ?_⟩, by decide +kernel⟩
  · intro v w hv hw heq
    rcases writes_reading hv with rfl | rfl <;> rcases writes_reading hw with rfl | rfl
    · rfl
    · exact absurd heq (by decide +kernel)
    · exact absurd heq (by decide +kernel)
    · rfl
  · refine .cons ⟨rfl, ?_⟩ .nil
    exact ⟨rfl, ⟨.string "object", by decide +kernel, rfl⟩,
      ⟨.array [.string "path"], by decide +kernel, rfl, trivial⟩, trivial⟩

/-! ### A blank prompt -/

/-- A prompt without a line, and one with a blank line. -/
theorem blank_line_not_counted :
    (∀ codec, implementedJson codec { systemPrompt := "" } =
      implementedJson codec { systemPrompt := "\n" }) ∧
      trimmedLines "" ≠ trimmedLines "\n" := by
  refine ⟨?_, by decide +kernel⟩
  intro codec
  have hprompt : normalisePrompt "" = normalisePrompt "\n" := by decide +kernel
  rw [implementedJson, implementedJson, implementedValue, implementedValue, hprompt]
  rfl

end SharedPrefix

end Vexcoder.Runtime.MultiplexPrefix
