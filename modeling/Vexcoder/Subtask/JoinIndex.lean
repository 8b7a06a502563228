import Mathlib.Data.List.Induction
import Mathlib.Data.String.Basic
import Vexcoder.Lib.Assoc

/-!
# The join index

The summaries of session tasks by message id.  A post gives an entry its latest text and adds to the
ids that it replaces; the live entries are those that no entry replaces.  The index is a function of
the posts so far (`find?_postAll`), so posts of different ids may come in any order
(`postAll_perm`), and posting the same summaries again changes nothing (`postAll_twice`).
-/

namespace Vexcoder.Subtask

open Lib.Assoc

structure LiveJoinEntry where
  id : String
  agentId : String
  body : String
  supersedes : List String := []

def joinIndexSchemaVersion : ℕ := 1

structure JoinIndex where
  schemaVersion : ℕ := joinIndexSchemaVersion
  /-- A tree map: the keys are in order. -/
  entries : List (String × LiveJoinEntry) := []

structure JoinSummary where
  messageId : String
  agentId : String
  summary : String
  supersedes : List String

/-- The new ids behind the ones that are there; the hash set of the source is `existing`. -/
def addSuperseded (existing : List String) : List String → List String
  | [] => existing
  | id :: ids => addSuperseded (if id ∈ existing then existing else existing ++ [id]) ids

def JoinSummary.entry (summary : JoinSummary) (old : Option LiveJoinEntry) : LiveJoinEntry :=
  let entry := old.getD
    { id := summary.messageId, agentId := summary.agentId, body := summary.summary }
  { entry with
    agentId := summary.agentId
    body := summary.summary
    supersedes := addSuperseded entry.supersedes summary.supersedes }

namespace JoinIndex

def post (index : JoinIndex) (summary : JoinSummary) : JoinIndex :=
  { index with
    entries := insertSorted summary.messageId
      (summary.entry (find? summary.messageId index.entries)) index.entries }

def postAll (index : JoinIndex) (summaries : List JoinSummary) : JoinIndex := summaries.foldl post index

def liveEntries (index : JoinIndex) : List LiveJoinEntry :=
  let entries := index.entries.map Prod.snd
  let superseded := entries.flatMap LiveJoinEntry.supersedes
  entries.filter fun entry => entry.id ∉ superseded

end JoinIndex

/-! ### What an entry has been made of -/

theorem mem_addSuperseded {id : String} {existing ids : List String} :
    id ∈ addSuperseded existing ids ↔ id ∈ existing ∨ id ∈ ids := by
  induction ids generalizing existing with
  | nil => simp [addSuperseded]
  | cons other ids ih =>
    rw [addSuperseded, ih, List.mem_cons]
    split
    · rename_i hmem
      constructor
      · rintro (h | h)
        · exact .inl h
        · exact .inr (.inr h)
      · rintro (h | rfl | h)
        · exact .inl h
        · exact .inl hmem
        · exact .inr h
    · rw [List.mem_append, List.mem_singleton, or_assoc]

theorem addSuperseded_of_subset {existing ids : List String} (h : ids ⊆ existing) :
    addSuperseded existing ids = existing := by
  induction ids with
  | nil => rfl
  | cons id ids ih =>
    rw [addSuperseded, if_pos (h List.mem_cons_self)]
    exact ih fun other hmem => h (List.mem_cons_of_mem _ hmem)

def merged (id : String) (old : Option LiveJoinEntry) : List JoinSummary → Option LiveJoinEntry
  | [] => old
  | summary :: rest =>
    merged id (if summary.messageId = id then some (summary.entry old) else old) rest

theorem merged_append (id : String) (old : Option LiveJoinEntry) (posts rest : List JoinSummary) :
    merged id old (posts ++ rest) = merged id (merged id old posts) rest := by
  induction posts generalizing old with
  | nil => rfl
  | cons summary posts ih => exact ih _

theorem merged_of_notMem {id : String} {posts : List JoinSummary}
    (h : id ∉ posts.map JoinSummary.messageId) (old : Option LiveJoinEntry) :
    merged id old posts = old := by
  induction posts with
  | nil => rfl
  | cons summary posts ih =>
    rw [List.map_cons, List.mem_cons, not_or] at h
    rw [merged, if_neg (Ne.symm h.1), ih h.2]

theorem merged_of_mem {summary : JoinSummary} {posts : List JoinSummary}
    (hnodup : (posts.map JoinSummary.messageId).Nodup) (h : summary ∈ posts) (old : Option LiveJoinEntry) :
    merged summary.messageId old posts = some (summary.entry old) := by
  induction posts with
  | nil => cases h
  | cons other posts ih =>
    rw [List.map_cons, List.nodup_cons] at hnodup
    rw [merged]
    rcases List.mem_cons.mp h with rfl | h
    · rw [if_pos rfl, merged_of_notMem hnodup.1]
    · have hne : other.messageId ≠ summary.messageId := fun heq =>
        hnodup.1 (heq ▸ List.mem_map_of_mem h)
      rw [if_neg hne, ih hnodup.2 h]

theorem entry_twice (summary : JoinSummary) (old : Option LiveJoinEntry) :
    summary.entry (some (summary.entry old)) = summary.entry old := by
  have hsubset : summary.supersedes ⊆ (summary.entry old).supersedes :=
    fun _ h => mem_addSuperseded.mpr (.inr h)
  show { summary.entry old with
    supersedes := addSuperseded (summary.entry old).supersedes summary.supersedes } = _
  rw [addSuperseded_of_subset hsubset]

def lastPost (id : String) (posts : List JoinSummary) : Option JoinSummary :=
  posts.reverse.find? fun summary => summary.messageId = id

theorem lastPost_concat (id : String) (posts : List JoinSummary) (summary : JoinSummary) :
    lastPost id (posts ++ [summary]) =
      if summary.messageId = id then some summary else lastPost id posts := by
  rw [lastPost, List.reverse_append, List.reverse_singleton, List.singleton_append, List.find?_cons]
  by_cases h : summary.messageId = id
  · rw [decide_eq_true h, if_pos h]
  · rw [decide_eq_false h, if_neg h]
    rfl

/-- What the entry of an id says about the posts. -/
structure EntryOf (id : String) (posts : List JoinSummary) (entry : LiveJoinEntry) : Prop where
  id_eq : entry.id = id
  last : ∃ summary, lastPost id posts = some summary ∧ entry.agentId = summary.agentId ∧
    entry.body = summary.summary
  supersedes : ∀ other, other ∈ entry.supersedes ↔
    ∃ summary ∈ posts, summary.messageId = id ∧ other ∈ summary.supersedes

theorem superseded_concat {id other : String} {posts : List JoinSummary} {summary : JoinSummary} :
    (∃ post ∈ posts ++ [summary], post.messageId = id ∧ other ∈ post.supersedes) ↔
      (∃ post ∈ posts, post.messageId = id ∧ other ∈ post.supersedes) ∨
        summary.messageId = id ∧ other ∈ summary.supersedes := by
  simp only [List.mem_append, List.mem_singleton, or_and_right, exists_or, exists_eq_left]

/-- **An entry is what was posted for its id**, and there is one when something was. -/
theorem merged_spec (id : String) (posts : List JoinSummary) :
    match merged id none posts with
    | none => id ∉ posts.map JoinSummary.messageId
    | some entry => EntryOf id posts entry := by
  induction posts using List.reverseRecOn with
  | nil => exact List.not_mem_nil
  | append_singleton posts summary ih =>
    rw [merged_append, merged]
    by_cases h : summary.messageId = id
    · rw [if_pos h]
      cases hold : merged id none posts with
      | none =>
        rw [hold] at ih
        refine ⟨h, ⟨summary, by rw [lastPost_concat, if_pos h], rfl, rfl⟩, fun other => ?_⟩
        rw [JoinSummary.entry]
        rw [mem_addSuperseded, superseded_concat, and_iff_right h]
        refine or_congr_left (iff_of_false List.not_mem_nil ?_)
        rintro ⟨post, hpost, hid, -⟩
        exact ih (hid ▸ List.mem_map_of_mem hpost)
      | some entry =>
        rw [hold] at ih
        refine ⟨ih.id_eq, ⟨summary, by rw [lastPost_concat, if_pos h], rfl, rfl⟩, fun other => ?_⟩
        rw [JoinSummary.entry, Option.getD_some]
        rw [mem_addSuperseded, ih.supersedes, superseded_concat, and_iff_right h]
    · rw [if_neg h]
      cases hold : merged id none posts with
      | none =>
        rw [hold] at ih
        rw [List.map_append, List.mem_append, not_or]
        exact ⟨ih, fun hmem => h (List.mem_singleton.mp hmem).symm⟩
      | some entry =>
        rw [hold] at ih
        obtain ⟨last, hlast, htext⟩ := ih.last
        refine ⟨ih.id_eq, ⟨last, by rw [lastPost_concat, if_neg h, hlast], htext⟩, fun other => ?_⟩
        rw [ih.supersedes, superseded_concat]
        exact (or_iff_left fun hlater => h hlater.1).symm

namespace JoinIndex

variable {index index' : JoinIndex} {summaries : List JoinSummary}

theorem find?_post (summary : JoinSummary) (id : String) :
    find? id (index.post summary).entries =
      if summary.messageId = id then some (summary.entry (find? id index.entries))
      else find? id index.entries := by
  rw [post, find?_insertSorted]
  by_cases h : summary.messageId = id
  · subst h
    rw [if_pos rfl]
  · rw [if_neg h, if_neg (Ne.symm h)]

/-- **The index is a function of the posts.** -/
theorem find?_postAll (summaries : List JoinSummary) (id : String) :
    find? id (index.postAll summaries).entries = merged id (find? id index.entries) summaries := by
  induction summaries generalizing index with
  | nil => rfl
  | cons summary rest ih =>
    show find? id ((index.post summary).postAll rest).entries = _
    rw [ih, find?_post, merged]

theorem sorted_postAll (h : Sorted index.entries) (summaries : List JoinSummary) :
    Sorted (index.postAll summaries).entries := by
  induction summaries generalizing index with
  | nil => exact h
  | cons summary rest ih => exact @ih (index.post summary) (sorted_insertSorted h _ _)

theorem schemaVersion_postAll (summaries : List JoinSummary) :
    (index.postAll summaries).schemaVersion = index.schemaVersion := by
  induction summaries generalizing index with
  | nil => rfl
  | cons summary rest ih => exact @ih (index.post summary)

/-- Two sorted indexes with the same entries are one. -/
theorem eq_of_find? (hversion : index.schemaVersion = index'.schemaVersion)
    (h : Sorted index.entries) (h' : Sorted index'.entries)
    (hfind : ∀ id, find? id index.entries = find? id index'.entries) : index = index' := by
  obtain ⟨version, entries⟩ := index
  obtain ⟨version', entries'⟩ := index'
  obtain rfl : version = version' := hversion
  obtain rfl : entries = entries' := sorted_ext h h' hfind
  rfl

/-- **The order of one outcome does not matter.** -/
theorem postAll_perm (h : Sorted index.entries)
    (hnodup : (summaries.map JoinSummary.messageId).Nodup) {summaries' : List JoinSummary}
    (hperm : summaries.Perm summaries') : index.postAll summaries = index.postAll summaries' := by
  refine eq_of_find? ?_ (sorted_postAll h _) (sorted_postAll h _) fun id => ?_
  · rw [schemaVersion_postAll, schemaVersion_postAll]
  rw [find?_postAll, find?_postAll]
  have hnodup' : (summaries'.map JoinSummary.messageId).Nodup :=
    (hperm.map JoinSummary.messageId).nodup_iff.mp hnodup
  by_cases hmem : id ∈ summaries.map JoinSummary.messageId
  · obtain ⟨summary, hsummary, rfl⟩ := List.mem_map.mp hmem
    rw [merged_of_mem hnodup hsummary, merged_of_mem hnodup' (hperm.mem_iff.mp hsummary)]
  · rw [merged_of_notMem hmem,
      merged_of_notMem fun h => hmem ((hperm.map JoinSummary.messageId).mem_iff.mpr h)]

/-- **Posting an outcome again changes nothing.** -/
theorem postAll_twice (h : Sorted index.entries) (hnodup : (summaries.map JoinSummary.messageId).Nodup) :
    (index.postAll summaries).postAll summaries = index.postAll summaries := by
  refine eq_of_find? ?_ (sorted_postAll (sorted_postAll h _) _) (sorted_postAll h _) fun id => ?_
  · rw [schemaVersion_postAll]
  rw [find?_postAll, find?_postAll]
  by_cases hmem : id ∈ summaries.map JoinSummary.messageId
  · obtain ⟨summary, hsummary, rfl⟩ := List.mem_map.mp hmem
    rw [merged_of_mem hnodup hsummary, merged_of_mem hnodup hsummary, entry_twice]
  · rw [merged_of_notMem hmem]

/-! ### Live entries -/

def BuiltFrom (index : JoinIndex) (posts : List JoinSummary) : Prop :=
  Sorted index.entries ∧ ∀ id, find? id index.entries = merged id none posts

theorem builtFrom_new : BuiltFrom {} [] := ⟨List.Pairwise.nil, fun _ => rfl⟩

variable {posts : List JoinSummary} {entry : LiveJoinEntry} {id : String}

theorem BuiltFrom.postAll (h : BuiltFrom index posts) (summaries : List JoinSummary) :
    BuiltFrom (index.postAll summaries) (posts ++ summaries) :=
  ⟨sorted_postAll h.1 _, fun id => by rw [find?_postAll, h.2, merged_append]⟩

theorem mem_values (h : BuiltFrom index posts) :
    entry ∈ index.entries.map Prod.snd ↔ merged entry.id none posts = some entry := by
  rw [← h.2, List.mem_map]
  constructor
  · rintro ⟨⟨id, entry'⟩, hmem, rfl⟩
    have hfind := (find?_mem h.1).mpr hmem
    have hspec := merged_spec id posts
    rw [← h.2, hfind] at hspec
    rw [hspec.id_eq, hfind]
  · intro hfind
    exact ⟨_, (find?_mem h.1).mp hfind, rfl⟩

theorem exists_entry (h : BuiltFrom index posts) (hmem : id ∈ posts.map JoinSummary.messageId) :
    ∃ entry ∈ index.entries.map Prod.snd, EntryOf id posts entry := by
  have hspec := merged_spec id posts
  cases hmerged : merged id none posts with
  | none =>
    rw [hmerged] at hspec
    exact absurd hmem hspec
  | some entry =>
    rw [hmerged] at hspec
    refine ⟨entry, (mem_values h).mpr ?_, hspec⟩
    rw [hspec.id_eq, hmerged]

theorem entryOf_value (h : BuiltFrom index posts) (hmem : entry ∈ index.entries.map Prod.snd) :
    EntryOf entry.id posts entry := by
  have hspec := merged_spec entry.id posts
  rw [(mem_values h).mp hmem] at hspec
  exact hspec

theorem mem_superseded (h : BuiltFrom index posts) :
    id ∈ (index.entries.map Prod.snd).flatMap LiveJoinEntry.supersedes ↔
      ∃ summary ∈ posts, id ∈ summary.supersedes := by
  rw [List.mem_flatMap]
  constructor
  · rintro ⟨entry, hmem, hid⟩
    obtain ⟨summary, hsummary, -, hid⟩ := ((entryOf_value h hmem).supersedes id).mp hid
    exact ⟨summary, hsummary, hid⟩
  · rintro ⟨summary, hsummary, hid⟩
    obtain ⟨entry, hmem, hspec⟩ := exists_entry h (List.mem_map_of_mem hsummary)
    exact ⟨entry, hmem, (hspec.supersedes id).mpr ⟨summary, hsummary, rfl, hid⟩⟩

theorem last_posted (h : EntryOf id posts entry) : id ∈ posts.map JoinSummary.messageId := by
  obtain ⟨summary, hlast, -⟩ := h.last
  have hmem := List.mem_of_find?_eq_some hlast
  have hid : summary.messageId = id := by simpa using List.find?_some hlast
  exact hid ▸ List.mem_map_of_mem (List.mem_reverse.mp hmem)

/-- **The live entries**: an id is live when it was posted and no post replaces it. -/
theorem mem_liveEntries (h : BuiltFrom index posts) (id : String) :
    id ∈ index.liveEntries.map LiveJoinEntry.id ↔
      id ∈ posts.map JoinSummary.messageId ∧ ∀ summary ∈ posts, id ∉ summary.supersedes := by
  rw [List.mem_map]
  constructor
  · rintro ⟨entry, hmem, rfl⟩
    obtain ⟨hvalue, hlive⟩ := List.mem_filter.mp hmem
    refine ⟨last_posted (entryOf_value h hvalue), fun summary hsummary hid => ?_⟩
    exact (of_decide_eq_true hlive) ((mem_superseded h).mpr ⟨summary, hsummary, hid⟩)
  · rintro ⟨hposted, hlive⟩
    obtain ⟨entry, hvalue, hspec⟩ := exists_entry h hposted
    refine ⟨entry, List.mem_filter.mpr ⟨hvalue, decide_eq_true fun hsuperseded => ?_⟩, hspec.id_eq⟩
    obtain ⟨summary, hsummary, hid⟩ := (mem_superseded h).mp hsuperseded
    exact hlive summary hsummary (hspec.id_eq ▸ hid)

theorem nodup_liveEntries (h : BuiltFrom index posts) : (index.liveEntries.map LiveJoinEntry.id).Nodup := by
  have hids : (index.entries.map Prod.snd).map LiveJoinEntry.id = keys index.entries := by
    rw [List.map_map, keys]
    refine List.map_congr_left fun entry hmem => ?_
    have hfind := (find?_mem h.1).mpr hmem
    have hspec := merged_spec entry.1 posts
    rw [← h.2, hfind] at hspec
    exact hspec.id_eq
  have hnodup : ((index.entries.map Prod.snd).map LiveJoinEntry.id).Nodup := by
    rw [hids]
    exact h.1.imp fun hlt heq => absurd (heq ▸ hlt) (lt_irrefl _)
  exact hnodup.sublist (List.filter_sublist.map LiveJoinEntry.id)

theorem liveEntries_entryOf (h : BuiltFrom index posts) (hmem : entry ∈ index.liveEntries) :
    EntryOf entry.id posts entry :=
  entryOf_value h (List.mem_filter.mp hmem).1

end JoinIndex

end Vexcoder.Subtask
