import Vexcoder.Lib.StableRank
import Vexcoder.Tools.SearchQuery

/-!
# The lexical search

`codebase_search` scores every chunk against the terms of a query, adds the scores of a BM25 engine, and
shows the best ones.  Scores are values of any linear order with the operations that the search uses, and
the engine is any function; a result remembers the place of its chunk in the index.
-/

namespace Vexcoder.Tools

open Base
open Lib.Assoc

/-- What the search does with `f64`; the order of `total_cmp` is an instance next to it. -/
structure Floats (S : Type) where
  ofNat : ℕ → S
  add : S → S → S
  mul : S → S → S
  /-- `f64::max` -/
  larger : S → S → S
  /-- `> 0.0` -/
  positive : S → Bool
  /-- `<= 0.0` -/
  nonPositive : S → Bool
  zero_not_positive : positive (ofNat 0) = false

/-- A result, with the place of its chunk in the index. -/
structure SearchResult (S : Type) where
  path : String
  startLine : ℕ
  endLine : ℕ
  kindLabel : String
  name : String
  score : S
  snippet : String
  position : ℕ
  deriving DecidableEq

def truncateSnippet (source : String) (maxLines : ℕ) : String :=
  let lines := Text.lines source
  if lines.length ≤ maxLines then source
  else
    Text.join "\n" (lines.take maxLines) ++ "\n    ... (" ++ toString (lines.length - maxLines) ++
      " more lines)"

def resultOf {S : Type} (chunk : IndexChunk) (position : ℕ) (score : S) : SearchResult S where
  path := chunk.path
  startLine := chunk.startLine
  endLine := chunk.endLine
  kindLabel := chunk.kind.label
  name := chunk.name
  score
  snippet := truncateSnippet chunk.source 20
  position

section Scores

variable {S : Type} (ops : Floats S)

def scoreTerm (fields : ChunkSearchFields) (term : String) (required : Bool) : S :=
  let sourceMatchWeight := ops.ofNat (if Text.contains term " " then 8 else 5)
  let exactNameWeight := ops.ofNat (if required then 60 else 45)
  let substringNameWeight := ops.ofNat (if required then 25 else 15)
  let score := ops.ofNat 0
  let score :=
    if fields.nameLower = term then ops.add score exactNameWeight
    else if Text.contains fields.nameLower term then ops.add score substringNameWeight
    else score
  let score := if Text.contains fields.pathLower term then ops.add score (ops.ofNat 10) else score
  let score := if fields.kindLower = term then ops.add score (ops.ofNat 10) else score
  let score :=
    if fields.scopeLower.any (Text.contains · term) then ops.add score (ops.ofNat 12) else score
  let count := (matchIndices fields.sourceLower term).length
  if 0 < count then ops.add score (ops.mul (ops.ofNat count) sourceMatchWeight) else score

def scoreChunk (chunk : IndexChunk) (parsed : ParsedQuery) (positiveQuery : String) : S :=
  let fields := ChunkSearchFields.fromChunk chunk
  if !chunkMatchesQuery fields parsed then ops.ofNat 0
  else
    let queryLower := Text.toAsciiLowercase positiveQuery
    let score := ops.ofNat 0
    let score :=
      if Text.isEmpty queryLower then score
      else
        let score :=
          if fields.nameLower = queryLower then ops.add score (ops.ofNat 100)
          else if Text.contains fields.nameLower queryLower then ops.add score (ops.ofNat 50)
          else if Text.contains queryLower fields.nameLower && 2 < byteLen fields.nameLower.toList then
            ops.add score (ops.ofNat 30)
          else score
        if fields.scopeLower.any fun scope =>
            Text.contains scope queryLower || Text.contains queryLower scope then
          ops.add score (ops.ofNat 20)
        else score
    let score := parsed.terms.foldl (fun score term => ops.add score (scoreTerm ops fields term false)) score
    let score := parsed.requiredTerms.foldl
      (fun score term => ops.add score (scoreTerm ops fields term true)) score
    if ops.nonPositive score && !parsed.hasPositiveTerms then ops.ofNat 1 else score

def chunkScores (parsed : ParsedQuery) (index : List IndexChunk) : List (ℕ × S) :=
  index.zipIdx.filterMap fun (chunk, i) =>
    let score := scoreChunk ops chunk parsed parsed.positiveQueryText
    if ops.positive score then some (i, score) else none

/-- Collecting pairs into a map, where the last one for a key counts. -/
def collectMap {κ β : Type} [DecidableEq κ] (pairs : List (κ × β)) : List (κ × β) :=
  pairs.foldl (fun map entry => insertLast entry.1 entry.2 map) []

def bm25Scores (bm25 : List IndexChunk → String → List (ℕ × S)) (parsed : ParsedQuery)
    (index : List IndexChunk) : List (ℕ × S) :=
  if Text.isEmpty parsed.positiveQueryText then []
  else
    collectMap <| (bm25 index parsed.positiveQueryText).filterMap fun (id, score) =>
      match index[id]? with
      | none => none
      | some chunk =>
        let fields := ChunkSearchFields.fromChunk chunk
        if !chunkMatchesQuery fields parsed then none
        else if !matchesPositiveTerms fields parsed then none
        else
          let weight := ops.mul score (ops.ofNat 10)
          if ops.positive weight then some (id, weight) else none

def scoreMap (bm25 : List IndexChunk → String → List (ℕ × S)) (parsed : ParsedQuery)
    (index : List IndexChunk) : List (ℕ × S) :=
  (bm25Scores ops bm25 parsed index).foldl
    (fun map entry =>
      insertLast entry.1 (ops.add ((find? entry.1 map).getD (ops.ofNat 0)) entry.2) map)
    (chunkScores ops parsed index)

/-- Higher scores first, and then the order of the index. -/
def ScoredBefore [LinearOrder S] (a b : ℕ × S) : Prop := b.2 < a.2 ∨ a.2 = b.2 ∧ a.1 ≤ b.1

instance [LinearOrder S] : DecidableRel (ScoredBefore (S := S)) := fun _ _ =>
  inferInstanceAs (Decidable (_ ∨ _ ∧ _))

def codebaseSearch [LinearOrder S] (bm25 : List IndexChunk → String → List (ℕ × S))
    (maxResultsDefault : ℕ) (query : String) (index : List IndexChunk) (maxResults : Option ℕ) :
    List (SearchResult S) :=
  let cap := maxResults.getD maxResultsDefault
  if Text.isEmpty (Text.trim query) || index.isEmpty then []
  else
    let parsed := ParsedQuery.parse query
    if parsed.isEffectivelyEmpty then []
    else
      let scored := ((scoreMap ops bm25 parsed index).insertionSort ScoredBefore).take cap
      scored.filterMap fun (i, score) => index[i]?.map fun chunk => resultOf chunk i score

end Scores

/-! ### What is found honours the filters -/

def SearchResult.Of {S : Type} (index : List IndexChunk) (r : SearchResult S) (chunk : IndexChunk) : Prop :=
  index[r.position]? = some chunk ∧ r = resultOf chunk r.position r.score

/-- Places with scores, each place once, whose chunks honour the filters. -/
structure Found {S : Type} (parsed : ParsedQuery) (index : List IndexChunk) (map : List (ℕ × S)) : Prop where
  nodup : (keys map).Nodup
  honours : ∀ i ∈ keys map, ∃ chunk, index[i]? = some chunk ∧ Honours parsed chunk

section Found

variable {S : Type} {ops : Floats S} {parsed : ParsedQuery} {index : List IndexChunk}

theorem map_filterMap_sublist {α β γ : Type} {f : α → Option β} {g : β → γ} {h : α → γ}
    (hf : ∀ a b, f a = some b → g b = h a) (l : List α) :
    ((l.filterMap f).map g).Sublist (l.map h) := by
  induction l with
  | nil => exact .slnil
  | cons a l ih =>
    cases ha : f a with
    | none =>
      rw [List.filterMap_cons_none ha]
      exact ih.cons (h a)
    | some b =>
      rw [List.filterMap_cons_some ha, List.map_cons, hf a b ha]
      exact ih.cons_cons (h a)

theorem scoreChunk_honours {chunk : IndexChunk} {positiveQuery : String}
    (h : ops.positive (scoreChunk ops chunk parsed positiveQuery) = true) : Honours parsed chunk := by
  by_contra hnot
  rw [← chunkMatchesQuery_iff, Bool.not_eq_true] at hnot
  have hzero : scoreChunk ops chunk parsed positiveQuery = ops.ofNat 0 := by
    rw [scoreChunk]
    rw [hnot]
    rfl
  rw [hzero, ops.zero_not_positive] at h
  cases h

theorem chunkScores_found : Found parsed index (chunkScores ops parsed index) where
  nodup := by
    have hsub : (keys (chunkScores ops parsed index)).Sublist (index.zipIdx.map Prod.snd) := by
      refine map_filterMap_sublist ?_ _
      intro a b hab
      dsimp only at hab
      split at hab
      · obtain rfl := Option.some.inj hab
        rfl
      · cases hab
    refine hsub.nodup ?_
    rw [List.zipIdx_map_snd]
    exact List.nodup_range'
  honours := by
    intro i hi
    obtain ⟨entry, hentry, rfl⟩ := List.mem_map.mp hi
    obtain ⟨⟨chunk, place⟩, hmem, hsome⟩ := List.mem_filterMap.mp hentry
    dsimp only at hsome
    split at hsome
    · rename_i hpositive
      obtain rfl := Option.some.inj hsome
      exact ⟨chunk, List.mem_zipIdx_iff_getElem?.mp hmem, scoreChunk_honours hpositive⟩
    · cases hsome

theorem mem_keys_insertLast {κ β : Type} [DecidableEq κ] {k l : κ} {v : β} {m : List (κ × β)} :
    l ∈ keys (insertLast k v m) ↔ l = k ∨ l ∈ keys m := by
  rw [mem_keys_iff_find?, mem_keys_iff_find?, find?_insertLast]
  by_cases h : l = k
  all_goals simp [h]

theorem collectMap_keys {κ β : Type} [DecidableEq κ] (pairs : List (κ × β)) :
    (keys (collectMap pairs)).Nodup ∧ ∀ k, k ∈ keys (collectMap pairs) ↔ k ∈ keys pairs := by
  induction pairs using List.reverseRecOn with
  | nil => exact ⟨.nil, fun _ => Iff.rfl⟩
  | append_singleton pairs entry ih =>
    rw [collectMap, List.foldl_append]
    refine ⟨nodup_keys_insertLast ih.1 _ _, ?_⟩
    intro k
    show k ∈ keys (insertLast entry.1 entry.2 (collectMap pairs)) ↔ k ∈ keys (pairs ++ [entry])
    rw [mem_keys_insertLast, ih.2]
    simp only [keys, List.map_append, List.map_cons, List.map_nil, List.mem_append, List.mem_singleton]
    tauto

theorem bm25Scores_honours {bm25 : List IndexChunk → String → List (ℕ × S)} {i : ℕ}
    (h : i ∈ keys (bm25Scores ops bm25 parsed index)) :
    ∃ chunk, index[i]? = some chunk ∧ Honours parsed chunk := by
  rw [bm25Scores] at h
  split at h
  · exact absurd h List.not_mem_nil
  rw [(collectMap_keys _).2] at h
  obtain ⟨entry, hentry, rfl⟩ := List.mem_map.mp h
  obtain ⟨⟨id, score⟩, -, hsome⟩ := List.mem_filterMap.mp hentry
  dsimp only at hsome
  split at hsome
  · cases hsome
  rename_i chunk hchunk
  split at hsome
  · cases hsome
  rename_i hmatches
  split at hsome
  · cases hsome
  split at hsome
  · obtain rfl := Option.some.inj hsome
    refine ⟨chunk, hchunk, chunkMatchesQuery_iff.mp ?_⟩
    simpa using hmatches
  · cases hsome

/-- **All scored chunks honour the filters**, whatever the engine says. -/
theorem scoreMap_found (bm25 : List IndexChunk → String → List (ℕ × S)) :
    Found parsed index (scoreMap ops bm25 parsed index) := by
  have hengine : ∀ i ∈ keys (bm25Scores ops bm25 parsed index),
      ∃ chunk, index[i]? = some chunk ∧ Honours parsed chunk := fun i hi => bm25Scores_honours hi
  have hstart := @chunkScores_found S ops parsed index
  rw [scoreMap]
  generalize bm25Scores ops bm25 parsed index = scores at hengine
  generalize chunkScores ops parsed index = map at hstart
  induction scores generalizing map with
  | nil => exact hstart
  | cons entry scores ih =>
    refine ih (fun i hi => hengine i (List.mem_cons_of_mem _ hi)) _ ?_
    refine ⟨nodup_keys_insertLast hstart.nodup _ _, ?_⟩
    intro i hi
    rcases mem_keys_insertLast.mp hi with rfl | hi
    · exact hengine _ List.mem_cons_self
    · exact hstart.honours i hi

/-- **The lexical search** shows each chunk once, and only chunks that honour the filters. -/
theorem codebaseSearch_spec [LinearOrder S] (bm25 : List IndexChunk → String → List (ℕ × S))
    (maxResultsDefault : ℕ) (query : String) (maxResults : Option ℕ) :
    ((codebaseSearch ops bm25 maxResultsDefault query index maxResults).map SearchResult.position).Nodup ∧
    ∀ r ∈ codebaseSearch ops bm25 maxResultsDefault query index maxResults,
      ∃ chunk, r.Of index chunk ∧ Honours (ParsedQuery.parse query) chunk := by
  rw [codebaseSearch]
  dsimp only
  split
  · exact ⟨.nil, nofun⟩
  split
  · exact ⟨.nil, nofun⟩
  have hfound := @scoreMap_found S ops (ParsedQuery.parse query) index bm25
  generalize scoreMap ops bm25 (ParsedQuery.parse query) index = map at hfound
  have hperm := List.perm_insertionSort ScoredBefore map
  constructor
  · have hsub := @map_filterMap_sublist (ℕ × S) (SearchResult S) ℕ
      (fun entry => index[entry.1]?.map fun chunk => resultOf chunk entry.1 entry.2)
      SearchResult.position Prod.fst (by
        intro entry r hr
        obtain ⟨chunk, -, rfl⟩ := Option.map_eq_some_iff.mp hr
        rfl)
      ((map.insertionSort ScoredBefore).take (maxResults.getD maxResultsDefault))
    refine hsub.nodup (((List.take_sublist _ _).map Prod.fst).nodup ?_)
    exact (hperm.map Prod.fst).nodup_iff.mpr hfound.nodup
  · intro r hr
    obtain ⟨⟨i, score⟩, hmem, hsome⟩ := List.mem_filterMap.mp hr
    obtain ⟨chunk, hchunk, rfl⟩ := Option.map_eq_some_iff.mp hsome
    have hkey : i ∈ keys map :=
      List.mem_map.mpr ⟨_, hperm.mem_iff.mp (List.mem_of_mem_take hmem), rfl⟩
    obtain ⟨chunk', hchunk', hhonours⟩ := hfound.honours i hkey
    obtain rfl := Option.some.inj (hchunk.symm.trans hchunk')
    exact ⟨chunk, ⟨hchunk, rfl⟩, hhonours⟩

end Found

end Vexcoder.Tools
