import Mathlib.Data.String.Basic
import Vexcoder.Tools.CodeSearch

/-!
# Lexical and semantic results

`merge_search_results` never sees the query.  A semantic hit for a lexical result adds to its score, and
any other hit brings in the chunk that it names.  `merged_eq` says what the loop makes of the results, and
`search_holds_iff` when what is shown honours the filters: a chunk that is brought in was not checked.
-/

namespace Vexcoder.Tools

open Lib.Assoc
open Lib.StableRank

abbrev ChunkKey := String × ℕ × ℕ × String

structure SemanticChunkScore (S : Type) where
  path : String
  startLine : ℕ
  endLine : ℕ
  name : String
  score : S

def IndexChunk.key (chunk : IndexChunk) : ChunkKey :=
  (chunk.path, chunk.startLine, chunk.endLine, chunk.name)

def SearchResult.key {S : Type} (r : SearchResult S) : ChunkKey := (r.path, r.startLine, r.endLine, r.name)

def SemanticChunkScore.key {S : Type} (hit : SemanticChunkScore S) : ChunkKey :=
  (hit.path, hit.startLine, hit.endLine, hit.name)

section Merge

variable {S : Type} (ops : Floats S)

def semanticScoreWeight (score : S) : S := ops.mul (ops.larger score (ops.ofNat 0)) (ops.ofNat 60)

structure MergeState (S : Type) where
  merged : List (SearchResult S)
  mergedPositions : List (ChunkKey × ℕ)

/-- Where the results are; the last one with a key counts. -/
def positionsOf (results : List (SearchResult S)) : List (ChunkKey × ℕ) :=
  collectMap (results.zipIdx.map fun (r, i) => (r.key, i))

/-- Where the chunks are; the last one with a key counts. -/
def indexLookup (index : List IndexChunk) : List (ChunkKey × ℕ) :=
  collectMap (index.zipIdx.map fun (chunk, i) => (chunk.key, i))

def chunkNamed (index : List IndexChunk) (key : ChunkKey) : Option (ℕ × IndexChunk) :=
  match find? key (indexLookup index) with
  | none => none
  | some i => index[i]?.map fun chunk => (i, chunk)

def mergeStep (index : List IndexChunk) (state : MergeState S) (semantic : SemanticChunkScore S) :
    MergeState S :=
  let weight := semanticScoreWeight ops semantic.score
  if ops.nonPositive weight then state
  else
    match find? semantic.key state.mergedPositions with
    | some i =>
      { state with merged := state.merged.modify i fun r => { r with score := ops.add r.score weight } }
    | none =>
      match chunkNamed index semantic.key with
      | none => state
      | some (position, chunk) =>
        { merged := state.merged ++ [resultOf chunk position weight]
          mergedPositions := insertLast semantic.key state.merged.length state.mergedPositions }

/-- Higher scores first, then the order of the paths and of the lines. -/
def MergedBefore [LinearOrder S] (left right : SearchResult S) : Prop :=
  right.score < left.score ∨ left.score = right.score ∧
    (left.path < right.path ∨ left.path = right.path ∧ left.startLine ≤ right.startLine)

instance [LinearOrder S] : DecidableRel (MergedBefore (S := S)) := fun _ _ =>
  inferInstanceAs (Decidable (_ ∨ _ ∧ (_ ∨ _ ∧ _)))

def mergeSearchResults [LinearOrder S] (maxResultsDefault : ℕ) (index : List IndexChunk)
    (structuralResults : List (SearchResult S)) (semanticScores : List (SemanticChunkScore S))
    (maxResults : Option ℕ) : List (SearchResult S) :=
  let cap := maxResults.getD maxResultsDefault
  if cap = 0 then []
  else
    let state := semanticScores.foldl (mergeStep ops index)
      { merged := structuralResults, mergedPositions := positionsOf structuralResults }
    (state.merged.insertionSort MergedBefore).take cap

/-! ### What the loop makes of the results -/

def weightsOf (key : ChunkKey) (hits : List (SemanticChunkScore S)) : List S :=
  (hits.filter fun hit => hit.key = key ∧ ops.nonPositive (semanticScoreWeight ops hit.score) = false).map
    fun hit => semanticScoreWeight ops hit.score

/-- A result at its place, with the weights of its hits if it is the last one with its key. -/
def boost (hits : List (SemanticChunkScore S)) (positions : List (ChunkKey × ℕ)) (i : ℕ)
    (r : SearchResult S) : SearchResult S :=
  if find? r.key positions = some i then
    { r with score := (weightsOf ops r.key hits).foldl ops.add r.score }
  else r

def boosted (results : List (SearchResult S)) (hits : List (SemanticChunkScore S)) : List (SearchResult S) :=
  results.mapIdx (boost ops hits (positionsOf results))

/-- The chunks that hits bring in: those that they name, other than the known ones. -/
def broughtIn (index : List IndexChunk) : List ChunkKey → List (SemanticChunkScore S) → List (SearchResult S)
  | _, [] => []
  | known, hit :: hits =>
    let weight := semanticScoreWeight ops hit.score
    if ops.nonPositive weight = true ∨ hit.key ∈ known then broughtIn index known hits
    else
      match chunkNamed index hit.key with
      | none => broughtIn index known hits
      | some (position, chunk) =>
        resultOf chunk position ((weightsOf ops hit.key hits).foldl ops.add weight) ::
          broughtIn index (hit.key :: known) hits

end Merge

section Loop

variable {S : Type} {ops : Floats S} {index : List IndexChunk}

variable {hit : SemanticChunkScore S} {hits : List (SemanticChunkScore S)}

theorem weightsOf_cons_of_eq {key : ChunkKey} (hkey : hit.key = key)
    (hweight : ops.nonPositive (semanticScoreWeight ops hit.score) = false) :
    weightsOf ops key (hit :: hits) = semanticScoreWeight ops hit.score :: weightsOf ops key hits := by
  rw [weightsOf, List.filter_cons_of_pos (by simp [hkey, hweight])]
  rfl

theorem weightsOf_cons_of_ne {key : ChunkKey}
    (h : hit.key ≠ key ∨ ops.nonPositive (semanticScoreWeight ops hit.score) = true) :
    weightsOf ops key (hit :: hits) = weightsOf ops key hits := by
  rw [weightsOf, List.filter_cons_of_neg (by
    rcases h with hkey | hweight
    · simp [hkey]
    · simp [hweight])]
  rfl

/-- The places that the loop keeps are those of results with the key. -/
def MergeState.Consistent (state : MergeState S) : Prop :=
  ∀ key i, find? key state.mergedPositions = some i → ∃ r, state.merged[i]? = some r ∧ r.key = key

theorem broughtIn_congr {known known' : List ChunkKey} (h : ∀ key, key ∈ known ↔ key ∈ known')
    (hits : List (SemanticChunkScore S)) :
    broughtIn ops index known hits = broughtIn ops index known' hits := by
  induction hits generalizing known known' with
  | nil => rfl
  | cons hit hits ih =>
    have hnext : ∀ key, key ∈ hit.key :: known ↔ key ∈ hit.key :: known' := by
      intro key
      rw [List.mem_cons, List.mem_cons, h]
    rw [broughtIn, broughtIn]
    simp only [h hit.key]
    rw [ih h, ih hnext]

theorem mem_of_find?_collectMap {κ β : Type} [DecidableEq κ] {pairs : List (κ × β)} {k : κ} {v : β}
    (h : find? k (collectMap pairs) = some v) : (k, v) ∈ pairs := by
  induction pairs using List.reverseRecOn with
  | nil => cases h
  | append_singleton pairs entry ih =>
    rw [collectMap, List.foldl_append] at h
    have hstep : find? k (insertLast entry.1 entry.2 (collectMap pairs)) = some v := h
    rw [find?_insertLast] at hstep
    split at hstep
    · rename_i hkey
      obtain rfl := Option.some.inj hstep
      exact List.mem_append_right _ (by rw [hkey]; exact List.mem_singleton_self entry)
    · exact List.mem_append_left _ (ih hstep)

theorem chunkNamed_spec {key : ChunkKey} {position : ℕ} {chunk : IndexChunk}
    (h : chunkNamed index key = some (position, chunk)) :
    index[position]? = some chunk ∧ chunk.key = key := by
  rw [chunkNamed] at h
  split at h
  · cases h
  rename_i place hfind
  obtain ⟨chunk', hchunk, heq⟩ := Option.map_eq_some_iff.mp h
  cases heq
  obtain ⟨⟨chunk', place⟩, hmem, heq⟩ := List.mem_map.mp (mem_of_find?_collectMap hfind)
  obtain ⟨hkey, rfl⟩ := Prod.mk.inj heq
  have hchunk' := List.mem_zipIdx_iff_getElem?.mp hmem
  obtain rfl := Option.some.inj (hchunk.symm.trans hchunk')
  exact ⟨hchunk, hkey⟩

theorem positionsOf_consistent (results : List (SearchResult S)) :
    MergeState.Consistent ⟨results, positionsOf results⟩ := by
  intro key i h
  obtain ⟨⟨r, place⟩, hmem, heq⟩ := List.mem_map.mp (mem_of_find?_collectMap h)
  obtain ⟨hkey, rfl⟩ := Prod.mk.inj heq
  exact ⟨r, List.mem_zipIdx_iff_getElem?.mp hmem, hkey⟩

theorem boost_key (hits : List (SemanticChunkScore S)) (positions : List (ChunkKey × ℕ)) (i : ℕ)
    (r : SearchResult S) : (boost ops hits positions i r).key = r.key := by
  rw [boost]
  split <;> rfl

theorem boost_found {state : MergeState S} (hstate : state.Consistent) {hits : List (SemanticChunkScore S)}
    {place : ℕ} (hweight : ops.nonPositive (semanticScoreWeight ops hit.score) = false)
    (hfind : find? hit.key state.mergedPositions = some place) :
    (state.merged.modify place fun r =>
        { r with score := ops.add r.score (semanticScoreWeight ops hit.score) }).mapIdx
        (boost ops hits state.mergedPositions) =
      state.merged.mapIdx (boost ops (hit :: hits) state.mergedPositions) := by
  apply List.ext_getElem?
  intro i
  rw [List.getElem?_mapIdx, List.getElem?_mapIdx, List.getElem?_modify]
  cases hr : state.merged[i]? with
  | none => rfl
  | some r =>
    show some (boost ops hits state.mergedPositions i (if place = i then
        { r with score := ops.add r.score (semanticScoreWeight ops hit.score) } else r)) =
      some (boost ops (hit :: hits) state.mergedPositions i r)
    by_cases hi : place = i
    · subst hi
      obtain ⟨r', hr', hkey⟩ := hstate _ _ hfind
      obtain rfl := Option.some.inj (hr.symm.trans hr')
      rw [if_pos rfl, boost, boost]
      have hsame : find? r.key state.mergedPositions = some place := hkey ▸ hfind
      show some (if find? r.key state.mergedPositions = some place then _ else _) = _
      rw [if_pos hsame, if_pos hsame, weightsOf_cons_of_eq hkey.symm hweight]
      rfl
    · rw [if_neg hi, boost, boost]
      by_cases hsame : find? r.key state.mergedPositions = some i
      · have hne : hit.key ≠ r.key := by
          intro heq
          rw [← heq, hfind] at hsame
          exact hi (Option.some.inj hsame)
        rw [if_pos hsame, if_pos hsame, weightsOf_cons_of_ne (.inl hne)]
      · rw [if_neg hsame, if_neg hsame]

theorem boost_skip {positions : List (ChunkKey × ℕ)}
    (h : ops.nonPositive (semanticScoreWeight ops hit.score) = true ∨ find? hit.key positions = none) :
    boost ops (hit :: hits) positions = boost ops hits positions := by
  funext i r
  rw [boost, boost]
  by_cases hfind : find? r.key positions = some i
  · rw [if_pos hfind, if_pos hfind, weightsOf_cons_of_ne]
    rcases h with hweight | hnone
    · exact .inr hweight
    · left
      intro heq
      rw [heq, hfind] at hnone
      cases hnone
  · rw [if_neg hfind, if_neg hfind]

/-- **The loop** adds the weights of the hits to the results they are for, and appends what they bring
in. -/
theorem merged_eq {state : MergeState S} (hstate : state.Consistent) (hits : List (SemanticChunkScore S)) :
    (hits.foldl (mergeStep ops index) state).merged =
      state.merged.mapIdx (boost ops hits state.mergedPositions) ++
        broughtIn ops index (keys state.mergedPositions) hits := by
  induction hits generalizing state with
  | nil =>
    have hid : ∀ (i : ℕ) (r : SearchResult S), boost ops [] state.mergedPositions i r = r := by
      intro i r
      rw [boost]
      split <;> rfl
    rw [List.foldl_nil, broughtIn, List.append_nil]
    apply List.ext_getElem?
    intro i
    rw [List.getElem?_mapIdx]
    cases state.merged[i]? <;> simp [hid]
  | cons hit hits ih =>
    rw [List.foldl_cons, mergeStep, broughtIn]
    by_cases hweight : ops.nonPositive (semanticScoreWeight ops hit.score) = true
    · rw [if_pos hweight, if_pos (.inl hweight), ih hstate, boost_skip (.inl hweight)]
    rw [if_neg hweight]
    rw [Bool.not_eq_true] at hweight
    cases hfind : find? hit.key state.mergedPositions with
    | some place =>
      have hknown : hit.key ∈ keys state.mergedPositions := by
        rw [mem_keys_iff_find?, hfind]
        rfl
      rw [if_pos (.inr hknown), ih, boost_found hstate hweight hfind]
      intro key i hkey
      obtain ⟨r, hr, hrkey⟩ := hstate key i hkey
      rw [List.getElem?_modify, hr]
      refine ⟨if place = i then
        { r with score := ops.add r.score (semanticScoreWeight ops hit.score) } else r, rfl, ?_⟩
      split
      all_goals exact hrkey
    | none =>
      have hknown : hit.key ∉ keys state.mergedPositions := find?_eq_none_iff.mp hfind
      rw [if_neg (not_or.mpr ⟨by rw [hweight]; exact Bool.false_ne_true, hknown⟩)]
      cases hnamed : chunkNamed index hit.key with
      | none =>
        rw [ih hstate, boost_skip (.inr hfind)]
      | some named =>
        obtain ⟨position, chunk⟩ := named
        obtain ⟨-, hchunk⟩ := chunkNamed_spec hnamed
        have hfind' : ∀ key, find? key (insertLast hit.key state.merged.length state.mergedPositions) =
            if key = hit.key then some state.merged.length else find? key state.mergedPositions :=
          fun key => find?_insertLast _ _ _ _
        rw [ih]
        · have hold : state.merged.mapIdx
              (boost ops hits (insertLast hit.key state.merged.length state.mergedPositions)) =
              state.merged.mapIdx (boost ops hits state.mergedPositions) := by
            apply List.ext_getElem
            · rw [List.length_mapIdx, List.length_mapIdx]
            · intro i hi _
              rw [List.length_mapIdx] at hi
              rw [List.getElem_mapIdx, List.getElem_mapIdx, boost, boost, hfind']
              by_cases hkey : (state.merged[i]).key = hit.key
              · have hne : ¬ some state.merged.length = some i := by
                  intro heq
                  exact Nat.ne_of_lt hi (Option.some.inj heq).symm
                rw [if_pos hkey, if_neg hne, hkey, hfind, if_neg (by simp)]
              · rw [if_neg hkey]
          have hknown' : ∀ key, key ∈ keys (insertLast hit.key state.merged.length state.mergedPositions) ↔
              key ∈ hit.key :: keys state.mergedPositions := by
            intro key
            rw [mem_keys_insertLast, List.mem_cons]
          have hnew : boost ops hits (insertLast hit.key state.merged.length state.mergedPositions)
              state.merged.length (resultOf chunk position (semanticScoreWeight ops hit.score)) =
              resultOf chunk position
                ((weightsOf ops hit.key hits).foldl ops.add (semanticScoreWeight ops hit.score)) := by
            have hkey : (resultOf chunk position (semanticScoreWeight ops hit.score)).key = hit.key := hchunk
            rw [boost, hfind', hkey, if_pos rfl, if_pos rfl]
            rfl
          rw [List.mapIdx_append, hold, broughtIn_congr hknown', boost_skip (.inr hfind), List.append_assoc]
          simp only [List.mapIdx_cons, List.mapIdx_nil, Nat.zero_add, hnew]
          rfl
        · intro key i hkey
          have hkey' : (if key = hit.key then some state.merged.length else
              find? key state.mergedPositions) = some i := (hfind' key).symm.trans hkey
          by_cases heq : key = hit.key
          · rw [if_pos heq] at hkey'
            obtain rfl := Option.some.inj hkey'
            refine ⟨_, List.getElem?_concat_length, ?_⟩
            rw [heq]
            exact hchunk
          · rw [if_neg heq] at hkey'
            obtain ⟨r, hr, hrkey⟩ := hstate key i hkey'
            refine ⟨r, ?_, hrkey⟩
            rw [List.getElem?_append_left (List.getElem?_eq_some_iff.mp hr).1]
            exact hr

end Loop

/-! ### The candidates and the cut -/

section Candidates

variable {S : Type} {ops : Floats S} {index : List IndexChunk}

instance [LinearOrder S] : IsTrans (SearchResult S) MergedBefore where
  trans a b c hab hbc := by
    rcases hab with hab | ⟨hab, hpath⟩
    · rcases hbc with hbc | ⟨hbc, -⟩
      · exact .inl (hbc.trans hab)
      · exact .inl (hbc ▸ hab)
    · rcases hbc with hbc | ⟨hbc, hpath'⟩
      · exact .inl (hab ▸ hbc)
      · refine .inr ⟨hab.trans hbc, ?_⟩
        rcases hpath with hpath | ⟨hpath, hline⟩
        · rcases hpath' with hpath' | ⟨hpath', -⟩
          · exact .inl (hpath.trans hpath')
          · exact .inl (hpath' ▸ hpath)
        · rcases hpath' with hpath' | ⟨hpath', hline'⟩
          · exact .inl (hpath ▸ hpath')
          · exact .inr ⟨hpath.trans hpath', hline.trans hline'⟩

instance [LinearOrder S] : Std.Total (MergedBefore (S := S)) where
  total a b := by
    rcases lt_trichotomy a.score b.score with hlt | heq | hlt
    · exact .inr (.inl hlt)
    · rcases lt_trichotomy a.path b.path with hpath | hpath | hpath
      · exact .inl (.inr ⟨heq, .inl hpath⟩)
      · rcases Nat.le_total a.startLine b.startLine with hline | hline
        · exact .inl (.inr ⟨heq, .inr ⟨hpath, hline⟩⟩)
        · exact .inr (.inr ⟨heq.symm, .inr ⟨hpath.symm, hline⟩⟩)
      · exact .inr (.inr ⟨heq.symm, .inl hpath⟩)
    · exact .inl (.inl hlt)

def candidates (ops : Floats S) (index : List IndexChunk) (results : List (SearchResult S))
    (hits : List (SemanticChunkScore S)) : List (SearchResult S) :=
  boosted ops results hits ++ broughtIn ops index (results.map SearchResult.key) hits

/-- **Merging** sorts the candidates and cuts them. -/
theorem mergeSearchResults_eq [LinearOrder S] (maxResultsDefault : ℕ)
    (results : List (SearchResult S)) (hits : List (SemanticChunkScore S)) (maxResults : Option ℕ) :
    mergeSearchResults ops maxResultsDefault index results hits maxResults =
      ((candidates ops index results hits).insertionSort MergedBefore).take
        (maxResults.getD maxResultsDefault) := by
  have hkeys : ∀ key, key ∈ keys (positionsOf results) ↔ key ∈ results.map SearchResult.key := by
    intro key
    rw [positionsOf, (collectMap_keys _).2, keys, List.map_map]
    show key ∈ results.zipIdx.map (SearchResult.key ∘ Prod.fst) ↔ _
    rw [← List.map_map, List.zipIdx_map_fst]
  rw [mergeSearchResults]
  dsimp only
  rw [merged_eq (positionsOf_consistent results), broughtIn_congr hkeys]
  split
  · rename_i hcap
    rw [hcap, List.take_zero]
  · rfl

theorem broughtIn_keys (known : List ChunkKey) (hits : List (SemanticChunkScore S)) :
    ((broughtIn ops index known hits).map SearchResult.key).Nodup ∧
      ∀ r ∈ broughtIn ops index known hits, r.key ∉ known ∧ ∃ chunk, r.Of index chunk := by
  induction hits generalizing known with
  | nil => exact ⟨.nil, nofun⟩
  | cons hit hits ih =>
    rw [broughtIn]
    split
    · exact ih known
    rename_i hnew
    split
    · exact ih known
    rename_i position chunk hnamed
    obtain ⟨hplace, hkey⟩ := chunkNamed_spec hnamed
    obtain ⟨hnodup, hall⟩ := ih (hit.key :: known)
    refine ⟨?_, ?_⟩
    · rw [List.map_cons, List.nodup_cons]
      refine ⟨?_, hnodup⟩
      intro hmem
      obtain ⟨r, hr, hrkey⟩ := List.mem_map.mp hmem
      have hfresh := (hall r hr).1
      rw [hrkey] at hfresh
      exact hfresh (hkey ▸ List.mem_cons_self)
    · intro r hr
      rcases List.mem_cons.mp hr with rfl | hr
      · refine ⟨?_, chunk, hplace, rfl⟩
        intro hmem
        exact hnew (.inr (hkey ▸ hmem))
      · obtain ⟨hfresh, hof⟩ := hall r hr
        exact ⟨fun hmem => hfresh (List.mem_cons_of_mem _ hmem), hof⟩

theorem SearchResult.Of.key {r : SearchResult S} {chunk : IndexChunk} (h : r.Of index chunk) :
    r.key = chunk.key := by
  obtain ⟨-, heq⟩ := h
  rw [heq]
  rfl

theorem key_of_position {r r' : SearchResult S} {chunk chunk' : IndexChunk} (h : r.Of index chunk)
    (h' : r'.Of index chunk') (hposition : r.position = r'.position) : r.key = r'.key := by
  have hsame := h.1
  rw [hposition, h'.1] at hsame
  rw [h.key, h'.key, Option.some.inj hsame]

theorem boosted_positions (results : List (SearchResult S)) (hits : List (SemanticChunkScore S)) :
    (boosted ops results hits).map SearchResult.position = results.map SearchResult.position := by
  apply List.ext_getElem
  · simp [boosted]
  · intro i h h'
    simp only [boosted, List.getElem_map, List.getElem_mapIdx, boost]
    split <;> rfl

theorem mem_boosted {results : List (SearchResult S)} {hits : List (SemanticChunkScore S)}
    {r : SearchResult S} (h : r ∈ boosted ops results hits) :
    ∃ r' ∈ results, r'.position = r.position ∧ r'.key = r.key ∧
      ∀ chunk, r'.Of index chunk → r.Of index chunk := by
  obtain ⟨i, hi, rfl⟩ := List.mem_mapIdx.mp h
  refine ⟨results[i], List.getElem_mem hi, ?_, (boost_key hits _ i _).symm, ?_⟩
  · rw [boost]
    split <;> rfl
  · intro chunk hof
    rw [boost]
    split
    · refine ⟨hof.1, ?_⟩
      have heq := hof.2
      generalize results[i] = found at heq
      rw [heq]
      rfl
    · exact hof

/-- **Each chunk is a candidate once.** -/
theorem candidates_spec {results : List (SearchResult S)} {hits : List (SemanticChunkScore S)}
    (hnodup : (results.map SearchResult.position).Nodup) (hof : ∀ r ∈ results, ∃ chunk, r.Of index chunk) :
    ((candidates ops index results hits).map SearchResult.position).Nodup ∧
      ∀ r ∈ candidates ops index results hits, ∃ chunk, r.Of index chunk := by
  obtain ⟨hkeys, hbrought⟩ :=
    @broughtIn_keys S ops index (results.map SearchResult.key) hits
  constructor
  · rw [candidates, List.map_append, boosted_positions, List.nodup_append]
    refine ⟨hnodup, ?_, ?_⟩
    · refine List.Nodup.map_on ?_ (List.Nodup.of_map _ hkeys)
      intro r hr r' hr' hposition
      obtain ⟨-, chunk, hchunk⟩ := hbrought r hr
      obtain ⟨-, chunk', hchunk'⟩ := hbrought r' hr'
      exact List.inj_on_of_nodup_map hkeys hr hr' (key_of_position hchunk hchunk' hposition)
    · intro position hmem position' hmem' heq
      obtain ⟨r, hr, rfl⟩ := List.mem_map.mp hmem
      obtain ⟨r', hr', rfl⟩ := List.mem_map.mp hmem'
      obtain ⟨chunk, hchunk⟩ := hof r hr
      obtain ⟨hfresh, chunk', hchunk'⟩ := hbrought r' hr'
      exact hfresh (key_of_position hchunk hchunk' heq ▸ List.mem_map_of_mem hr)
  · intro r hr
    rcases List.mem_append.mp hr with hr | hr
    · obtain ⟨r', hr', -, -, hsame⟩ := @mem_boosted S ops index results hits r hr
      obtain ⟨chunk, hchunk⟩ := hof r' hr'
      exact ⟨chunk, hsame chunk hchunk⟩
    · exact (hbrought r hr).2

end Candidates

/-! ### Filters after the merge -/

/-- What a search promises of its results: they honour the filters, no chunk comes twice, and at most
`cap` are shown, the best ones first. -/
structure SearchHolds {S : Type} [LinearOrder S] (parsed : ParsedQuery) (index : List IndexChunk) (cap : ℕ)
    (results : List (SearchResult S)) : Prop where
  honours : ∀ r ∈ results, ∃ chunk, r.Of index chunk ∧ Honours parsed chunk
  once : (results.map SearchResult.position).Nodup
  capped : results.length ≤ cap
  sorted : results.Pairwise fun a b => b.score ≤ a.score

/-- A chunk that hits bring in honours the filters, or `cap` candidates come before it. -/
def BroughtInHonours {S : Type} [LinearOrder S] (ops : Floats S) (parsed : ParsedQuery)
    (index : List IndexChunk) (cap : ℕ) (results : List (SearchResult S))
    (hits : List (SemanticChunkScore S)) : Prop :=
  ∀ front r back, broughtIn ops index (results.map SearchResult.key) hits = front ++ r :: back →
    ∀ chunk, index[r.position]? = some chunk → ¬ Honours parsed chunk →
      cap ≤ rank MergedBefore (boosted ops results hits ++ front) r back

section Shown

variable {S : Type} [LinearOrder S] {ops : Floats S} {index : List IndexChunk} {parsed : ParsedQuery}
  {cap : ℕ} {results : List (SearchResult S)} {hits : List (SemanticChunkScore S)}

/-- The shape of what is shown does not depend on the query. -/
theorem shown_shape (hnodup : (results.map SearchResult.position).Nodup)
    (hof : ∀ r ∈ results, ∃ chunk, r.Of index chunk) :
    let shown := ((candidates ops index results hits).insertionSort MergedBefore).take cap
    (shown.map SearchResult.position).Nodup ∧ shown.length ≤ cap ∧
      shown.Pairwise fun a b => b.score ≤ a.score := by
  have hperm := List.perm_insertionSort MergedBefore (candidates ops index results hits)
  refine ⟨?_, List.length_take_le _ _, ?_⟩
  · refine ((List.take_sublist _ _).map _).nodup ?_
    exact (hperm.map _).nodup_iff.mpr (candidates_spec hnodup hof).1
  · refine List.Pairwise.sublist (List.take_sublist _ _) ?_
    refine (List.pairwise_insertionSort MergedBefore _).imp ?_
    intro a b hab
    rcases hab with hlt | ⟨heq, -⟩
    · exact hlt.le
    · exact heq.ge

/-- **What is shown honours the filters** exactly when what is brought in does, as far as it is shown. -/
theorem shown_honours_iff (hnodup : (results.map SearchResult.position).Nodup)
    (hresults : ∀ r ∈ results, ∃ chunk, r.Of index chunk ∧ Honours parsed chunk) :
    (∀ r ∈ ((candidates ops index results hits).insertionSort MergedBefore).take cap,
        ∃ chunk, r.Of index chunk ∧ Honours parsed chunk) ↔
      BroughtInHonours ops parsed index cap results hits := by
  have hof : ∀ r ∈ results, ∃ chunk, r.Of index chunk := fun r hr =>
    (hresults r hr).imp fun _ h => h.1
  obtain ⟨hpositions, hall⟩ := @candidates_spec S ops index results hits hnodup hof
  have hdistinct := hpositions.of_map
  have hcut : ∀ front r back,
      broughtIn ops index (results.map SearchResult.key) hits = front ++ r :: back →
      (r ∈ ((candidates ops index results hits).insertionSort MergedBefore).take cap ↔
        rank MergedBefore (boosted ops results hits ++ front) r back < cap) := by
    intro front r back hsplit
    have hcandidates : candidates ops index results hits =
        (boosted ops results hits ++ front) ++ r :: back := by
      rw [candidates, hsplit, List.append_assoc]
    rw [hcandidates] at hdistinct ⊢
    exact mem_take_insertionSort_iff hdistinct cap
  constructor
  · intro hhonours front r back hsplit chunk hchunk hnot
    by_contra hlt
    obtain ⟨chunk', hof', hhonours'⟩ := hhonours r ((hcut front r back hsplit).mpr (by omega))
    obtain rfl := Option.some.inj (hchunk.symm.trans hof'.1)
    exact hnot hhonours'
  · intro hbrought r hr
    have hmem := (List.perm_insertionSort MergedBefore _).mem_iff.mp (List.mem_of_mem_take hr)
    rcases List.mem_append.mp hmem with hlexical | hsemantic
    · obtain ⟨r', hr', -, -, hsame⟩ := @mem_boosted S ops index results hits r hlexical
      obtain ⟨chunk, hchunk, hhonours⟩ := hresults r' hr'
      exact ⟨chunk, hsame chunk hchunk, hhonours⟩
    · obtain ⟨chunk, hchunk⟩ := hall r hmem
      refine ⟨chunk, hchunk, ?_⟩
      by_contra hnot
      obtain ⟨front, back, hsplit⟩ := List.append_of_mem hsemantic
      have hcap := hbrought front r back hsplit chunk hchunk.1 hnot
      have hrank := (hcut front r back hsplit).mp hr
      omega

end Shown

/-- **`codebase_search` honours its filters** exactly when the chunks that only semantic hits bring in do,
as far as they are shown. -/
theorem search_holds_iff {S : Type} [LinearOrder S] (ops : Floats S)
    (bm25 : List IndexChunk → String → List (ℕ × S)) (maxResultsDefault : ℕ) (query : String)
    (index : List IndexChunk) (hits : List (SemanticChunkScore S)) (maxResults : Option ℕ) :
    let results := codebaseSearch ops bm25 maxResultsDefault query index maxResults
    let cap := maxResults.getD maxResultsDefault
    SearchHolds (ParsedQuery.parse query) index cap
        (mergeSearchResults ops maxResultsDefault index results hits maxResults) ↔
      BroughtInHonours ops (ParsedQuery.parse query) index cap results hits := by
  dsimp only
  obtain ⟨hnodup, hresults⟩ := @codebaseSearch_spec S ops index _ bm25 maxResultsDefault query maxResults
  have hof := fun r hr => (hresults r hr).imp fun _ h => h.1
  obtain ⟨honce, hcapped, hsorted⟩ :=
    @shown_shape S _ ops index (maxResults.getD maxResultsDefault) _ hits hnodup hof
  rw [mergeSearchResults_eq, ← shown_honours_iff hnodup hresults]
  constructor
  · intro h
    exact h.honours
  · intro h
    exact ⟨h, honce, hcapped, hsorted⟩

/-! ### A chunk that is excluded and shown -/

def natFloats : Floats ℕ where
  ofNat n := n
  add := (· + ·)
  mul := (· * ·)
  larger := max
  positive n := 0 < n
  nonPositive n := n = 0
  zero_not_positive := rfl

def legacyChunk : IndexChunk where
  path := "src/legacy.rs"
  startLine := 1
  endLine := 1
  kind := .function
  name := "reload_legacy"
  parentScope := none
  source := "fn reload_legacy() {}"

/-- A semantic hit for a chunk that `-legacy` excludes. -/
theorem excluded_chunk_shown :
    ¬ SearchHolds (ParsedQuery.parse "+reload -legacy") [legacyChunk] 10
      (mergeSearchResults natFloats 10 [legacyChunk]
        (codebaseSearch natFloats (fun _ _ => []) 10 "+reload -legacy" [legacyChunk] none)
        [⟨"src/legacy.rs", 1, 1, "reload_legacy", 1⟩] none) := by
  intro h
  have hshown : resultOf legacyChunk 0 60 ∈ mergeSearchResults natFloats 10 [legacyChunk]
      (codebaseSearch natFloats (fun _ _ => []) 10 "+reload -legacy" [legacyChunk] none)
      [⟨"src/legacy.rs", 1, 1, "reload_legacy", 1⟩] none := by
    decide +kernel
  obtain ⟨chunk, ⟨hchunk, -⟩, hhonours⟩ := h.honours _ hshown
  obtain rfl := Option.some.inj hchunk
  have hmatches := chunkMatchesQuery_iff.mpr hhonours
  have hnot : chunkMatchesQuery (ChunkSearchFields.fromChunk legacyChunk)
      (ParsedQuery.parse "+reload -legacy") = false := by
    decide +kernel
  rw [hnot] at hmatches
  cases hmatches

end Vexcoder.Tools
