import Vexcoder.Base.Lines
import Vexcoder.Tools.IndexChunk

/-!
# Queries of the code base

A query is a list of tokens: filters for the path, the kind and the language, terms that a chunk must or
must not have, and other terms.  `chunkMatchesQuery` is the check of the search, and `Honours` says what
the filters of a query ask for (`chunkMatchesQuery_iff`).
-/

namespace Vexcoder.Tools

open Base

structure ParsedQuery where
  terms : List String := []
  requiredTerms : List String := []
  excludedTerms : List String := []
  pathFilters : List String := []
  kindFilters : List String := []
  langFilters : List String := []

/-- The loop of `tokenize_query`: a quote opens or closes a part in which blanks do not end the token. -/
def tokenizeFrom (current : List Char) (inQuotes : Bool) : List Char → List String
  | [] => if current.isEmpty then [] else [String.ofList current]
  | ch :: rest =>
    if ch = '"' then tokenizeFrom current (!inQuotes) rest
    else if isWhitespace ch && !inQuotes then
      if current.isEmpty then tokenizeFrom [] inQuotes rest
      else String.ofList current :: tokenizeFrom [] inQuotes rest
    else tokenizeFrom (current ++ [ch]) inQuotes rest

def tokenizeQuery (query : String) : List String := tokenizeFrom [] false query.toList

def normalizeKindFilter (value : String) : Option String :=
  let normalized := Text.toAsciiLowercase (Text.trim value)
  if normalized = "" then none
  else if normalized = "typealias" then some "type"
  else some normalized

def normalizeLangFilter (value : String) : Option String :=
  let normalized := Text.toAsciiLowercase (Text.trim value)
  if normalized = "" then none
  else if normalized ∈ ["rs", "rust"] then some "rust"
  else if normalized ∈ ["py", "python"] then some "python"
  else if normalized ∈ ["ts", "tsx", "typescript"] then some "typescript"
  else if normalized ∈ ["js", "jsx", "mjs", "cjs", "javascript"] then some "javascript"
  else some normalized

namespace ParsedQuery

def add (parsed : ParsedQuery) (token : String) : ParsedQuery :=
  let trimmed := Text.trim token
  if Text.isEmpty trimmed then parsed
  else
    match Text.stripPrefix trimmed "path:" with
    | some pathFilter =>
      let lowered := Text.toAsciiLowercase (Text.trim pathFilter)
      if Text.isEmpty lowered then parsed
      else { parsed with pathFilters := parsed.pathFilters ++ [lowered] }
    | none =>
      match Text.stripPrefix trimmed "kind:" with
      | some kindFilter =>
        { parsed with kindFilters := parsed.kindFilters ++ (normalizeKindFilter kindFilter).toList }
      | none =>
        match Text.stripPrefix trimmed "lang:" with
        | some langFilter =>
          { parsed with langFilters := parsed.langFilters ++ (normalizeLangFilter langFilter).toList }
        | none =>
          let normalized (term : String) : List String :=
            let lowered := Text.toAsciiLowercase (Text.trim term)
            if Text.isEmpty lowered then [] else [lowered]
          match Text.stripPrefix trimmed "+", Text.stripPrefix trimmed "-" with
          | some term, _ => { parsed with requiredTerms := parsed.requiredTerms ++ normalized term }
          | none, some term => { parsed with excludedTerms := parsed.excludedTerms ++ normalized term }
          | none, none => { parsed with terms := parsed.terms ++ normalized trimmed }

def parse (query : String) : ParsedQuery := (tokenizeQuery query).foldl add {}

def positiveQueryText (parsed : ParsedQuery) : String :=
  Text.join " " (parsed.terms ++ parsed.requiredTerms)

def hasPositiveTerms (parsed : ParsedQuery) : Bool :=
  !parsed.terms.isEmpty || !parsed.requiredTerms.isEmpty

def isEffectivelyEmpty (parsed : ParsedQuery) : Bool :=
  parsed.terms.isEmpty && parsed.requiredTerms.isEmpty && parsed.excludedTerms.isEmpty &&
    parsed.pathFilters.isEmpty && parsed.kindFilters.isEmpty && parsed.langFilters.isEmpty

end ParsedQuery

def detectChunkLanguage (path : String) : Option String :=
  match (pathExtension path).map Text.toAsciiLowercase with
  | none => none
  | some ext =>
    if ext = "rs" then some "rust"
    else if ext = "py" then some "python"
    else if ext ∈ ["ts", "tsx"] then some "typescript"
    else if ext ∈ ["js", "jsx", "mjs", "cjs"] then some "javascript"
    else none

structure ChunkSearchFields where
  nameLower : String
  scopeLower : Option String
  sourceLower : String
  pathLower : String
  kindLower : String
  langLower : Option String

namespace ChunkSearchFields

def fromChunk (chunk : IndexChunk) : ChunkSearchFields where
  nameLower := Text.toAsciiLowercase chunk.name
  scopeLower := chunk.parentScope.map Text.toAsciiLowercase
  sourceLower := Text.toAsciiLowercase chunk.source
  pathLower := Text.toAsciiLowercase chunk.path
  kindLower := Text.toAsciiLowercase chunk.kind.label
  langLower := detectChunkLanguage chunk.path

def matchesTerm (fields : ChunkSearchFields) (term : String) : Bool :=
  Text.contains fields.nameLower term || Text.contains fields.pathLower term ||
    Text.contains fields.kindLower term || Text.contains fields.sourceLower term ||
    fields.scopeLower.any (Text.contains · term) || fields.langLower.any (· == term)

end ChunkSearchFields

/-- A kind of filter is empty, or one of its filters is met. -/
def anyFilter (filters : List String) (meets : String → Bool) : Bool :=
  filters.isEmpty || filters.any meets

def chunkMatchesQuery (fields : ChunkSearchFields) (parsed : ParsedQuery) : Bool :=
  if !anyFilter parsed.pathFilters (Text.contains fields.pathLower ·) then false
  else if !anyFilter parsed.kindFilters (· == fields.kindLower) then false
  else if !anyFilter parsed.langFilters (fun filter => fields.langLower.any (· == filter)) then false
  else if parsed.excludedTerms.any fields.matchesTerm then false
  else if parsed.requiredTerms.any fun required => !fields.matchesTerm required then false
  else true

def matchesPositiveTerms (fields : ChunkSearchFields) (parsed : ParsedQuery) : Bool :=
  if !parsed.requiredTerms.isEmpty &&
      parsed.requiredTerms.any fun required => !fields.matchesTerm required then false
  else if parsed.terms.isEmpty then true
  else parsed.terms.any fields.matchesTerm

/-! ### What the filters ask for -/

/-- A term stands in the name, the path, the kind, the text or the scope of a chunk, or is its language;
capital letters do not count. -/
def IndexChunk.Has (chunk : IndexChunk) (term : String) : Prop :=
  (∃ text ∈ [chunk.name, chunk.path, chunk.kind.label, chunk.source] ++ chunk.parentScope.toList,
    term.toList <:+: (Text.toAsciiLowercase text).toList) ∨ detectChunkLanguage chunk.path = some term

/-- The chunk honours the filters of a query: one of the paths, one of the kinds, one of the languages,
every required term and no excluded one. -/
structure Honours (parsed : ParsedQuery) (chunk : IndexChunk) : Prop where
  path : parsed.pathFilters ≠ [] → ∃ filter ∈ parsed.pathFilters,
    filter.toList <:+: (Text.toAsciiLowercase chunk.path).toList
  kind : parsed.kindFilters ≠ [] → Text.toAsciiLowercase chunk.kind.label ∈ parsed.kindFilters
  lang : parsed.langFilters ≠ [] → ∃ lang ∈ parsed.langFilters, detectChunkLanguage chunk.path = some lang
  excluded : ∀ term ∈ parsed.excludedTerms, ¬ chunk.Has term
  required : ∀ term ∈ parsed.requiredTerms, chunk.Has term

theorem anyFilter_iff {filters : List String} {meets : String → Bool} :
    anyFilter filters meets = true ↔ (filters ≠ [] → ∃ filter ∈ filters, meets filter = true) := by
  rw [anyFilter, Bool.or_eq_true, List.isEmpty_iff, List.any_eq_true]
  tauto

theorem option_any_beq {o : Option String} {s : String} : o.any (· == s) = true ↔ o = some s := by
  cases o <;> simp

theorem matchesTerm_iff {chunk : IndexChunk} {term : String} :
    (ChunkSearchFields.fromChunk chunk).matchesTerm term = true ↔ chunk.Has term := by
  rw [ChunkSearchFields.matchesTerm, IndexChunk.Has, ChunkSearchFields.fromChunk]
  simp only [Bool.or_eq_true, option_any_beq, Text.contains_iff]
  cases chunk.parentScope with
  | none => simp [or_assoc]
  | some scope => simp [or_assoc, Text.contains_iff]

/-- **The check of the search** is what the filters ask for. -/
theorem chunkMatchesQuery_iff {chunk : IndexChunk} {parsed : ParsedQuery} :
    chunkMatchesQuery (ChunkSearchFields.fromChunk chunk) parsed = true ↔ Honours parsed chunk := by
  have hexcluded : parsed.excludedTerms.any (ChunkSearchFields.fromChunk chunk).matchesTerm = true ↔
      ∃ term ∈ parsed.excludedTerms, chunk.Has term := by
    simp only [List.any_eq_true, matchesTerm_iff]
  have hrequired : (parsed.requiredTerms.any fun required =>
        !(ChunkSearchFields.fromChunk chunk).matchesTerm required) = true ↔
      ∃ term ∈ parsed.requiredTerms, ¬ chunk.Has term := by
    simp only [List.any_eq_true, Bool.not_eq_true', ← Bool.not_eq_true, matchesTerm_iff]
  rw [chunkMatchesQuery]
  constructor
  · intro h
    split at h
    · cases h
    rename_i hpath
    split at h
    · cases h
    rename_i hkind
    split at h
    · cases h
    rename_i hlang
    split at h
    · cases h
    rename_i hnone
    split at h
    · cases h
    rename_i hall
    simp only [Bool.not_eq_true', Bool.not_eq_false] at hpath hkind hlang
    refine ⟨?_, ?_, ?_, ?_, ?_⟩
    · intro hne
      obtain ⟨filter, hmem, hmeets⟩ := anyFilter_iff.mp hpath hne
      exact ⟨filter, hmem, Text.contains_iff.mp hmeets⟩
    · intro hne
      obtain ⟨filter, hmem, hmeets⟩ := anyFilter_iff.mp hkind hne
      obtain rfl := eq_of_beq hmeets
      exact hmem
    · intro hne
      obtain ⟨filter, hmem, hmeets⟩ := anyFilter_iff.mp hlang hne
      exact ⟨filter, hmem, option_any_beq.mp hmeets⟩
    · intro term hmem hhas
      exact hnone (hexcluded.mpr ⟨term, hmem, hhas⟩)
    · intro term hmem
      by_contra hhas
      exact hall (hrequired.mpr ⟨term, hmem, hhas⟩)
  · intro h
    have hpath : anyFilter parsed.pathFilters
        (Text.contains (ChunkSearchFields.fromChunk chunk).pathLower ·) = true :=
      anyFilter_iff.mpr fun hne => by
        obtain ⟨filter, hmem, hin⟩ := h.path hne
        exact ⟨filter, hmem, Text.contains_iff.mpr hin⟩
    have hkind : anyFilter parsed.kindFilters (· == (ChunkSearchFields.fromChunk chunk).kindLower) = true :=
      anyFilter_iff.mpr fun hne => ⟨_, h.kind hne, beq_self_eq_true _⟩
    have hlang : anyFilter parsed.langFilters
        (fun filter => (ChunkSearchFields.fromChunk chunk).langLower.any (· == filter)) = true :=
      anyFilter_iff.mpr fun hne => by
        obtain ⟨lang, hmem, hsome⟩ := h.lang hne
        exact ⟨lang, hmem, option_any_beq.mpr hsome⟩
    rw [hpath, hkind, hlang]
    simp only [Bool.not_true, Bool.false_eq_true, if_false]
    rw [if_neg, if_neg]
    · intro hnot
      obtain ⟨term, hmem, hhas⟩ := hrequired.mp hnot
      exact hhas (h.required term hmem)
    · intro hsome
      obtain ⟨term, hmem, hhas⟩ := hexcluded.mp hsome
      exact h.excluded term hmem hhas

end Vexcoder.Tools
