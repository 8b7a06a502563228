import Vexcoder.Lib.SortByKey
import Vexcoder.Tools.SearchMerge

/-!
# Semantic search

The index of embeddings is kept in a file between the searches.  A search takes the chunks that the file
has no embedding of their text for, asks the server about their texts, stores the answers by position,
saves the index and compares every stored embedding with that of the query.  The vectors and their
similarity are taken as given; a hash map is a list, which `order` lists in the order of its iteration.
-/

namespace Vexcoder.Tools

open Base Lib.Assoc Lib.SortByKey

/-! ### Embeddings -/

inductive EmbeddingProvider where
  | compat
  | native

def EmbeddingProvider.asStr : EmbeddingProvider → String
  | .compat => "compat"
  | .native => "native"

/-- What the search reads of the configuration; `from_env` takes no batch size of zero. -/
structure EmbeddingConfig where
  provider : EmbeddingProvider
  model : String
  batchSize : ℕ
  batchSize_pos : 0 < batchSize

structure CompatEmbeddingItem (E : Type) where
  embedding : E
  index : ℕ

/-- What the server answers to the requests of a search, by their number. -/
structure EmbeddingServer (E : Type) where
  compat : ℕ → List String → Except String (List (CompatEmbeddingItem E))
  native : ℕ → String → Except String E

/-- `texts.chunks(size)`; at most `fuel` of them. -/
def batches (size : ℕ) : ℕ → List String → List (List String)
  | 0, _ | _, [] => []
  | fuel + 1, text :: rest => (text :: rest).take size :: batches size fuel ((text :: rest).drop size)

section Embed

variable {E : Type} (server : EmbeddingServer E)

def embedCompatBatches : ℕ → List (List String) → Except String (List E)
  | _, [] => .ok []
  | k, batch :: rest => do
    let data ← server.compat k batch
    let embeddings ← embedCompatBatches (k + 1) rest
    .ok ((sortByKey CompatEmbeddingItem.index data).map CompatEmbeddingItem.embedding ++ embeddings)

def embedNativeBatches : ℕ → List String → Except String (List E)
  | _, [] => .ok []
  | k, text :: rest => do
    let embedding ← server.native k text
    let embeddings ← embedNativeBatches (k + 1) rest
    .ok (embedding :: embeddings)

/-- The requests have the numbers from `k` on. -/
def embedTexts (config : EmbeddingConfig) (k : ℕ) (texts : List String) : Except String (List E) :=
  match config.provider with
  | .compat => embedCompatBatches server k (batches config.batchSize texts.length texts)
  | .native => embedNativeBatches server k texts

end Embed

/-! ### The index -/

structure PersistedSemanticChunk (E : Type) where
  chunkKey : String
  path : String
  startLine : ℕ
  endLine : ℕ
  name : String
  contentHash : UInt64
  embedding : E
  deriving DecidableEq

structure PersistedSemanticIndex (E : Type) where
  version : ℕ
  provider : String
  model : String
  chunks : List (PersistedSemanticChunk E)
  deriving DecidableEq

def semanticIndexVersion : ℕ := 1

def chunkKey (chunk : IndexChunk) : String :=
  chunk.path ++ ":" ++ toString chunk.startLine ++ ":" ++ toString chunk.endLine ++ ":" ++ chunk.name

def fnvOffsetBasis : UInt64 := 0xcbf29ce484222325

def fnvPrime : UInt64 := 0x100000001b3

def sourceHash (source : String) : UInt64 :=
  (source.toList.flatMap String.utf8EncodeChar).foldl
    (fun hash byte => (hash ^^^ byte.toUInt64) * fnvPrime) fnvOffsetBasis

structure SemanticSearch (E S : Type) where
  index : List IndexChunk
  query : String
  config : EmbeddingConfig
  maxResults : Option UInt64
  /-- `VEX_INDEX_MAX_FILES` -/
  maxFiles : Option String
  server : EmbeddingServer E
  readError : Option String
  saveError : Option String
  order : List (PersistedSemanticChunk E) → List (PersistedSemanticChunk E)
  order_perm : ∀ chunks, (order chunks).Perm chunks

/-- What the vectors are to the search: an index is read as it was written, or not at all where its JSON
has no number for an entry of a vector. -/
structure SearchHost (E S : Type) where
  reads : PersistedSemanticIndex E → Bool
  cosine : E → E → Option S
  overflowChecks : Bool

/-- The paths that are allowed already, and the chunks. -/
def eligibleFrom (maxFiles : ℕ) : List String → List IndexChunk → List IndexChunk
  | _, [] => []
  | allowed, chunk :: rest =>
    if maxFiles ≤ allowed.length ∧ chunk.path ∉ allowed then eligibleFrom maxFiles allowed rest
    else chunk :: eligibleFrom maxFiles (if chunk.path ∈ allowed then allowed else chunk.path :: allowed) rest

section Search

variable {E S : Type} (host : SearchHost E S)

def PersistedSemanticIndex.fresh (config : EmbeddingConfig) : PersistedSemanticIndex E where
  version := semanticIndexVersion
  provider := config.provider.asStr
  model := config.model
  chunks := []

/-- What is in the file, unless it is for another model. -/
def loadIndex (config : EmbeddingConfig) (file : Option (PersistedSemanticIndex E)) :
    PersistedSemanticIndex E :=
  match file.filter host.reads with
  | none => .fresh config
  | some parsed =>
    if parsed.version ≠ semanticIndexVersion ∨ parsed.provider ≠ config.provider.asStr ∨
      parsed.model ≠ config.model then .fresh config
    else parsed

def storedChunk (chunk : IndexChunk) (embedding : E) : PersistedSemanticChunk E where
  chunkKey := chunkKey chunk
  path := chunk.path
  startLine := chunk.startLine
  endLine := chunk.endLine
  name := chunk.name
  contentHash := sourceHash chunk.source
  embedding := embedding

abbrev Stored (E : Type) := List (String × PersistedSemanticChunk E)

def isStale (stored : Stored E) (chunk : IndexChunk) : Bool :=
  match find? (chunkKey chunk) stored with
  | none => true
  | some known => known.contentHash ≠ sourceHash chunk.source

def storeAll (stored : Stored E) (pairs : List (IndexChunk × E)) : Stored E :=
  pairs.foldl (fun stored pair =>
    insertLast (chunkKey pair.1) (storedChunk pair.1 pair.2) stored) stored

def scoreOf (queryEmbedding : E) (chunk : PersistedSemanticChunk E) : Option (SemanticChunkScore S) :=
  (host.cosine queryEmbedding chunk.embedding).map fun score =>
    { path := chunk.path, startLine := chunk.startLine, endLine := chunk.endLine
      name := chunk.name, score }

/-- Higher scores first, then the order of the paths and of the lines. -/
def HitBefore [LinearOrder S] (left right : SemanticChunkScore S) : Prop :=
  right.score < left.score ∨ left.score = right.score ∧
    (left.path < right.path ∨ left.path = right.path ∧ left.startLine ≤ right.startLine)

instance [LinearOrder S] : DecidableRel (HitBefore (S := S)) := fun _ _ =>
  inferInstanceAs (Decidable (_ ∨ _ ∧ (_ ∨ _ ∧ _)))

namespace SemanticSearch

def eligibleChunks (run : SemanticSearch E S) : List IndexChunk :=
  eligibleFrom (((run.maxFiles.bind fun value => parseU64 value.toList).filter (0 < ·)).getD 5000) []
    run.index

variable (run : SemanticSearch E S)

def loaded (file : Option (PersistedSemanticIndex E)) : Stored E :=
  collectMap ((loadIndex host run.config file).chunks.map fun chunk => (chunk.chunkKey, chunk))

def retained (file : Option (PersistedSemanticIndex E)) : Stored E :=
  (run.loaded host file).filter fun entry => entry.1 ∈ run.eligibleChunks.map chunkKey

def missing (file : Option (PersistedSemanticIndex E)) : List IndexChunk :=
  run.eligibleChunks.filter (isStale (run.retained host file))

def missingTexts (file : Option (PersistedSemanticIndex E)) : List String :=
  (run.missing host file).map IndexChunk.source

def requests (file : Option (PersistedSemanticIndex E)) : ℕ :=
  match run.config.provider with
  | .compat => (batches run.config.batchSize (run.missingTexts host file).length
      (run.missingTexts host file)).length
  | .native => (run.missingTexts host file).length

def save (file : Option (PersistedSemanticIndex E)) (stored : Stored E) :
    Except String (Option (PersistedSemanticIndex E)) :=
  if (run.retained host file).length ≠ (run.loaded host file).length ∨ run.missing host file ≠ [] then
    match run.saveError with
    | some error => .error error
    | none => .ok (some { loadIndex host run.config file with
        chunks := (stored.map Prod.snd).insertionSort fun left right => left.chunkKey ≤ right.chunkKey })
  else .ok file

/-- `max_results.unwrap_or(10).max(1) * 3` at `usize`: where it is too large, it wraps or, with checks,
panics. -/
def cap : Option ℕ :=
  let product := max (run.maxResults.getD 10).toNat 1 * 3
  if product < 2 ^ 64 then some product
  else if host.overflowChecks then none
  else some (product % 2 ^ 64)

def rank [LinearOrder S] (cap : ℕ) (scores : List (SemanticChunkScore S)) :
    List (SemanticChunkScore S) :=
  (scores.insertionSort HitBefore).take cap

/-- The result and the file behind it; a panic comes back as an error. -/
def semanticSearch [LinearOrder S] (file : Option (PersistedSemanticIndex E)) :
    Except String (List (SemanticChunkScore S)) × Option (PersistedSemanticIndex E) :=
  if Text.isEmpty (Text.trim run.query) || run.index.isEmpty then (.ok [], file)
  else if run.eligibleChunks.isEmpty then (.ok [], file)
  else
    match run.readError with
    | some error => (.error ("failed to read semantic index: " ++ error), file)
    | none =>
      match embedTexts run.server run.config 0 (run.missingTexts host file) with
      | .error error => (.error error, file)
      | .ok embeddings =>
        let stored := storeAll (run.retained host file) ((run.missing host file).zip embeddings)
        match run.save host file stored with
        | .error error => (.error error, file)
        | .ok saved =>
          match embedTexts run.server run.config (run.requests host file) [run.query] with
          | .error error => (.error error, saved)
          | .ok queryEmbeddings =>
            match queryEmbeddings.getLast? with
            | none => (.ok [], saved)
            | some queryEmbedding =>
              match run.cap host with
              | none => (.error "attempt to multiply with overflow", saved)
              | some cap =>
                (.ok (rank cap ((run.order (stored.map Prod.snd)).filterMap
                  (scoreOf host queryEmbedding))), saved)

end SemanticSearch

/-- The file behind searches that follow one another; there is none before them. -/
def fileBehind [LinearOrder S] (runs : List (SemanticSearch E S)) : Option (PersistedSemanticIndex E) :=
  runs.foldl (fun file run => (run.semanticSearch host file).2) none

end Search

end Vexcoder.Tools
