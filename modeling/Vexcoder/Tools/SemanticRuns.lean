import Mathlib.Data.List.Zip
import Vexcoder.Lib.Fallible
import Vexcoder.Tools.Semantic

/-!
# The embeddings that searches keep

The server may leave out items, repeat them or send more of them.  The search never compares how many
answers it has with how many texts it asked about, so that one short answer moves all later embeddings to
the chunks before theirs.  As long as each batch is answered in its own places, an embedding in the file is
one that the server returned for the text of its chunk, over any sequence of searches, and a search
compares exactly the chunks of its index, with embeddings of the texts that they have now.
-/

namespace Vexcoder.Tools

open Base Lib Lib.Assoc Lib.SortByKey CompatEmbeddingItem

/-! ### What the server returns -/

section Returned

variable {E : Type} (server : EmbeddingServer E) (config : EmbeddingConfig)

/-- One of the requests from the number `k` on has asked about the text, and its answer names it. -/
def EmbeddingServer.ReturnedFrom (k : ℕ) (asked : List (List String)) (text : String) (e : E) : Prop :=
  ∃ i batch data item, asked[i]? = some batch ∧ server.compat (k + i) batch = .ok data ∧
    item ∈ data ∧ batch[item.index]? = some text ∧ item.embedding = e

/-- The answers name the texts of their batches one after another; the last one may say more. -/
def EmbeddingServer.InPlace (k : ℕ) (asked : List (List String)) : Prop :=
  ∀ i batch data, asked[i]? = some batch → server.compat (k + i) batch = .ok data →
    List.range batch.length <+: (sortByKey CompatEmbeddingItem.index data).map CompatEmbeddingItem.index ∧
      (i + 1 < asked.length → data.length = batch.length)

/-- The server has returned the embedding for the text, which was one of those asked about. -/
def EmbeddingServer.Returned (texts : List String) (text : String) (e : E) : Prop :=
  match config.provider with
  | .compat => server.ReturnedFrom 0 (batches config.batchSize texts.length texts) text e
  | .native => ∃ i, texts[i]? = some text ∧ server.native i text = .ok e

variable {server}

theorem batches_flatten {size : ℕ} (pos : 0 < size) {fuel : ℕ} {texts : List String}
    (h : texts.length ≤ fuel) : (batches size fuel texts).flatten = texts := by
  induction fuel generalizing texts with
  | zero =>
    obtain rfl := List.eq_nil_of_length_eq_zero (Nat.le_zero.mp h)
    rfl
  | succ fuel ih =>
    cases texts with
    | nil => rfl
    | cons text rest =>
      have hfuel : ((text :: rest).drop size).length ≤ fuel := by
        rw [List.length_drop]
        omega
      rw [batches, List.flatten_cons, ih hfuel, List.take_append_drop]

theorem zip_inPlace {batch : List String} {items : List (CompatEmbeddingItem E)}
    (h : List.range batch.length <+: items.map CompatEmbeddingItem.index) :
    ∀ p ∈ batch.zip (items.map CompatEmbeddingItem.embedding),
      ∃ item ∈ items, batch[item.index]? = some p.1 ∧ item.embedding = p.2 := by
  rintro ⟨text, e⟩ hp
  obtain ⟨j, hj⟩ := List.mem_iff_getElem?.mp hp
  obtain ⟨htext, he⟩ := List.getElem?_zip_eq_some.mp hj
  rw [List.getElem?_map] at he
  obtain ⟨item, hitem, rfl⟩ := Option.map_eq_some_iff.mp he
  have hlt : j < (List.range batch.length).length := by
    rw [List.length_range]
    exact (List.getElem?_eq_some_iff.mp htext).1
  have hindex := List.prefix_iff_getElem?.mp h j hlt
  rw [List.getElem?_map, hitem, List.getElem_range] at hindex
  obtain rfl := Option.some.inj hindex
  exact ⟨item, List.mem_of_getElem? hitem, htext, rfl⟩

theorem embedCompatBatches_returned {k : ℕ} {asked : List (List String)} {es : List E}
    (place : server.InPlace k asked) (h : embedCompatBatches server k asked = .ok es) :
    asked.flatten.length ≤ es.length ∧ ∀ p ∈ asked.flatten.zip es, server.ReturnedFrom k asked p.1 p.2 := by
  induction asked generalizing k es with
  | nil => exact ⟨Nat.zero_le _, nofun⟩
  | cons batch rest ih =>
    obtain ⟨data, hdata, h⟩ := bind_eq_ok.mp h
    obtain ⟨later, hlater, h⟩ := bind_eq_ok.mp h
    obtain rfl := Except.ok.inj h
    obtain ⟨hnames, hlength⟩ := place 0 batch data rfl hdata
    have hnext : server.InPlace (k + 1) rest := by
      intro i batch' data' hi hok
      obtain ⟨hnames', hlength'⟩ := place (i + 1) batch' data' hi (by rwa [Nat.add_assoc, Nat.add_comm 1] at hok)
      exact ⟨hnames', fun hlt => hlength' (Nat.succ_lt_succ hlt)⟩
    obtain ⟨hlen, hzip⟩ := ih hnext hlater
    have hfirst : ∀ p ∈ batch.zip ((sortByKey index data).map embedding),
        server.ReturnedFrom k (batch :: rest) p.1 p.2 := by
      intro p hp
      obtain ⟨item, hitem, htext, he⟩ := zip_inPlace hnames p hp
      exact ⟨0, batch, data, item, rfl, hdata, (sortByKey_perm data).mem_iff.mp hitem, htext, he⟩
    have hle : batch.length ≤ data.length := by
      have := hnames.length_le
      rwa [List.length_range, List.length_map, (sortByKey_perm data).length_eq] at this
    constructor
    · rw [List.flatten_cons, List.length_append, List.length_append, List.length_map,
        (sortByKey_perm data).length_eq]
      omega
    · cases rest with
      | nil =>
        obtain rfl := Except.ok.inj hlater
        simpa using hfirst
      | cons batch' rest =>
        have hsame : batch.length =
            ((sortByKey index data).map embedding).length := by
          rw [List.length_map, (sortByKey_perm data).length_eq, hlength (by simp)]
        intro p hp
        rw [List.flatten_cons, List.zip_append hsame] at hp
        rcases List.mem_append.mp hp with hp | hp
        · exact hfirst p hp
        · obtain ⟨i, batch'', data', item, hi, hok, hrest⟩ := hzip p hp
          exact ⟨i + 1, batch'', data', item, hi, by rwa [Nat.add_assoc, Nat.add_comm 1] at hok, hrest⟩

theorem embedNativeBatches_returned {k : ℕ} {texts : List String} {es : List E}
    (h : embedNativeBatches server k texts = .ok es) :
    es.length = texts.length ∧
      ∀ p ∈ texts.zip es, ∃ i, texts[i]? = some p.1 ∧ server.native (k + i) p.1 = .ok p.2 := by
  induction texts generalizing k es with
  | nil =>
    obtain rfl := Except.ok.inj h
    exact ⟨rfl, nofun⟩
  | cons text rest ih =>
    obtain ⟨e, he, h⟩ := bind_eq_ok.mp h
    obtain ⟨later, hlater, h⟩ := bind_eq_ok.mp h
    obtain rfl := Except.ok.inj h
    obtain ⟨hlen, hzip⟩ := ih hlater
    refine ⟨by simp [hlen], ?_⟩
    intro p hp
    rcases List.mem_cons.mp hp with rfl | hp
    · exact ⟨0, rfl, he⟩
    · obtain ⟨i, hi, hok⟩ := hzip p hp
      exact ⟨i + 1, hi, by rwa [Nat.add_assoc, Nat.add_comm 1] at hok⟩

end Returned

theorem embedTexts_returned {E : Type} {server : EmbeddingServer E} {config : EmbeddingConfig}
    {texts : List String} {es : List E}
    (place : config.provider = .compat → server.InPlace 0 (batches config.batchSize texts.length texts))
    (h : embedTexts server config 0 texts = .ok es) :
    texts.length ≤ es.length ∧ ∀ p ∈ texts.zip es, server.Returned config texts p.1 p.2 := by
  unfold embedTexts at h
  unfold EmbeddingServer.Returned
  cases hprovider : config.provider with
  | compat =>
    rw [hprovider] at h
    have hall := embedCompatBatches_returned (place hprovider) h
    rwa [batches_flatten config.batchSize_pos le_rfl] at hall
  | native =>
    rw [hprovider] at h
    obtain ⟨hlen, hzip⟩ := embedNativeBatches_returned h
    refine ⟨hlen.ge, ?_⟩
    intro p hp
    obtain ⟨i, hi, hok⟩ := hzip p hp
    exact ⟨i, hi, by rwa [Nat.zero_add] at hok⟩

/-! ### The map of the stored chunks -/

section Stored

variable {E : Type} {stored : Stored E} {pairs : List (IndexChunk × E)}

theorem eligibleFrom_sublist (maxFiles : ℕ) (allowed : List String) (index : List IndexChunk) :
    (eligibleFrom maxFiles allowed index).Sublist index := by
  induction index generalizing allowed with
  | nil => exact .slnil
  | cons chunk rest ih =>
    rw [eligibleFrom]
    split
    · exact (ih allowed).cons chunk
    · exact (ih _).cons_cons chunk

theorem nodup_keys_storeAll (h : (keys stored).Nodup) : (keys (storeAll stored pairs)).Nodup := by
  induction pairs generalizing stored with
  | nil => exact h
  | cons pair rest ih => exact ih (nodup_keys_insertLast h _ _)

theorem find?_storeAll_of_notMem {k : String} (h : k ∉ pairs.map fun pair => chunkKey pair.1) :
    find? k (storeAll stored pairs) = find? k stored := by
  induction pairs generalizing stored with
  | nil => rfl
  | cons pair rest ih =>
    rw [List.map_cons, List.mem_cons, not_or] at h
    have hrest : find? k (storeAll stored (pair :: rest)) =
        find? k (insertLast (chunkKey pair.1) (storedChunk pair.1 pair.2) stored) := ih h.2
    rw [hrest, find?_insertLast, if_neg h.1]

theorem find?_storeAll_of_mem (nodup : (pairs.map fun pair => chunkKey pair.1).Nodup)
    {pair : IndexChunk × E} (h : pair ∈ pairs) :
    find? (chunkKey pair.1) (storeAll stored pairs) = some (storedChunk pair.1 pair.2) := by
  induction pairs generalizing stored with
  | nil => cases h
  | cons first rest ih =>
    rw [List.map_cons, List.nodup_cons] at nodup
    rcases List.mem_cons.mp h with rfl | h
    · have hrest : find? (chunkKey pair.1) (storeAll stored (pair :: rest)) =
          find? (chunkKey pair.1) (insertLast (chunkKey pair.1) (storedChunk pair.1 pair.2) stored) :=
        find?_storeAll_of_notMem nodup.1
      rw [hrest, find?_insertLast, if_pos rfl]
    · exact ih nodup.2 h

theorem exists_pairs {α β : Type} {P : α → β → Prop} {l : List α} (h : ∀ a ∈ l, ∃ b, P a b) :
    ∃ pairs : List (α × β), pairs.map Prod.fst = l ∧ ∀ pair ∈ pairs, P pair.1 pair.2 := by
  induction l with
  | nil => exact ⟨[], rfl, nofun⟩
  | cons a l ih =>
    obtain ⟨b, hb⟩ := h a List.mem_cons_self
    obtain ⟨pairs, rfl, hpairs⟩ := ih fun a ha => h a (List.mem_cons_of_mem _ ha)
    exact ⟨(a, b) :: pairs, rfl, List.forall_mem_cons.mpr ⟨hb, hpairs⟩⟩

/-- A map that has an entry of each chunk, and no other keys, lists these entries. -/
theorem stored_perm {chunks : List IndexChunk} {P : IndexChunk → E → Prop}
    (distinct : (chunks.map chunkKey).Nodup) (nodup : (keys stored).Nodup)
    (known : ∀ k ∈ keys stored, k ∈ chunks.map chunkKey)
    (has : ∀ chunk ∈ chunks, ∃ e, find? (chunkKey chunk) stored = some (storedChunk chunk e) ∧ P chunk e) :
    ∃ scored : List (IndexChunk × E), scored.map Prod.fst = chunks ∧ (∀ pair ∈ scored, P pair.1 pair.2) ∧
      (stored.map Prod.snd).Perm (scored.map fun pair => storedChunk pair.1 pair.2) := by
  obtain ⟨scored, rfl, hscored⟩ := exists_pairs has
  refine ⟨scored, rfl, fun pair hpair => (hscored pair hpair).2, ?_⟩
  let entry : IndexChunk × E → String × PersistedSemanticChunk E := fun pair =>
    (chunkKey pair.1, storedChunk pair.1 pair.2)
  have hentries : (scored.map entry).Nodup := by
    apply List.Nodup.of_map Prod.fst
    rw [List.map_map]
    rwa [List.map_map] at distinct
  have hperm : stored.Perm (scored.map entry) := by
    rw [List.perm_ext_iff_of_nodup (List.Nodup.of_map _ nodup) hentries]
    rintro ⟨k, kept⟩
    constructor
    · intro hmem
      have hk := known k (List.mem_map_of_mem hmem)
      rw [List.map_map] at hk
      obtain ⟨pair, hpair, rfl⟩ := List.mem_map.mp hk
      have hfind := (hscored pair hpair).1
      obtain rfl := Option.some.inj (hfind.symm.trans (find?_of_mem nodup hmem))
      exact List.mem_map_of_mem hpair
    · intro hmem
      obtain ⟨pair, hpair, heq⟩ := List.mem_map.mp hmem
      cases heq
      exact mem_of_find? (hscored pair hpair).1
  have hvalues := hperm.map Prod.snd
  rwa [List.map_map] at hvalues

end Stored

/-! ### Searches after one another -/

section Runs

variable {E S : Type} [LinearOrder S] (host : SearchHost E S)

def chunksOf (runs : List (SemanticSearch E S)) : List IndexChunk := runs.flatMap SemanticSearch.index

/-- One of the searches, with this model, has got the embedding for the text. -/
def EmbeddingOf (runs : List (SemanticSearch E S)) (provider model text : String) (e : E) : Prop :=
  ∃ before run, before ++ [run] <+: runs ∧ run.config.provider.asStr = provider ∧
    run.config.model = model ∧
    run.server.Returned run.config (run.missingTexts host (fileBehind host before)) text e

/-- The search, or one before it with its model, has got the embedding for the text of the chunk. -/
def SemanticSearch.Gives (run : SemanticSearch E S) (before : List (SemanticSearch E S))
    (chunk : IndexChunk) (e : E) : Prop :=
  EmbeddingOf host (before ++ [run]) run.config.provider.asStr run.config.model chunk.source e

/-- The entry is that of a chunk of the searches, with an embedding of the text that its hash is of. -/
def KeptFor (runs : List (SemanticSearch E S)) (provider model : String)
    (kept : PersistedSemanticChunk E) : Prop :=
  ∃ chunk ∈ chunksOf runs, storedChunk chunk kept.embedding = kept ∧
    EmbeddingOf host runs provider model chunk.source kept.embedding

def FileKept (runs : List (SemanticSearch E S)) (file : Option (PersistedSemanticIndex E)) : Prop :=
  ∀ index, file = some index → ∀ kept ∈ index.chunks, KeptFor host runs index.provider index.model kept

/-- The search compares an embedding of the query with one of each of its chunks, of the text that the
chunk has now. -/
def SemanticSearch.Scores (run : SemanticSearch E S) (before : List (SemanticSearch E S))
    (hits : List (SemanticChunkScore S)) : Prop :=
  run.eligibleChunks = [] ∧ hits = [] ∨
    ∃ (asked : List E) (query : E) (scored : List (IndexChunk × E)) (listed : List (PersistedSemanticChunk E)),
      embedTexts run.server run.config (run.requests host (fileBehind host before)) [run.query] =
        .ok asked ∧ asked.getLast? = some query ∧
      scored.map Prod.fst = run.eligibleChunks ∧
      (∀ pair ∈ scored, run.Gives host before pair.1 pair.2) ∧
      listed.Perm (scored.map fun pair => storedChunk pair.1 pair.2) ∧
      ∃ cap, run.cap host = some cap ∧ hits = rank cap (listed.filterMap (scoreOf host query))

/-- The answers to the search name the texts that it asks about, in their places, and the one about the
query is not empty. -/
def SemanticSearch.Answered (run : SemanticSearch E S) (file : Option (PersistedSemanticIndex E)) : Prop :=
  run.config.provider = .compat →
    run.server.InPlace 0 (batches run.config.batchSize (run.missingTexts host file).length
      (run.missingTexts host file)) ∧
    run.server.compat (run.requests host file) [run.query] ≠ .ok []

/-- No two chunks of one text have the same key and yet another path, place or name: a key joins them
with colons, which may be in a path or a name. -/
def Unambiguous (runs : List (SemanticSearch E S)) : Prop :=
  ∀ chunk ∈ chunksOf runs, ∀ chunk' ∈ chunksOf runs, chunkKey chunk = chunkKey chunk' →
    chunk.source = chunk'.source → chunk.key = chunk'.key

variable {host} {runs runs' before : List (SemanticSearch E S)} {run : SemanticSearch E S}
  {file : Option (PersistedSemanticIndex E)}

theorem EmbeddingOf.mono {provider model text : String} {e : E} (later : runs <+: runs')
    (h : EmbeddingOf host runs provider model text e) :
    EmbeddingOf host runs' provider model text e := by
  obtain ⟨before, run, hprefix, hrest⟩ := h
  exact ⟨before, run, hprefix.trans later, hrest⟩

omit [LinearOrder S] in
theorem chunksOf_mono (later : runs <+: runs') {chunk : IndexChunk} (h : chunk ∈ chunksOf runs) :
    chunk ∈ chunksOf runs' := by
  obtain ⟨run, hrun, hchunk⟩ := List.mem_flatMap.mp h
  exact List.mem_flatMap.mpr ⟨run, later.subset hrun, hchunk⟩

theorem FileKept.mono (later : runs <+: runs') (h : FileKept host runs file) :
    FileKept host runs' file := by
  intro index hindex kept hkept
  obtain ⟨chunk, hchunk, hstored, hof⟩ := h index hindex kept hkept
  exact ⟨chunk, chunksOf_mono later hchunk, hstored, hof.mono later⟩

omit [LinearOrder S] in
theorem loadIndex_spec (host : SearchHost E S) (config : EmbeddingConfig)
    (file : Option (PersistedSemanticIndex E)) :
    (loadIndex host config file).provider = config.provider.asStr ∧
      (loadIndex host config file).model = config.model ∧
      ∀ kept ∈ (loadIndex host config file).chunks, file = some (loadIndex host config file) := by
  unfold loadIndex
  split
  · exact ⟨rfl, rfl, nofun⟩
  rename_i parsed hparsed
  split
  · exact ⟨rfl, rfl, nofun⟩
  · rename_i hsame
    simp only [not_or, not_not] at hsame
    exact ⟨hsame.2.1, hsame.2.2, fun kept _ => (Option.filter_eq_some_iff.mp hparsed).1⟩

/-- What the search finds under a key was kept under it, for its own model. -/
theorem SemanticSearch.retained_kept (h : FileKept host before file) {k : String}
    {kept : PersistedSemanticChunk E} (hfind : find? k (run.retained host file) = some kept) :
    kept.chunkKey = k ∧ KeptFor host before run.config.provider.asStr run.config.model kept := by
  unfold SemanticSearch.retained at hfind
  rw [find?_filter (fun k => decide (k ∈ run.eligibleChunks.map chunkKey))] at hfind
  split at hfind
  · obtain ⟨kept', hkept, heq⟩ := List.mem_map.mp (mem_of_find?_collectMap hfind)
    cases heq
    obtain ⟨hprovider, hmodel, hfile⟩ := loadIndex_spec host run.config file
    have hof := h _ (hfile kept hkept) kept hkept
    rw [hprovider, hmodel] at hof
    exact ⟨rfl, hof⟩
  · cases hfind

/-- What a search does: it does not come to save anything, or it stores the answers. -/
theorem SemanticSearch.semanticSearch_spec {result : Except String (List (SemanticChunkScore S))}
    {file' : Option (PersistedSemanticIndex E)} (h : run.semanticSearch host file = (result, file')) :
    (file' = file ∧ ∀ hits, result = .ok hits → Text.isEmpty (Text.trim run.query) = false →
      run.eligibleChunks = [] ∧ hits = []) ∨
    ∃ es stored, embedTexts run.server run.config 0 (run.missingTexts host file) = .ok es ∧
      stored = storeAll (run.retained host file) ((run.missing host file).zip es) ∧
      (file' = file ∨ file' = some { loadIndex host run.config file with
        chunks := (stored.map Prod.snd).insertionSort fun left right => left.chunkKey ≤ right.chunkKey }) ∧
      ∀ hits, result = .ok hits → ∃ asked,
        embedTexts run.server run.config (run.requests host file) [run.query] = .ok asked ∧
        ∀ query, asked.getLast? = some query →
          ∃ cap, run.cap host = some cap ∧
            hits = rank cap ((run.order (stored.map Prod.snd)).filterMap (scoreOf host query)) := by
  unfold SemanticSearch.semanticSearch at h
  split at h
  · rename_i hnothing
    cases h
    refine .inl ⟨rfl, ?_⟩
    rintro hits ⟨⟩ hquery
    rw [hquery, Bool.false_or, List.isEmpty_iff] at hnothing
    exact ⟨by rw [SemanticSearch.eligibleChunks, hnothing, eligibleFrom], rfl⟩
  split at h
  · rename_i hnone
    cases h
    refine .inl ⟨rfl, ?_⟩
    rintro hits ⟨⟩ -
    exact ⟨List.isEmpty_iff.mp hnone, rfl⟩
  split at h
  · cases h
    exact .inl ⟨rfl, fun hits hok => by cases hok⟩
  split at h
  · cases h
    exact .inl ⟨rfl, fun hits hok => by cases hok⟩
  rename_i es hes
  refine .inr ⟨es, _, hes, rfl, ?_⟩
  dsimp only at h
  split at h
  · cases h
    exact ⟨.inl rfl, fun hits hok => by cases hok⟩
  rename_i saved hsave
  have hsaved : saved = file ∨ saved = some { loadIndex host run.config file with
      chunks := ((storeAll (run.retained host file) ((run.missing host file).zip es)).map
        Prod.snd).insertionSort fun left right => left.chunkKey ≤ right.chunkKey } := by
    unfold SemanticSearch.save at hsave
    split at hsave
    · split at hsave
      · cases hsave
      · exact .inr (Except.ok.inj hsave).symm
    · exact .inl (Except.ok.inj hsave).symm
  split at h
  · cases h
    exact ⟨hsaved, fun hits hok => by cases hok⟩
  rename_i asked hasked
  split at h
  · rename_i hlast
    cases h
    refine ⟨hsaved, ?_⟩
    rintro hits -
    exact ⟨asked, hasked, fun query hquery => by rw [hlast] at hquery; cases hquery⟩
  rename_i query hlast
  split at h
  · cases h
    exact ⟨hsaved, fun hits hok => by cases hok⟩
  · rename_i cap hcap
    cases h
    refine ⟨hsaved, ?_⟩
    rintro hits hok
    refine ⟨asked, hasked, ?_⟩
    intro query' hquery'
    obtain rfl := Option.some.inj (hlast.symm.trans hquery')
    exact ⟨cap, hcap, (Except.ok.inj hok).symm⟩

/-- The runs so far, with the assumptions on their chunks. -/
structure Sound (runs : List (SemanticSearch E S)) : Prop where
  distinct : ∀ run ∈ runs, (run.index.map chunkKey).Nodup
  injective : ∀ chunk ∈ chunksOf runs, ∀ chunk' ∈ chunksOf runs,
    sourceHash chunk.source = sourceHash chunk'.source → chunk.source = chunk'.source
  unambiguous : Unambiguous runs

/-- An entry with the key and the hash of a chunk is the one that a search would store for the chunk. -/
theorem KeptFor.current (sound : Sound (before ++ [run])) {kept : PersistedSemanticChunk E}
    (h : KeptFor host before run.config.provider.asStr run.config.model kept)
    {chunk : IndexChunk} (hchunk : chunk ∈ run.index) (hkey : kept.chunkKey = chunkKey chunk)
    (hhash : kept.contentHash = sourceHash chunk.source) :
    kept = storedChunk chunk kept.embedding ∧ run.Gives host before chunk kept.embedding := by
  obtain ⟨chunk', hchunk', hstored, hof⟩ := h
  have hmem : chunk ∈ chunksOf (before ++ [run]) := List.mem_flatMap.mpr ⟨run, by simp, hchunk⟩
  have hmem' := chunksOf_mono (List.prefix_append before [run]) hchunk'
  rw [← hstored] at hkey hhash
  have hsource := sound.injective chunk' hmem' chunk hmem hhash
  have hnames := sound.unambiguous chunk' hmem' chunk hmem hkey hsource
  simp only [IndexChunk.key, Prod.mk.injEq] at hnames
  obtain ⟨hpath, hstart, hend, hname⟩ := hnames
  rw [hsource] at hof
  refine ⟨?_, hof.mono (List.prefix_append before [run])⟩
  rw [← hstored]
  simp only [storedChunk, chunkKey, hpath, hstart, hend, hname, hsource]

/-- After a search has stored the answers, each of its chunks has its own entry. -/
theorem SemanticSearch.stored_scored (sound : Sound (before ++ [run])) (hfile : fileBehind host before = file)
    (answered : run.Answered host file) (kept : FileKept host before file) {es : List E}
    (hes : embedTexts run.server run.config 0 (run.missingTexts host file) = .ok es) :
    ∃ scored : List (IndexChunk × E), scored.map Prod.fst = run.eligibleChunks ∧
      (∀ pair ∈ scored, run.Gives host before pair.1 pair.2) ∧
      ((storeAll (run.retained host file) ((run.missing host file).zip es)).map Prod.snd).Perm
        (scored.map fun pair => storedChunk pair.1 pair.2) := by
  have hsub : run.eligibleChunks.Sublist run.index := eligibleFrom_sublist _ _ _
  have distinct : (run.eligibleChunks.map chunkKey).Nodup :=
    (sound.distinct run (by simp)).sublist (hsub.map chunkKey)
  obtain ⟨hlen, hzip⟩ := embedTexts_returned (fun hprovider => (answered hprovider).1) hes
  rw [SemanticSearch.missingTexts, List.length_map] at hlen
  have hfst : ((run.missing host file).zip es).map Prod.fst = run.missing host file :=
    List.map_fst_zip hlen
  have hkeys : ((run.missing host file).zip es).map (fun pair => chunkKey pair.1) =
      (run.missing host file).map chunkKey := by
    calc ((run.missing host file).zip es).map (fun pair => chunkKey pair.1)
        = (((run.missing host file).zip es).map Prod.fst).map chunkKey := by rw [List.map_map]; rfl
      _ = (run.missing host file).map chunkKey := by rw [hfst]
  have hmissing : (run.missing host file).Sublist run.eligibleChunks := List.filter_sublist
  have hpairs : (((run.missing host file).zip es).map fun pair => chunkKey pair.1).Nodup := by
    rw [hkeys]
    exact distinct.sublist (hmissing.map chunkKey)
  refine stored_perm (P := run.Gives host before) distinct (nodup_keys_storeAll ?_) ?_ ?_
  · exact (collectMap_keys _).1.sublist (List.filter_sublist.map Prod.fst)
  · intro k hk
    by_cases hpair : k ∈ ((run.missing host file).zip es).map fun pair => chunkKey pair.1
    · rw [hkeys] at hpair
      exact (hmissing.map chunkKey).subset hpair
    · rw [mem_keys_iff_find?, find?_storeAll_of_notMem hpair, ← mem_keys_iff_find?] at hk
      obtain ⟨entry, hentry, rfl⟩ := List.mem_map.mp hk
      simpa using (List.mem_filter.mp hentry).2
  · intro chunk hchunk
    by_cases hstale : chunk ∈ run.missing host file
    · rw [← hfst] at hstale
      obtain ⟨pair, hpair, rfl⟩ := List.mem_map.mp hstale
      refine ⟨pair.2, find?_storeAll_of_mem hpairs hpair, before, run, List.prefix_rfl, rfl, rfl, ?_⟩
      rw [hfile]
      refine hzip (pair.1.source, pair.2) ?_
      rw [SemanticSearch.missingTexts, List.zip_map_left]
      exact List.mem_map_of_mem (f := Prod.map IndexChunk.source id) hpair
    · have hother : chunkKey chunk ∉ ((run.missing host file).zip es).map fun pair => chunkKey pair.1 := by
        rw [hkeys]
        intro hmem
        obtain ⟨chunk', hchunk', hsame⟩ := List.mem_map.mp hmem
        obtain rfl := List.inj_on_of_nodup_map distinct (hmissing.subset hchunk') hchunk hsame
        exact hstale hchunk'
      have hfresh : isStale (run.retained host file) chunk = false := by
        by_contra hnot
        exact hstale (List.mem_filter.mpr ⟨hchunk, by simpa using hnot⟩)
      unfold isStale at hfresh
      split at hfresh
      · cases hfresh
      · rename_i known hknown
        obtain ⟨hkey, hof⟩ := SemanticSearch.retained_kept kept hknown
        obtain ⟨heq, hcurrent⟩ := hof.current sound (hsub.subset hchunk) hkey (by simpa using hfresh)
        exact ⟨known.embedding, by rw [find?_storeAll_of_notMem hother, hknown, ← heq], hcurrent⟩

omit [LinearOrder S] in
theorem SemanticSearch.Answered.query_answered (answered : run.Answered host file) {asked : List E}
    (h : embedTexts run.server run.config (run.requests host file) [run.query] = .ok asked) : asked ≠ [] := by
  rintro rfl
  unfold embedTexts at h
  split at h
  · rename_i hprovider
    have hone : batches run.config.batchSize [run.query].length [run.query] = [[run.query]] := by
      have htake := List.take_of_length_le (l := [run.query]) run.config.batchSize_pos
      rw [List.length_singleton, batches, htake, batches]
    rw [hone, embedCompatBatches] at h
    obtain ⟨data, hdata, h⟩ := bind_eq_ok.mp h
    obtain ⟨later, -, h⟩ := bind_eq_ok.mp h
    have hnone := (List.append_eq_nil_iff.mp (Except.ok.inj h)).1
    rw [List.map_eq_nil_iff] at hnone
    have hempty : (sortByKey CompatEmbeddingItem.index data).Perm data := sortByKey_perm data
    rw [hnone] at hempty
    exact (answered hprovider).2 (by rw [hdata, hempty.nil_eq])
  · obtain ⟨hlen, -⟩ := embedNativeBatches_returned h
    cases hlen

/-- One search keeps the file right and scores its own chunks. -/
theorem FileKept.step (sound : Sound (before ++ [run]))
    (answered : run.Answered host (fileBehind host before))
    (kept : FileKept host before (fileBehind host before)) :
    FileKept host (before ++ [run]) (run.semanticSearch host (fileBehind host before)).2 ∧
      ∀ hits, (run.semanticSearch host (fileBehind host before)).1 = .ok hits →
        Text.isEmpty (Text.trim run.query) = false → run.Scores host before hits := by
  have hsame : FileKept host (before ++ [run]) (fileBehind host before) :=
    kept.mono (List.prefix_append before [run])
  generalize hrun : run.semanticSearch host (fileBehind host before) = out
  obtain ⟨result, file'⟩ := out
  rcases SemanticSearch.semanticSearch_spec hrun with ⟨rfl, hhits⟩ | ⟨es, stored, hes, rfl, hfile, hhits⟩
  · exact ⟨hsame, fun hits hok hquery => .inl (hhits hits hok hquery)⟩
  obtain ⟨scored, hscored, hof, hperm⟩ := SemanticSearch.stored_scored sound rfl answered kept hes
  constructor
  · rcases hfile with rfl | rfl
    · exact hsame
    · rintro index ⟨⟩ entry hentry
      obtain ⟨hprovider, hmodel, -⟩ := loadIndex_spec host run.config (fileBehind host before)
      rw [(List.perm_insertionSort _ _).mem_iff, hperm.mem_iff] at hentry
      obtain ⟨pair, hpair, rfl⟩ := List.mem_map.mp hentry
      have hchunk : pair.1 ∈ run.eligibleChunks := by
        rw [← hscored]
        exact List.mem_map_of_mem hpair
      refine ⟨pair.1, List.mem_flatMap.mpr ⟨run, by simp, (eligibleFrom_sublist _ _ _).subset hchunk⟩, rfl, ?_⟩
      rw [hprovider, hmodel]
      exact hof pair hpair
  · intro hits hok _
    obtain ⟨asked, hasked, hranked⟩ := hhits hits hok
    have hlast := List.getLast?_eq_some_getLast (answered.query_answered hasked)
    exact .inr ⟨asked, _, scored, _, hasked, hlast, hscored, hof, (run.order_perm _).trans hperm,
      hranked _ hlast⟩

omit [LinearOrder S] in
theorem Sound.mono (later : runs <+: runs') (h : Sound runs') : Sound runs where
  distinct run hrun := h.distinct run (later.subset hrun)
  injective chunk hchunk chunk' hchunk' :=
    h.injective chunk (chunksOf_mono later hchunk) chunk' (chunksOf_mono later hchunk')
  unambiguous chunk hchunk chunk' hchunk' :=
    h.unambiguous chunk (chunksOf_mono later hchunk) chunk' (chunksOf_mono later hchunk')

/-- Over searches whose batches are all answered in their places, the file keeps for each chunk what the
server returned for its text, and each search scores the chunks of its own index. -/
theorem semantic_index_integrity (distinct : ∀ run ∈ runs, (run.index.map chunkKey).Nodup)
    (injective : ∀ chunk ∈ chunksOf runs, ∀ chunk' ∈ chunksOf runs,
      sourceHash chunk.source = sourceHash chunk'.source → chunk.source = chunk'.source)
    (unambiguous : Unambiguous runs) (answered : ∀ before run, before ++ [run] <+: runs →
      run.Answered host (fileBehind host before)) :
    (∀ before, before <+: runs → FileKept host before (fileBehind host before)) ∧
      ∀ before run hits, before ++ [run] <+: runs → Text.isEmpty (Text.trim run.query) = false →
        (run.semanticSearch host (fileBehind host before)).1 = .ok hits →
        run.Scores host before hits := by
  have sound : Sound runs := ⟨distinct, injective, unambiguous⟩
  have hkept : ∀ before, before <+: runs → FileKept host before (fileBehind host before) := by
    intro before
    induction before using List.reverseRecOn with
    | nil =>
      intro _ index hindex
      cases hindex
    | append_singleton before run ih =>
      intro hprefix
      have hbehind : fileBehind host (before ++ [run]) =
          (run.semanticSearch host (fileBehind host before)).2 := by
        rw [fileBehind, List.foldl_append]
        rfl
      rw [hbehind]
      exact (FileKept.step (sound.mono hprefix) (answered before run hprefix)
        (ih ((List.prefix_append before [run]).trans hprefix))).1
  refine ⟨hkept, ?_⟩
  intro before run hits hprefix hquery hok
  exact (FileKept.step (sound.mono hprefix) (answered before run hprefix)
    (hkept before ((List.prefix_append before [run]).trans hprefix))).2 hits hok hquery

end Runs

/-! ### Two samples -/

def productHost : SearchHost ℕ ℕ where
  reads _ := true
  cosine left right := some (left * right)
  overflowChecks := true

def lengthServer : EmbeddingServer ℕ where
  compat _ texts := .ok (texts.zipIdx.map fun entry => ⟨entry.1.length, entry.2⟩)
  native _ text := .ok text.length

def shortServer : EmbeddingServer ℕ where
  compat k texts := match k with
    | 0 => .ok ((texts.zipIdx.map fun entry => ⟨entry.1.length, entry.2⟩).filter fun item => item.index = 1)
    | _ => lengthServer.compat k texts
  native := lengthServer.native

def sampleChunk (name source : String) : IndexChunk where
  path := "src/lib.rs"
  startLine := 1
  endLine := 2
  kind := .function
  name := name
  parentScope := none
  source := source

def sampleSearch (server : EmbeddingServer ℕ) (first : String) : SemanticSearch ℕ ℕ where
  index := [sampleChunk "a" first, sampleChunk "b" "fn b() { a() }"]
  query := "calls"
  config := ⟨.compat, "embed", 2, by decide⟩
  maxResults := none
  maxFiles := none
  server := server
  readError := none
  saveError := none
  order := id
  order_perm := fun _ => .rfl

theorem lengthServer_inPlace (k : ℕ) (asked : List (List String)) : lengthServer.InPlace k asked := by
  intro i batch data _ hdata
  obtain rfl := Except.ok.inj hdata
  have hindex : (batch.zipIdx.map fun entry =>
      (⟨entry.1.length, entry.2⟩ : CompatEmbeddingItem ℕ)).map index =
        List.range batch.length := by
    rw [List.map_map, List.range_eq_range']
    exact List.zipIdx_map_snd 0 batch
  have hsorted : (batch.zipIdx.map fun entry =>
      (⟨entry.1.length, entry.2⟩ : CompatEmbeddingItem ℕ)).Pairwise fun a b => a.index ≤ b.index := by
    rw [← List.pairwise_map (f := index) (R := (· ≤ ·)), hindex]
    exact List.pairwise_le_range
  constructor
  · rw [sortByKey_of_sorted hsorted]
    exact hindex ▸ List.prefix_rfl
  · simp

theorem semantic_index_integrity_sample :
    let runs := [sampleSearch lengthServer "fn a() {}", sampleSearch lengthServer "fn a() { b() }"]
    (∀ before, before <+: runs → FileKept productHost before (fileBehind productHost before)) ∧
      ∀ before run hits, before ++ [run] <+: runs → Text.isEmpty (Text.trim run.query) = false →
        (run.semanticSearch productHost (fileBehind productHost before)).1 = .ok hits →
        run.Scores productHost before hits := by
  intro runs
  refine semantic_index_integrity (by decide +kernel) (by decide +kernel) ?_ ?_
  · unfold Unambiguous
    decide +kernel
  · intro before run hprefix
    have hserver : run.server = lengthServer := by
      have hrun : run ∈ runs := hprefix.subset (by simp)
      simp only [runs, List.mem_cons, List.not_mem_nil, or_false] at hrun
      rcases hrun with rfl | rfl <;> rfl
    intro _
    rw [hserver]
    exact ⟨lengthServer_inPlace _ _, by simp [lengthServer]⟩

/-- One short answer: the first chunk keeps the embedding of the second one's text. -/
theorem semantic_index_shifted :
    let runs := [sampleSearch shortServer "fn a() {}"]
    ((∀ run ∈ runs, (run.index.map chunkKey).Nodup) ∧
      (∀ chunk ∈ chunksOf runs, ∀ chunk' ∈ chunksOf runs,
        sourceHash chunk.source = sourceHash chunk'.source → chunk.source = chunk'.source) ∧
      Unambiguous runs) ∧
    ¬ FileKept productHost runs (fileBehind productHost runs) := by
  intro runs
  refine ⟨⟨by decide +kernel, by decide +kernel, by unfold Unambiguous; decide +kernel⟩, ?_⟩
  intro h
  have hfile : fileBehind productHost runs =
      some ⟨1, "compat", "embed", [storedChunk (sampleChunk "a" "fn a() {}") 14]⟩ := by decide +kernel
  obtain ⟨chunk, hchunk, hstored, before, run, hprefix, -, -, hreturned⟩ :=
    h _ hfile _ (List.mem_singleton_self _)
  have hlength := hprefix.length_le
  obtain rfl : before = [] := by
    rw [List.length_append, List.length_singleton] at hlength
    exact List.eq_nil_of_length_eq_zero (Nat.le_zero.mp (Nat.le_of_succ_le_succ hlength))
  obtain rfl := (List.cons_prefix_cons.mp hprefix).1
  obtain ⟨i, batch, data, item, hbatch, hdata, hitem, hnamed, -⟩ := hreturned
  have hasked : batches 2 ((sampleSearch shortServer "fn a() {}").missingTexts productHost none).length
      ((sampleSearch shortServer "fn a() {}").missingTexts productHost none) =
        [["fn a() {}", "fn b() { a() }"]] := by decide +kernel
  obtain ⟨rfl, rfl⟩ : i = 0 ∧ ["fn a() {}", "fn b() { a() }"] = batch := by
    have hat : [["fn a() {}", "fn b() { a() }"]][i]? = some batch := hasked ▸ hbatch
    cases i with
    | zero => exact ⟨rfl, Option.some.inj hat⟩
    | succ i => cases hat
  obtain rfl := Except.ok.inj hdata
  have hindex : item.index = 1 := by simpa using (List.mem_filter.mp hitem).2
  rw [hindex] at hnamed
  have hsource : chunk.source = "fn b() { a() }" := (Option.some.inj hnamed).symm
  have hhash := congrArg PersistedSemanticChunk.contentHash hstored
  exact absurd (hsource ▸ hhash : sourceHash "fn b() { a() }" = sourceHash "fn a() {}") (by decide +kernel)

end Vexcoder.Tools
