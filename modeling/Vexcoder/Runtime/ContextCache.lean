import Vexcoder.Tools.FileEffects
import Vexcoder.Lib.CountedStore

/-!
# The context cache

`read_cached_file` takes the fingerprint of a file, looks for a content that is stored under it, and when
there is none reads the file and stores what it has read.  The steps of one call after the other meet
changes of the files here, at any moment.

A content is stored under the fingerprint that the file had before it was read.  When the file has
changed in between, the entry is of no use and does no harm, since no change gives a fingerprint back
(`coherent`).
-/

namespace Vexcoder.Tools.ToolOperator

open Lib.Files
open Lib.Files.FileSystem (Plain)

variable (op : ToolOperator) (fs : FileSystem) (path : String)

def existingPath : Except ToolError (Option Plain) :=
  match op.resolvePath fs path with
  | .error e => .error e
  | .ok resolved => .ok (if fs.exists? resolved then some resolved else none)

def readFile : Except ToolError String :=
  match op.resolvePath fs path with
  | .error e => .error e
  | .ok resolved =>
    if fs.isDir resolved then .error (directoryError "read_file" path)
    else
      match readToString fs resolved with
      | .error e => .error (.context "Failed to read file" e)
      | .ok content => .ok content

variable {op fs path}

theorem existingPath_named {resolved : Plain} (h : op.existingPath fs path = .ok (some resolved)) :
    resolved = op.named path := by
  rw [existingPath] at h
  split at h
  · cases h
  rename_i found hfound
  split at h
  · cases h
    exact resolvePath_named hfound
  · cases h

theorem readFile_read {content : String} (h : op.readFile fs path = .ok content) :
    readToString fs (op.named path) = .ok content := by
  rw [readFile] at h
  split at h
  · cases h
  rename_i found hfound
  obtain rfl := resolvePath_named hfound
  split at h
  · cases h
  · split at h
    · cases h
    · cases h
      assumption

end Vexcoder.Tools.ToolOperator

namespace Vexcoder.Runtime

open Base Tools Lib.Assoc Lib.CountedStore
open Lib.Files
open Lib.Files.FileSystem (Plain)

def maxCacheEntries : ℕ := 64

def maxCacheTotalBytes : ℕ := 2 * 1024 * 1024

def maxCacheFileBytes : ℕ := 64 * 1024

structure CachedFileRead where
  content : String
  cacheHit : Bool

namespace ContextCache

structure FileFingerprint where
  len : ℕ
  modified : ℤ
  deriving DecidableEq

structure CacheEntry where
  content : String
  fingerprint : FileFingerprint
  lastAccess : ℕ

def CacheEntry.size (entry : CacheEntry) : ℕ := byteLen entry.content.toList

end ContextCache

open ContextCache

/-- The entries with `total_bytes`, and the clock of the accesses. -/
structure ContextCache where
  store : Store Plain CacheEntry := {}
  nextAccess : ℕ := 0

namespace ContextCache

def limits : Limits := ⟨maxCacheEntries, maxCacheTotalBytes⟩

def nextAccessTick (cache : ContextCache) : ContextCache :=
  { cache with nextAccess := min (cache.nextAccess + 1) (2 ^ 64 - 1) }

def evictToFit (order : Lib.CountedStore.HashOrder Plain CacheEntry) (cache : ContextCache) :
    ContextCache :=
  { cache with
    store := cache.store.evictToFit CacheEntry.size CacheEntry.lastAccess limits order }

def tryReadFromCache (path : Plain) (fingerprint : FileFingerprint) (cache : ContextCache) :
    ContextCache × Option String :=
  match (find? path cache.store.entries).filter fun entry => entry.fingerprint = fingerprint with
  | none => ({ cache with store := cache.store.remove CacheEntry.size path }, none)
  | some entry =>
    let cache := cache.nextAccessTick
    ({ cache with
        store := cache.store.update path { entry with lastAccess := cache.nextAccess } },
      some entry.content)

/-- `insert_into_cache` up to the eviction. -/
def stored (path : Plain) (fingerprint : FileFingerprint) (content : String)
    (cache : ContextCache) : ContextCache :=
  let cache := { cache with store := cache.store.remove CacheEntry.size path }.nextAccessTick
  { cache with
    store := cache.store.add CacheEntry.size (2 ^ 64 - 1) path
      { content, fingerprint, lastAccess := cache.nextAccess } }

def insertIntoCache (order : Lib.CountedStore.HashOrder Plain CacheEntry) (path : Plain)
    (fingerprint : FileFingerprint) (content : String) (cache : ContextCache) : ContextCache :=
  (cache.stored path fingerprint content).evictToFit order

end ContextCache

namespace ContextCache

/-! ### Calls and changes -/

/-- How far the call in progress has come; the last one is what it returned. -/
inductive Phase where
  | idle
  | found (op : ToolOperator) (path : String) (resolved : Plain)
  | checked (op : ToolOperator) (path : String) (resolved : Plain)
  | stamped (op : ToolOperator) (path : String) (resolved : Plain) (fingerprint : FileFingerprint)
  | missed (op : ToolOperator) (path : String) (resolved : Plain) (fingerprint : FileFingerprint)
  | loaded (resolved : Plain) (fingerprint : FileFingerprint) (content : String)
  | uncached (op : ToolOperator) (path : String)
  | returned (result : Except ToolError CachedFileRead)

/-- The process and the disk.  `accessed` lists the paths in the order in which the cache has used them,
the last one first; no step reads it. -/
structure World where
  cache : ContextCache := {}
  phase : Phase := .idle
  files : FileSystem
  metadata : Plain → Option FileFingerprint
  accessed : List Plain := []

/-- The steps of a call, and a change of the files; `refused` is an error of the system. -/
inductive Event where
  | call (op : ToolOperator) (path : String)
  | checkDir
  | fingerprint
  | lookup
  | read (refused : Option ToolError)
  | insert (order : Lib.CountedStore.HashOrder Plain CacheEntry)
  | change (files : FileSystem) (metadata : Plain → Option FileFingerprint)

/-- `read_file` of the operator.  A file that is too long for a `String` is refused by the system. -/
def load (files : FileSystem) (op : ToolOperator) (path : String) (refused : Option ToolError) :
    Option (Except ToolError String) :=
  match refused with
  | some error => some (.error error)
  | none =>
    match op.readFile files path with
    | .error error => some (.error error)
    | .ok content => if byteLen content.toList < 2 ^ 63 then some (.ok content) else none

/-- What follows `existing_path`. -/
def Phase.resolve (op : ToolOperator) (path : String) : Except ToolError (Option Plain) → Phase
  | .error error => .returned (.error error)
  | .ok none => .uncached op path
  | .ok (some resolved) => .found op path resolved

/-- What follows the fingerprint. -/
def Phase.stamp (op : ToolOperator) (path : String) (resolved : Plain) : Option FileFingerprint → Phase
  | none => .uncached op path
  | some fingerprint =>
    if maxCacheFileBytes < fingerprint.len then .uncached op path
    else .stamped op path resolved fingerprint

def World.mayCall (world : World) : Bool :=
  match world.phase with
  | .idle | .returned _ => true
  | _ => false

def step (world : World) : Event → Option World
  | .call op path =>
    if world.mayCall then
      some { world with phase := .resolve op path (op.existingPath world.files path) }
    else none
  | .checkDir =>
    match world.phase with
    | .found op path resolved =>
      some { world with
        phase := if world.files.isDir resolved then .uncached op path else .checked op path resolved }
    | _ => none
  | .fingerprint =>
    match world.phase with
    | .checked op path resolved =>
      some { world with phase := .stamp op path resolved (world.metadata resolved) }
    | _ => none
  | .lookup =>
    match world.phase with
    | .stamped op path resolved fingerprint =>
      match world.cache.tryReadFromCache resolved fingerprint with
      | (cache, some content) =>
        some { world with
          cache
          phase := .returned (.ok ⟨content, true⟩)
          accessed := resolved :: world.accessed }
      | (cache, none) => some { world with cache, phase := .missed op path resolved fingerprint }
    | _ => none
  | .read refused =>
    match world.phase with
    | .missed op path resolved fingerprint =>
      (load world.files op path refused).map fun result =>
        match result with
        | .error error => { world with phase := .returned (.error error) }
        | .ok content => { world with phase := .loaded resolved fingerprint content }
    | .uncached op path =>
      (load world.files op path refused).map fun result =>
        { world with phase := .returned (result.map fun content => ⟨content, false⟩) }
    | _ => none
  | .insert order =>
    match world.phase with
    | .loaded resolved fingerprint content =>
      some { world with
        cache := world.cache.insertIntoCache order resolved fingerprint content
        phase := .returned (.ok ⟨content, false⟩)
        accessed := resolved :: world.accessed }
    | _ => none
  | .change files metadata => some { world with files, metadata }

def run (world : World) (events : List Event) : Option World := events.foldlM step world

/-- What every path has had for a fingerprint. -/
abbrev History := Plain → FileFingerprint → Prop

/-- What a change leaves as it was, and a fingerprint that the path never had for all else. -/
def FreshChange (history : History) (world : World) (files : FileSystem)
    (metadata : Plain → Option FileFingerprint) : Prop :=
  ∀ path, readToString files path = readToString world.files path ∧ metadata path = world.metadata path ∨
    ∀ fingerprint, metadata path = some fingerprint → ¬ history path fingerprint

/-- What a step may do to the fingerprints. -/
def Fresh (history : History) (world : World) : Event → Prop
  | .change files metadata => FreshChange history world files metadata
  | _ => True

def History.after (history : History) : Event → History
  | .change _ metadata => fun path fingerprint =>
    history path fingerprint ∨ metadata path = some fingerprint
  | _ => history

def FreshRun : History → World → List Event → Prop
  | _, _, [] => True
  | history, world, event :: events =>
    Fresh history world event ∧
      ∀ next, step world event = some next → FreshRun (history.after event) next events

/-! ### What the cache owes -/

/-- `victim` has the oldest access: its tick is the least, and as long as the clock has not stood still,
no path that was used later goes before it. -/
def OldestAccess (accessed : List Plain) (victim entry : Plain × CacheEntry) : Prop :=
  victim.2.lastAccess ≤ entry.2.lastAccess ∧
    (accessed.length < 2 ^ 64 → accessed.idxOf entry.1 ≤ accessed.idxOf victim.1)

/-- What holds in a run of `events` from `first`. -/
structure Coherent (first : World) (events : List Event) : Prop where
  totals : ∀ front behind between, events = front ++ behind → run first front = some between →
    between.cache.store.total = sumSizes CacheEntry.size between.cache.store.entries
  limits : ∀ front behind between, events = front ++ behind → run first front = some between →
    between.cache.store.entries.length ≤ maxCacheEntries ∧ between.cache.store.total ≤ maxCacheTotalBytes
  evictions : ∀ front order behind before after,
    events = front ++ .insert order :: behind → run first front = some before →
      step before (.insert order) = some after →
        ∃ resolved fingerprint content victims,
          before.phase = .loaded resolved fingerprint content ∧
            Store.Evicts CacheEntry.size ContextCache.limits (OldestAccess after.accessed)
              (before.cache.stored resolved fingerprint content).store victims after.cache.store
  hits : ∀ front middle behind before stamped looking after content,
    events = front ++ .fingerprint :: (middle ++ .lookup :: behind) →
      run first front = some before → step before .fingerprint = some stamped →
        run stamped middle = some looking → .fingerprint ∉ middle →
          step looking .lookup = some after → after.phase = .returned (.ok ⟨content, true⟩) →
            ∃ op path resolved, before.phase = .checked op path resolved ∧
              readToString before.files resolved = .ok content

/-! ### The invariant -/

variable {cache : ContextCache} {history : History} {world next : World} {event : Event}
  {accessed : List Plain} {path : Plain} {fingerprint : FileFingerprint} {content : String}

structure Bounded (cache : ContextCache) : Prop where
  counts : Store.Counts CacheEntry.size cache.store
  fits : ¬ Store.Over limits cache.store

/-- The tick of an entry is the number of its last access. -/
structure Clocked (accessed : List Plain) (cache : ContextCache) : Prop where
  clock : cache.nextAccess = min accessed.length (2 ^ 64 - 1)
  ticks : ∀ path entry, find? path cache.store.entries = some entry →
    path ∈ accessed ∧ entry.lastAccess = min (accessed.length - accessed.idxOf path) (2 ^ 64 - 1)

/-- A content that is stored under a fingerprint is that of the file while the file has it. -/
def Honest (history : History) (world : World) (path : Plain) (fingerprint : FileFingerprint)
    (content : String) : Prop :=
  history path fingerprint ∧
    (world.metadata path = some fingerprint → readToString world.files path = .ok content)

def Phase.Known (history : History) (world : World) : Phase → Prop
  | .found op path resolved | .checked op path resolved => resolved = op.named path
  | .stamped op path resolved fingerprint | .missed op path resolved fingerprint =>
    resolved = op.named path ∧ history resolved fingerprint
  | .loaded resolved fingerprint content =>
    byteLen content.toList < 2 ^ 63 ∧ Honest history world resolved fingerprint content
  | .idle | .uncached _ _ | .returned _ => True

structure Inv (history : History) (world : World) : Prop where
  bounded : Bounded world.cache
  clocked : Clocked world.accessed world.cache
  current : ∀ path fingerprint, world.metadata path = some fingerprint → history path fingerprint
  entries : ∀ path entry, find? path world.cache.store.entries = some entry →
    Honest history world path entry.fingerprint entry.content
  phase : world.phase.Known history world

/-! ### The operations of the cache -/

variable (cache) in
def dropped (path : Plain) : ContextCache :=
  { cache with store := cache.store.remove CacheEntry.size path }

variable (cache) in
/-- The cache behind a lookup that has found `entry`. -/
def touched (path : Plain) (entry : CacheEntry) : ContextCache :=
  { cache.nextAccessTick with
    store := cache.store.update path { entry with lastAccess := cache.nextAccessTick.nextAccess } }

theorem tryRead_cases (cache : ContextCache) (path : Plain) (fingerprint : FileFingerprint) :
    (∃ entry, find? path cache.store.entries = some entry ∧ entry.fingerprint = fingerprint ∧
      cache.tryReadFromCache path fingerprint = (cache.touched path entry, some entry.content)) ∨
    cache.tryReadFromCache path fingerprint = (cache.dropped path, none) := by
  rw [tryReadFromCache]
  split
  · exact .inr rfl
  · rename_i entry hentry
    obtain ⟨hfind, hsame⟩ := Option.filter_eq_some_iff.mp hentry
    exact .inl ⟨entry, hfind, of_decide_eq_true hsame, rfl⟩

theorem find?_touched (other : Plain) (entry : CacheEntry) :
    find? other (cache.touched path entry).store.entries =
      if other = path then
        some { entry with lastAccess := cache.nextAccessTick.nextAccess }
      else find? other cache.store.entries :=
  find?_insertLast path other _ cache.store.entries

theorem find?_dropped (other : Plain) :
    find? other (cache.dropped path).store.entries =
      if other = path then none else find? other cache.store.entries :=
  Store.find?_remove path other cache.store

theorem find?_stored (other : Plain) :
    find? other (cache.stored path fingerprint content).store.entries =
      if other = path then
        some { content, fingerprint, lastAccess := cache.nextAccessTick.nextAccess }
      else find? other cache.store.entries := by
  have hinsert := find?_insertLast path other
    ({ content, fingerprint, lastAccess := cache.nextAccessTick.nextAccess } : CacheEntry)
    (cache.dropped path).store.entries
  refine hinsert.trans ?_
  rw [find?_dropped]
  split <;> rfl

theorem Bounded.dropped (h : Bounded cache) (path : Plain) : Bounded (cache.dropped path) :=
  ⟨h.counts.remove path, Store.not_over_remove h.fits path⟩

theorem Bounded.touched (h : Bounded cache) {entry : CacheEntry}
    (hfind : find? path cache.store.entries = some entry) : Bounded (cache.touched path entry) :=
  ⟨h.counts.update hfind rfl, Store.not_over_update h.fits hfind⟩

theorem Bounded.stored (h : Bounded cache) (path : Plain) (fingerprint : FileFingerprint)
    (hlen : byteLen content.toList < 2 ^ 63) :
    Store.Counts CacheEntry.size (cache.stored path fingerprint content).store := by
  have hfits : ¬ Store.Over limits (cache.store.remove CacheEntry.size path) :=
    Store.not_over_remove h.fits path
  rw [Store.Over, not_or] at hfits
  have htotal : ¬ maxCacheTotalBytes < (cache.store.remove CacheEntry.size path).total := hfits.2
  refine (h.counts.remove path).add ?_ ?_
  · rw [← find?_eq_none_iff, Store.find?_remove, if_pos rfl]
  · show (cache.store.remove CacheEntry.size path).total + byteLen content.toList ≤ 2 ^ 64 - 1
    rw [maxCacheTotalBytes] at htotal
    omega

theorem clock_tick (h : Clocked accessed cache) (path : Plain) :
    cache.nextAccessTick.nextAccess = min (path :: accessed).length (2 ^ 64 - 1) := by
  have hclock := h.clock
  rw [List.length_cons]
  show min (cache.nextAccess + 1) (2 ^ 64 - 1) = _
  omega

theorem Clocked.access (h : Clocked accessed cache) {after : ContextCache} {self : CacheEntry}
    (hclock : after.nextAccess = cache.nextAccessTick.nextAccess)
    (hself : self.lastAccess = after.nextAccess)
    (hafter : ∀ other, find? other after.store.entries =
      if other = path then some self else find? other cache.store.entries) :
    Clocked (path :: accessed) after where
  clock := hclock.trans (clock_tick h path)
  ticks := by
    intro other entry hfind
    by_cases hother : other = path
    · rw [hafter, if_pos hother] at hfind
      rw [← Option.some.inj hfind, hself, hother, List.idxOf_cons_self, hclock, clock_tick h path]
      exact ⟨List.mem_cons_self, by rw [Nat.sub_zero]⟩
    · rw [hafter, if_neg hother] at hfind
      obtain ⟨hmem, htick⟩ := h.ticks other entry hfind
      rw [List.idxOf_cons_ne _ (Ne.symm hother), List.length_cons, htick]
      exact ⟨List.mem_cons_of_mem _ hmem, by rw [Nat.add_sub_add_right]⟩

theorem Clocked.dropped (h : Clocked accessed cache) (path : Plain) :
    Clocked accessed (cache.dropped path) where
  clock := h.clock
  ticks := by
    intro other entry hfind
    rw [find?_dropped] at hfind
    split at hfind
    · cases hfind
    · exact h.ticks other entry hfind

theorem Clocked.touched (h : Clocked accessed cache) (path : Plain) (entry : CacheEntry) :
    Clocked (path :: accessed) (cache.touched path entry) :=
  h.access rfl rfl fun other => find?_touched other entry

theorem Clocked.stored (h : Clocked accessed cache) (path : Plain) (fingerprint : FileFingerprint)
    (content : String) : Clocked (path :: accessed) (cache.stored path fingerprint content) :=
  h.access rfl rfl find?_stored

theorem evictToFit_spec (hcounts : Store.Counts CacheEntry.size cache.store)
    (order : Lib.CountedStore.HashOrder Plain CacheEntry) :
    (∃ victims, Store.Evicts CacheEntry.size limits
      (fun victim entry => victim.2.lastAccess ≤ entry.2.lastAccess) cache.store victims
      (cache.evictToFit order).store) ∧ ¬ Store.Over limits (cache.evictToFit order).store :=
  Store.evictToFit_spec hcounts

/-- The eviction behind an insert: what goes has the oldest access. -/
theorem evicts_oldest (hcounts : Store.Counts CacheEntry.size cache.store)
    (hclocked : Clocked accessed cache) (order : Lib.CountedStore.HashOrder Plain CacheEntry) :
    ∃ victims, Store.Evicts CacheEntry.size limits (OldestAccess accessed) cache.store victims
      (cache.evictToFit order).store := by
  obtain ⟨⟨victims, hvictims⟩, -⟩ := evictToFit_spec hcounts order
  refine ⟨victims, hvictims.imp ?_⟩
  intro victim hvictim entry hentry htick
  refine ⟨htick, ?_⟩
  intro hclock
  obtain ⟨hmem, heq⟩ := hclocked.ticks _ _ (find?_of_mem hcounts.nodup hvictim)
  obtain ⟨hmem', heq'⟩ := hclocked.ticks _ _ (find?_of_mem hcounts.nodup hentry)
  have hlt := List.idxOf_lt_length_iff.mpr hmem
  have hlt' := List.idxOf_lt_length_iff.mpr hmem'
  omega

theorem find?_evictToFit (hcounts : Store.Counts CacheEntry.size cache.store)
    {order : Lib.CountedStore.HashOrder Plain CacheEntry} {entry : CacheEntry}
    (hfind : find? path (cache.evictToFit order).store.entries = some entry) :
    find? path cache.store.entries = some entry := by
  obtain ⟨⟨victims, hvictims⟩, -⟩ := evictToFit_spec hcounts order
  exact hvictims.find? hfind

theorem bounded_evictToFit (hcounts : Store.Counts CacheEntry.size cache.store)
    (order : Lib.CountedStore.HashOrder Plain CacheEntry) : Bounded (cache.evictToFit order) := by
  obtain ⟨⟨victims, hvictims⟩, hfits⟩ := evictToFit_spec hcounts order
  exact ⟨hvictims.counts hcounts, hfits⟩

/-! ### Steps -/

theorem Clocked.evictToFit (h : Clocked accessed cache) (hcounts : Store.Counts CacheEntry.size cache.store)
    (order : Lib.CountedStore.HashOrder Plain CacheEntry) :
    Clocked accessed (cache.evictToFit order) where
  clock := h.clock
  ticks := fun other entry hfind => h.ticks other entry (find?_evictToFit hcounts hfind)

theorem load_ok {files : FileSystem} {op : ToolOperator} {path : String}
    {refused : Option ToolError} (h : load files op path refused = some (.ok content)) :
    readToString files (op.named path) = .ok content ∧ byteLen content.toList < 2 ^ 63 := by
  cases refused with
  | some error => cases h
  | none =>
    rw [load] at h
    split at h
    · cases h
    rename_i found hfound
    split at h
    · cases h
      exact ⟨ToolOperator.readFile_read hfound, by assumption⟩
    · cases h

theorem Phase.known_resolve {op : ToolOperator} {path : String} (world : World) :
    (Phase.resolve op path (op.existingPath world.files path)).Known history world := by
  cases hresult : op.existingPath world.files path with
  | error error => trivial
  | ok found =>
    cases found with
    | none => trivial
    | some resolved => exact ToolOperator.existingPath_named hresult

theorem Phase.known_stamp {op : ToolOperator} {path : String} {resolved : Plain}
    (hresolved : resolved = op.named path)
    (hcurrent : ∀ fingerprint, world.metadata resolved = some fingerprint → history resolved fingerprint) :
    (Phase.stamp op path resolved (world.metadata resolved)).Known history world := by
  cases hmetadata : world.metadata resolved with
  | none => trivial
  | some fingerprint =>
    rw [Phase.stamp]
    split
    · trivial
    · exact ⟨hresolved, hcurrent fingerprint hmetadata⟩

/-- What is stored stays honest when the files change. -/
theorem Honest.change {files : FileSystem} {metadata : Plain → Option FileFingerprint}
    (hfresh : FreshChange history world files metadata) (h : Honest history world path fingerprint content) :
    Honest (history.after (.change files metadata)) { world with files, metadata } path fingerprint
      content := by
  refine ⟨.inl h.1, ?_⟩
  intro hmetadata
  rcases hfresh path with ⟨hfiles, hsame⟩ | hnew
  · exact hfiles.trans (h.2 (hsame.symm.trans hmetadata))
  · exact absurd h.1 (hnew fingerprint hmetadata)

theorem Phase.Known.change {files : FileSystem} {metadata : Plain → Option FileFingerprint}
    (hfresh : FreshChange history world files metadata) {phase : Phase} (h : phase.Known history world) :
    phase.Known (history.after (.change files metadata)) { world with files, metadata } := by
  cases phase with
  | stamped op path resolved fingerprint | missed op path resolved fingerprint => exact ⟨h.1, .inl h.2⟩
  | loaded resolved fingerprint content => exact ⟨h.1, Honest.change hfresh h.2⟩
  | found op path resolved | checked op path resolved => exact h
  | idle | uncached op path | returned result => trivial

theorem Inv.withPhase (h : Inv history world) {phase : Phase} (hphase : phase.Known history world) :
    Inv history { world with phase } :=
  ⟨h.bounded, h.clocked, h.current, h.entries, by cases phase <;> exact hphase⟩

theorem Inv.lookup (h : Inv history world) {op : ToolOperator} {path : String} {resolved : Plain}
    (hphase : world.phase = .stamped op path resolved fingerprint)
    (hstep : step world .lookup = some next) : Inv history next := by
  have hknown := h.phase
  rw [hphase] at hknown
  rw [step, hphase] at hstep
  dsimp only at hstep
  rcases tryRead_cases world.cache resolved fingerprint with ⟨entry, hfind, -, heq⟩ | heq
  · rw [heq] at hstep
    cases hstep
    refine ⟨h.bounded.touched hfind, h.clocked.touched resolved entry, h.current, ?_, trivial⟩
    intro other entry' hentry'
    rw [find?_touched] at hentry'
    split at hentry'
    · rename_i hother
      cases hentry'
      exact h.entries other entry (hother ▸ hfind)
    · exact h.entries other entry' hentry'
  · rw [heq] at hstep
    cases hstep
    refine ⟨h.bounded.dropped resolved, h.clocked.dropped resolved, h.current, ?_, hknown⟩
    intro other entry' hentry'
    rw [find?_dropped] at hentry'
    split at hentry'
    · cases hentry'
    · exact h.entries other entry' hentry'

theorem Inv.insert (h : Inv history world) {resolved : Plain}
    (hphase : world.phase = .loaded resolved fingerprint content)
    (order : Lib.CountedStore.HashOrder Plain CacheEntry) :
    Inv history { world with
      cache := world.cache.insertIntoCache order resolved fingerprint content
      phase := .returned (.ok ⟨content, false⟩)
      accessed := resolved :: world.accessed } := by
  have hknown := h.phase
  rw [hphase] at hknown
  have hcounts := h.bounded.stored resolved fingerprint hknown.1
  have hclocked := h.clocked.stored resolved fingerprint content
  refine ⟨bounded_evictToFit hcounts order, hclocked.evictToFit hcounts order, h.current, ?_, trivial⟩
  intro other entry' hentry'
  have hstored := find?_evictToFit hcounts hentry'
  rw [find?_stored] at hstored
  split at hstored
  · rename_i hother
    cases hstored
    rw [hother]
    exact hknown.2
  · exact h.entries other entry' hstored

theorem Inv.step (h : Inv history world) (hfresh : Fresh history world event)
    (hstep : step world event = some next) : Inv (history.after event) next := by
  cases event with
  | call op path =>
    rw [ContextCache.step] at hstep
    split at hstep
    · cases hstep
      exact h.withPhase (Phase.known_resolve world)
    · cases hstep
  | checkDir =>
    rw [ContextCache.step] at hstep
    split at hstep
    · rename_i op path resolved hphase
      have hknown := h.phase
      rw [hphase] at hknown
      cases hstep
      refine h.withPhase ?_
      split
      · trivial
      · exact hknown
    · cases hstep
  | fingerprint =>
    rw [ContextCache.step] at hstep
    split at hstep
    · rename_i op path resolved hphase
      have hknown := h.phase
      rw [hphase] at hknown
      cases hstep
      exact h.withPhase (Phase.known_stamp hknown (h.current resolved))
    · cases hstep
  | lookup =>
    cases hphase : world.phase with
    | stamped op path resolved fingerprint => exact h.lookup hphase hstep
    | _ =>
      rw [ContextCache.step, hphase] at hstep
      cases hstep
  | read refused =>
    rw [ContextCache.step] at hstep
    split at hstep
    · rename_i op path resolved fingerprint hphase
      have hknown := h.phase
      rw [hphase] at hknown
      obtain ⟨result, hload, rfl⟩ := Option.map_eq_some_iff.mp hstep
      cases result with
      | error error => exact h.withPhase trivial
      | ok content =>
        obtain ⟨hread, hlen⟩ := load_ok hload
        refine h.withPhase ⟨hlen, hknown.2, ?_⟩
        intro _
        rw [hknown.1]
        exact hread
    · obtain ⟨result, -, rfl⟩ := Option.map_eq_some_iff.mp hstep
      exact h.withPhase trivial
    · cases hstep
  | insert order =>
    rw [ContextCache.step] at hstep
    split at hstep
    · rename_i resolved fingerprint content hphase
      cases hstep
      exact h.insert hphase order
    · cases hstep
  | change files metadata =>
    cases hstep
    refine ⟨h.bounded, h.clocked, fun path fingerprint => .inr, ?_, h.phase.change hfresh⟩
    intro path entry hfind
    exact (h.entries path entry hfind).change hfresh

/-! ### Runs -/

theorem run_cons (world : World) (event : Event) (events : List Event) :
    run world (event :: events) = (step world event).bind fun next => run next events := rfl

variable {first between : World} {events front behind : List Event}

theorem Inv.along (h : Inv history first) (hfresh : FreshRun history first (front ++ behind))
    (hrun : run first front = some between) :
    ∃ history', Inv history' between ∧ FreshRun history' between behind := by
  induction front generalizing first history with
  | nil =>
    cases hrun
    exact ⟨history, h, hfresh⟩
  | cons event front ih =>
    obtain ⟨next, hstep, hrest⟩ := Option.bind_eq_some_iff.mp hrun
    exact ih (h.step hfresh.1 hstep) (hfresh.2 next hstep) hrest

def Phase.IsStamped : Phase → Prop
  | .stamped .. => True
  | _ => False

theorem step_isStamped (hstep : step world event = some next) (hevent : event ≠ .fingerprint)
    (hnext : next.phase.IsStamped) : next.phase = world.phase ∧ next.cache = world.cache := by
  cases event with
  | call op path =>
    rw [ContextCache.step] at hstep
    split at hstep
    · cases hstep
      cases hresult : op.existingPath world.files path with
      | error error =>
        rw [hresult] at hnext
        exact hnext.elim
      | ok found =>
        rw [hresult] at hnext
        cases found with
        | none => exact hnext.elim
        | some resolved => exact hnext.elim
    · cases hstep
  | checkDir =>
    rw [ContextCache.step] at hstep
    split at hstep
    · cases hstep
      split at hnext <;> exact hnext.elim
    · cases hstep
  | fingerprint => exact absurd rfl hevent
  | lookup =>
    rw [ContextCache.step] at hstep
    split at hstep
    · split at hstep <;> (cases hstep; exact hnext.elim)
    · cases hstep
  | read refused =>
    rw [ContextCache.step] at hstep
    split at hstep
    · obtain ⟨result, -, rfl⟩ := Option.map_eq_some_iff.mp hstep
      cases result <;> exact hnext.elim
    · obtain ⟨result, -, rfl⟩ := Option.map_eq_some_iff.mp hstep
      exact hnext.elim
    · cases hstep
  | insert order =>
    rw [ContextCache.step] at hstep
    split at hstep
    · cases hstep
      exact hnext.elim
    · cases hstep
  | change files metadata =>
    cases hstep
    exact ⟨rfl, rfl⟩

theorem run_isStamped (hrun : run first front = some between) (hfront : .fingerprint ∉ front)
    (hbetween : between.phase.IsStamped) :
    between.phase = first.phase ∧ between.cache = first.cache := by
  induction front generalizing first with
  | nil =>
    cases hrun
    exact ⟨rfl, rfl⟩
  | cons event front ih =>
    obtain ⟨next, hstep, hrest⟩ := Option.bind_eq_some_iff.mp hrun
    rw [List.mem_cons, not_or] at hfront
    obtain ⟨hphase, hcache⟩ := ih hrest hfront.2
    obtain ⟨hphase', hcache'⟩ := step_isStamped hstep (Ne.symm hfront.1) (hphase ▸ hbetween)
    exact ⟨hphase.trans hphase', hcache.trans hcache'⟩

/-- A lookup that hits in front of any change serves the content of the file. -/
theorem hit_content (h : Inv history world) {stamped after looking : World}
    (hstamp : step world .fingerprint = some stamped) (hphase : looking.phase = stamped.phase)
    (hcache : looking.cache = stamped.cache) (hlook : step looking .lookup = some after)
    (hafter : after.phase = .returned (.ok ⟨content, true⟩)) :
    ∃ op path resolved, world.phase = .checked op path resolved ∧
      readToString world.files resolved = .ok content := by
  rw [ContextCache.step] at hstamp
  split at hstamp
  · rename_i op path resolved hchecked
    cases hstamp
    refine ⟨op, path, resolved, hchecked, ?_⟩
    have hlooking : looking.phase = .stamp op path resolved (world.metadata resolved) := hphase
    cases hmetadata : world.metadata resolved with
    | none =>
      rw [hmetadata] at hlooking
      rw [ContextCache.step, hlooking] at hlook
      cases hlook
    | some fingerprint =>
      rw [hmetadata, Phase.stamp] at hlooking
      split at hlooking
      · rw [ContextCache.step, hlooking] at hlook
        cases hlook
      rw [ContextCache.step, hlooking, hcache] at hlook
      dsimp only at hlook
      rcases tryRead_cases world.cache resolved fingerprint with ⟨entry, hfind, hsame, heq⟩ | heq
      · rw [heq] at hlook
        cases hlook
        cases hafter
        exact (h.entries resolved entry hfind).2 (hsame ▸ hmetadata)
      · rw [heq] at hlook
        cases hlook
        cases hafter
  · cases hstamp

theorem inv_start (files : FileSystem) (metadata : Plain → Option FileFingerprint) :
    Inv (fun path fingerprint => metadata path = some fingerprint) { files, metadata } where
  bounded := ⟨⟨List.nodup_nil, rfl⟩, fun hover => by
    rcases hover with hlen | htotal
    · exact absurd hlen (Nat.not_lt_zero _)
    · exact absurd htotal (Nat.not_lt_zero _)⟩
  clocked := ⟨rfl, nofun⟩
  current := fun _ _ h => h
  entries := nofun
  phase := trivial

/-- **The cache is coherent in every run in which no change gives a path a fingerprint back.** -/
theorem coherent (files : FileSystem) (metadata : Plain → Option FileFingerprint)
    (hfresh : FreshRun (fun path fingerprint => metadata path = some fingerprint)
      { files, metadata } events) : Coherent { files, metadata } events where
  totals := by
    intro front behind between hevents hrun
    obtain ⟨history, h, -⟩ := (inv_start files metadata).along (hevents ▸ hfresh) hrun
    exact h.bounded.counts.total
  limits := by
    intro front behind between hevents hrun
    obtain ⟨history, h, -⟩ := (inv_start files metadata).along (hevents ▸ hfresh) hrun
    have hfits := h.bounded.fits
    rw [Store.Over, not_or] at hfits
    exact ⟨Nat.le_of_not_lt hfits.1, Nat.le_of_not_lt hfits.2⟩
  evictions := by
    intro front order behind before after hevents hrun hstep
    obtain ⟨history, h, -⟩ := (inv_start files metadata).along (hevents ▸ hfresh) hrun
    rw [ContextCache.step] at hstep
    split at hstep
    · rename_i resolved fingerprint content hphase
      have hknown := h.phase
      rw [hphase] at hknown
      cases hstep
      obtain ⟨victims, hvictims⟩ := evicts_oldest (h.bounded.stored resolved fingerprint hknown.1)
        (h.clocked.stored resolved fingerprint content) order
      exact ⟨resolved, fingerprint, content, victims, hphase, hvictims⟩
    · cases hstep
  hits := by
    intro front middle behind before stamped looking after content hevents hrun hstamp hmiddle hnone
      hlook hafter
    obtain ⟨history, h, -⟩ := (inv_start files metadata).along (hevents ▸ hfresh) hrun
    have hlooking : looking.phase.IsStamped := by
      rw [ContextCache.step] at hlook
      split at hlook
      · rename_i hphase
        rw [hphase]
        trivial
      · cases hlook
    obtain ⟨hphase, hcache⟩ := run_isStamped hmiddle hnone hlooking
    exact hit_content h hstamp hphase hcache hlook hafter

/-! ### A file that changes in front of the first call -/

theorem freshRun_of_unchanged (h : ∀ files metadata, .change files metadata ∉ events) :
    FreshRun history world events := by
  induction events generalizing history world with
  | nil => trivial
  | cons event events ih =>
    refine ⟨?_, ?_⟩
    · cases event with
      | change files metadata => exact absurd List.mem_cons_self (h files metadata)
      | _ => trivial
    · intro next _
      exact ih fun files metadata hmem => h files metadata (List.mem_cons_of_mem _ hmem)

def noteFiles (content : String) : FileSystem where
  entries := [(["ws"], .directory), (["ws", "note.txt"], .file content)]
  current := ["ws"]
  tree := by
    intro entry hmem
    rcases List.mem_cons.mp hmem with rfl | hmem
    · rfl
    · rw [List.mem_singleton.mp hmem]
      rfl

def noteWorld : World := { files := noteFiles "alpha\n", metadata := fun _ => some ⟨6, 1⟩ }

def readNote : List Event :=
  [.call ⟨[.rootDir, .normal "ws"], [.rootDir, .normal "ws"]⟩ "note.txt", .checkDir, .fingerprint,
    .lookup]

def noteEvents : List Event :=
  .change (noteFiles "bravo\n") (fun _ => some ⟨6, 2⟩) ::
    (readNote ++ [.read none, .insert .asStored] ++ readNote)

def Phase.served : Phase → Option String
  | .returned (.ok read) => if read.cacheHit then some read.content else none
  | _ => none

theorem coherent_note :
    ((run noteWorld noteEvents).map fun world => world.phase.served) = some (some "bravo\n") ∧
      Coherent noteWorld noteEvents := by
  refine ⟨by decide +kernel, coherent _ _ ⟨?_, ?_⟩⟩
  · intro path
    refine .inr ?_
    intro fingerprint hnew hold
    cases hnew
    cases hold
  · intro next _
    refine freshRun_of_unchanged ?_
    intro files metadata hmem
    simp [readNote] at hmem

end ContextCache

end Vexcoder.Runtime
