import Vexcoder.Task.Listing

/-!
# The header cache

Headers that were read before, by path, each with the fingerprint that the file had.  A cached header
is served while the fingerprint is still that of the file.  A cache is **honest** on a disk when what
it would serve is what the file has, and it is honest in every run in which no file changed and kept
its fingerprint (`headersAfter_honest`).
-/

namespace Vexcoder.Task

open Base
open Lib

def maxHeaderCacheEntries : ℕ := 512

structure CacheEntry where
  header : TaskStateHeader
  fingerprint : FileFingerprint
  lastAccess : ℕ
  updatedAt : ℕ

structure HeaderLruCache where
  entries : List (String × CacheEntry) := []
  nextAccess : ℕ := 0

namespace HeaderLruCache

def tick (cache : HeaderLruCache) : HeaderLruCache :=
  { cache with nextAccess := min (cache.nextAccess + 1) (2 ^ 64 - 1) }

def accessedBefore (entry entry' : String × CacheEntry) : Bool :=
  entry.2.lastAccess < entry'.2.lastAccess ||
    (entry.2.lastAccess == entry'.2.lastAccess && entry.2.updatedAt < entry'.2.updatedAt)

/-- The first of the entries that no other was accessed before. -/
def oldest : List (String × CacheEntry) → Option (String × CacheEntry)
  | [] => none
  | entry :: rest =>
    match oldest rest with
    | none => some entry
    | some entry' => some (if accessedBefore entry' entry then entry' else entry)

def evictEntries : ℕ → List (String × CacheEntry) → List (String × CacheEntry)
  | 0, entries => entries
  | n + 1, entries =>
    if entries.length > maxHeaderCacheEntries then
      match oldest entries with
      | some entry => evictEntries n (Assoc.erase entry.1 entries)
      | none => entries
    else entries

/-- Each round of the loop removes an entry. -/
def evictLru (cache : HeaderLruCache) : HeaderLruCache :=
  { cache with entries := evictEntries cache.entries.length cache.entries }

/-- An entry that is served is marked with the next tick. -/
def touch (cache : HeaderLruCache) (path : String) (entry : CacheEntry) : HeaderLruCache :=
  let cache := cache.tick
  { cache with
    entries := Assoc.insertLast path { entry with lastAccess := cache.nextAccess } cache.entries }

def store (cache : HeaderLruCache) (path : String) (header : TaskStateHeader)
    (fingerprint : FileFingerprint) : HeaderLruCache :=
  let cache := cache.tick
  let entry : CacheEntry :=
    { header, fingerprint, lastAccess := cache.nextAccess, updatedAt := header.modifiedMillis }
  evictLru { cache with entries := Assoc.insertLast path entry cache.entries }

end HeaderLruCache

/-- `TaskStateHeader::from_path` -/
def TaskStateHeader.fromPath (disk : Disk) (path : String) : Option TaskStateHeader :=
  (disk.file path).bind fun file => file.value.bind TaskStateHeader.read

def cachedTaskHeader (disk : Disk) (cache : HeaderLruCache) (path : String) :
    HeaderLruCache × Option TaskStateHeader :=
  match disk.file path with
  | none => (cache, none)
  | some file =>
    match (Assoc.find? path cache.entries).filter fun e => e.fingerprint = file.fingerprint with
    | some entry => (cache.touch path entry, some entry.header)
    | none =>
      let cache := { cache with entries := Assoc.erase path cache.entries }
      match TaskStateHeader.fromPath disk path with
      | none => (cache, none)
      | some header => (cache.store path header file.fingerprint, some header)

/-! ### Honest caches -/

/-- Every entry of the cache is of a file whose header and fingerprint satisfy `P`. -/
def HeaderLruCache.Entries (P : String → TaskStateHeader → FileFingerprint → Prop)
    (cache : HeaderLruCache) : Prop :=
  ∀ path entry, Assoc.find? path cache.entries = some entry → P path entry.header entry.fingerprint

def HeaderLruCache.Honest (disk : Disk) (cache : HeaderLruCache) : Prop :=
  cache.Entries fun path header fingerprint => ∀ file, disk.file path = some file →
    file.fingerprint = fingerprint → TaskStateHeader.fromPath disk path = some header

section Entries

variable {P : String → TaskStateHeader → FileFingerprint → Prop} {cache : HeaderLruCache}

theorem evictEntries_find? (n : ℕ) (entries : List (String × CacheEntry)) {path : String} {entry : CacheEntry}
    (h : Assoc.find? path (HeaderLruCache.evictEntries n entries) = some entry) :
    Assoc.find? path entries = some entry := by
  induction n generalizing entries with
  | zero => exact h
  | succ n ih =>
    rw [HeaderLruCache.evictEntries] at h
    split at h
    · split at h
      · have hfound := ih _ h
        rw [Assoc.find?_erase] at hfound
        split at hfound
        · cases hfound
        · exact hfound
      · exact h
    · exact h

theorem HeaderLruCache.Entries.touch (h : cache.Entries P) {path : String} {entry : CacheEntry}
    (hfound : Assoc.find? path cache.entries = some entry) :
    (cache.touch path entry).Entries P := by
  intro path' entry' hentry
  rw [HeaderLruCache.touch, Assoc.find?_insertLast] at hentry
  split at hentry
  · rename_i hpath
    cases hentry
    rw [hpath]
    exact h path entry hfound
  · exact h path' entry' hentry

theorem HeaderLruCache.Entries.store (h : cache.Entries P) {path : String}
    {header : TaskStateHeader} {fingerprint : FileFingerprint}
    (hnew : P path header fingerprint) : (cache.store path header fingerprint).Entries P := by
  intro path' entry' hentry
  have hentry := evictEntries_find? _ _ hentry
  rw [Assoc.find?_insertLast] at hentry
  split at hentry
  · rename_i hpath
    cases hentry
    rw [hpath]
    exact hnew
  · exact h path' entry' hentry

theorem HeaderLruCache.Entries.erase (h : cache.Entries P) (path : String) :
    HeaderLruCache.Entries P { cache with entries := Assoc.erase path cache.entries } := by
  intro path' entry' hentry
  rw [Assoc.find?_erase] at hentry
  split at hentry
  · cases hentry
  · exact h path' entry' hentry

theorem cachedTaskHeader_entries {disk : Disk} {path : String} (h : cache.Entries P)
    (hread : ∀ file header, disk.file path = some file →
      TaskStateHeader.fromPath disk path = some header → P path header file.fingerprint) :
    (cachedTaskHeader disk cache path).1.Entries P := by
  rw [cachedTaskHeader]
  split
  · exact h
  rename_i file hfile
  split
  · rename_i entry hentry
    exact h.touch (Option.filter_eq_some_iff.mp hentry).1
  split
  · exact h.erase path
  · rename_i header hheader
    exact (h.erase path).store (hread file header hfile hheader)

end Entries

variable {disk : Disk} {cache : HeaderLruCache} {path : String}

/-- **An honest cache gives the header that the file has, and stays honest.** -/
theorem cachedTaskHeader_honest (h : cache.Honest disk) :
    (cachedTaskHeader disk cache path).2 = TaskStateHeader.fromPath disk path ∧
      (cachedTaskHeader disk cache path).1.Honest disk := by
  constructor
  · rw [cachedTaskHeader]
    split
    · rename_i hfile
      rw [TaskStateHeader.fromPath, hfile]
      rfl
    · rename_i file hfile
      split
      · rename_i entry hentry
        obtain ⟨hfound, hsame⟩ := Option.filter_eq_some_iff.mp hentry
        exact (h path entry hfound file hfile (of_decide_eq_true hsame).symm).symm
      · split
        · rename_i hheader
          exact hheader.symm
        · rename_i header hheader
          exact hheader.symm
  · exact cachedTaskHeader_entries h fun file header hfile hheader _ _ _ => hheader

/-! ### Runs of lookups -/

/-- The cache after lookups, each on the disk of its time. -/
def headersAfter (lookups : List (Disk × String)) : HeaderLruCache :=
  lookups.foldl (fun cache lookup => (cachedTaskHeader lookup.1 cache lookup.2).1) {}

/-- No file that was looked up has changed and has its old length and time. -/
def Distinguished (lookups : List (Disk × String)) (disk : Disk) : Prop :=
  ∀ lookup ∈ lookups, ∀ file file', lookup.1.file lookup.2 = some file →
    disk.file lookup.2 = some file' → file'.fingerprint = file.fingerprint → file'.value = file.value

theorem headersAfter_entries {P : String → TaskStateHeader → FileFingerprint → Prop}
    (lookups : List (Disk × String))
    (hread : ∀ lookup ∈ lookups, ∀ file header, lookup.1.file lookup.2 = some file →
      TaskStateHeader.fromPath lookup.1 lookup.2 = some header → P lookup.2 header file.fingerprint) :
    (headersAfter lookups).Entries P := by
  have hrun : ∀ cache : HeaderLruCache, cache.Entries P → HeaderLruCache.Entries P
      (lookups.foldl (fun cache lookup => (cachedTaskHeader lookup.1 cache lookup.2).1) cache) := by
    induction lookups with
    | nil => exact fun _ h => h
    | cons lookup lookups ih =>
      intro cache h
      refine ih (fun later hlater => hread later (List.mem_cons_of_mem lookup hlater)) _ ?_
      exact cachedTaskHeader_entries h (hread lookup List.mem_cons_self)
  exact hrun {} fun path entry hentry => by cases hentry

/-- **Every cache that lookups can leave is honest**, where the fingerprints tell the changes. -/
theorem headersAfter_honest {lookups : List (Disk × String)} (h : Distinguished lookups disk) :
    (headersAfter lookups).Honest disk := by
  refine headersAfter_entries lookups fun lookup hlookup file header hfile hheader => ?_
  intro file' hfile' hsame
  have hvalue := h lookup hlookup file file' hfile hfile' hsame
  rw [TaskStateHeader.fromPath, hfile, Option.bind_some] at hheader
  rw [TaskStateHeader.fromPath, hfile', Option.bind_some, hvalue, hheader]

end Vexcoder.Task
