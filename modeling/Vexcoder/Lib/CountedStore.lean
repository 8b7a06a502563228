import Mathlib.Data.List.MinMax
import Mathlib.Algebra.BigOperators.Group.List.Lemmas
import Vexcoder.Lib.Assoc

/-!
# Stores that count what they hold

A store is a finite map with a counter that each change adjusts.  It `Counts` when the counter is the
sum of the sizes of its values.  A store that is over its limits gives up the entries with the least
stamp, one after the other, until it is not (`evictToFit_spec`).
-/

namespace Vexcoder.Lib.CountedStore

open Assoc

variable {κ β : Type} [DecidableEq κ]

structure Store (κ β : Type) where
  entries : List (κ × β) := []
  total : ℕ := 0

structure Limits where
  entries : ℕ
  total : ℕ

/-- The order in which a walk over a hash map meets its entries. -/
structure HashOrder (κ β : Type) where
  walk : List (κ × β) → List (κ × β)
  perm : ∀ entries, (walk entries).Perm entries

def HashOrder.asStored : HashOrder κ β := ⟨id, fun entries => List.Perm.refl entries⟩

def sumSizes (size : β → ℕ) (entries : List (κ × β)) : ℕ :=
  (entries.map fun entry => size entry.2).sum

namespace Store

section Changes

variable (size stamp : β → ℕ) (limits : Limits) (order : HashOrder κ β)

def remove (key : κ) (s : Store κ β) : Store κ β :=
  match find? key s.entries with
  | none => s
  | some value => { entries := erase key s.entries, total := s.total - size value }

/-- A key that is not there gets a value; the counter stops at `cap`. -/
def add (cap : ℕ) (key : κ) (value : β) (s : Store κ β) : Store κ β :=
  { entries := insertLast key value s.entries, total := min (s.total + size value) cap }

def update (key : κ) (value : β) (s : Store κ β) : Store κ β :=
  { s with entries := insertLast key value s.entries }

def Over (s : Store κ β) : Prop := limits.entries < s.entries.length ∨ limits.total < s.total

instance (s : Store κ β) : Decidable (Over limits s) := inferInstanceAs (Decidable (_ ∨ _))

/-- The first entry of a walk that no other has a smaller stamp than. -/
def oldest (s : Store κ β) : Option (κ × β) :=
  (order.walk s.entries).argmin fun entry => stamp entry.2

def evict : ℕ → Store κ β → Store κ β
  | 0, s => s
  | n + 1, s =>
    if Over limits s then
      match oldest stamp order s with
      | none => s
      | some entry => evict n (remove size entry.1 s)
    else s

/-- Each round of the loop removes an entry. -/
def evictToFit (s : Store κ β) : Store κ β := evict size stamp limits order s.entries.length s

/-- The counter is the sum of the sizes. -/
structure Counts (s : Store κ β) : Prop where
  nodup : (keys s.entries).Nodup
  total : s.total = sumSizes size s.entries

/-- The `victims` go one after the other, each while the store is over its limits and as one that is
older than all there is. -/
inductive Evicts (Older : κ × β → κ × β → Prop) :
    Store κ β → List (κ × β) → Store κ β → Prop
  | done (s : Store κ β) : Evicts Older s [] s
  | next {s s' : Store κ β} {victim : κ × β} {victims : List (κ × β)} (hover : Over limits s)
      (hmem : victim ∈ s.entries) (holdest : ∀ entry ∈ s.entries, Older victim entry)
      (hrest : Evicts Older (remove size victim.1 s) victims s') :
      Evicts Older s (victim :: victims) s'

end Changes

variable {size stamp : β → ℕ} {limits : Limits} {order : HashOrder κ β} {s s' : Store κ β} {key : κ}
  {value : β}

/-! ### The counter -/

theorem sumSizes_of_find? (hnodup : (keys s.entries).Nodup) (h : find? key s.entries = some value) :
    sumSizes size s.entries = size value + sumSizes size (erase key s.entries) := by
  have hperm := (perm_of_find? hnodup h).map fun entry => size entry.2
  rw [sumSizes, hperm.sum_eq, List.map_cons]
  rfl

theorem Counts.remove (h : Counts size s) (key : κ) : Counts size (s.remove size key) := by
  rw [Store.remove]
  split
  · exact h
  rename_i value hvalue
  refine ⟨nodup_keys_erase h.nodup key, ?_⟩
  show s.total - size value = sumSizes size (erase key s.entries)
  have hsum : sumSizes size s.entries = size value + sumSizes size (erase key s.entries) :=
    sumSizes_of_find? h.nodup hvalue
  rw [h.total]
  omega

theorem find?_remove (key other : κ) (s : Store κ β) :
    find? other (s.remove size key).entries = if other = key then none else find? other s.entries := by
  rw [Store.remove]
  split
  · rename_i hnone
    split
    · rename_i heq
      rw [heq, hnone]
    · rfl
  · exact find?_erase key other s.entries

theorem Counts.add (h : Counts size s) {cap : ℕ} (hkey : key ∉ keys s.entries)
    (hcap : s.total + size value ≤ cap) : Counts size (s.add size cap key value) where
  nodup := by
    rw [Store.add, insertLast_of_notMem hkey, keys, List.map_append]
    refine List.Nodup.append h.nodup (List.nodup_singleton key) ?_
    intro other hother hsame
    obtain rfl : other = key := List.mem_singleton.mp hsame
    exact hkey hother
  total := by
    rw [Store.add, insertLast_of_notMem hkey, sumSizes, List.map_append, List.sum_append]
    show min (s.total + size value) cap = _
    rw [min_eq_left hcap, h.total]
    rfl

theorem insertLast_of_find? {old : β} {entries : List (κ × β)} (h : find? key entries = some old)
    (hsize : size value = size old) :
    keys (insertLast key value entries) = keys entries ∧
      sumSizes size (insertLast key value entries) = sumSizes size entries := by
  induction entries with
  | nil => cases h
  | cons entry entries ih =>
    obtain ⟨other, w⟩ := entry
    rw [find?] at h
    rw [insertLast]
    split at h
    · rename_i heq
      cases h
      rw [heq]
      simp [keys, sumSizes, hsize]
    · rename_i hne
      rw [if_neg hne]
      obtain ⟨hkeys, hsum⟩ := ih h
      simp only [keys, sumSizes, List.map_cons, List.sum_cons] at hkeys hsum ⊢
      exact ⟨by rw [hkeys], by rw [hsum]⟩

theorem Counts.update (h : Counts size s) {old : β} (hfind : find? key s.entries = some old)
    (hsize : size value = size old) : Counts size (s.update key value) := by
  obtain ⟨hkeys, hsum⟩ := insertLast_of_find? hfind hsize
  refine ⟨?_, h.total.trans hsum.symm⟩
  rw [Store.update, hkeys]
  exact h.nodup

/-! ### The limits -/

theorem not_over_remove (h : ¬ Over limits s) (key : κ) : ¬ Over limits (s.remove size key) := by
  rw [Over, not_or] at h ⊢
  rw [Store.remove]
  split
  · exact h
  · have hlen := List.length_filter_le (fun entry => decide (entry.1 ≠ key)) s.entries
    show ¬ limits.entries < (s.entries.filter fun entry => decide (entry.1 ≠ key)).length ∧
      ¬ limits.total < s.total - _
    omega

theorem not_over_update (h : ¬ Over limits s) {old : β} (hfind : find? key s.entries = some old) :
    ¬ Over limits (s.update key value) := by
  rw [Over, not_or] at h ⊢
  have hkeys : keys (insertLast key value s.entries) = keys s.entries :=
    (@insertLast_of_find? κ β _ (fun _ => 0) key value old s.entries hfind rfl).1
  have hlen := congrArg List.length hkeys
  rw [keys, List.length_map, keys, List.length_map] at hlen
  show ¬ limits.entries < (insertLast key value s.entries).length ∧ ¬ limits.total < s.total
  omega

/-! ### Eviction -/

theorem length_remove (h : Counts size s) (hfind : find? key s.entries = some value) :
    (s.remove size key).entries.length + 1 = s.entries.length := by
  have hlen := (perm_of_find? h.nodup hfind).length_eq
  rw [Store.remove, hfind, hlen]
  rfl

omit [DecidableEq κ] in
theorem ne_nil_of_over (h : Counts size s) (hover : Over limits s) : s.entries ≠ [] := by
  intro hnil
  have htotal := h.total
  rw [hnil] at htotal
  rcases hover with hlen | hsum
  · rw [hnil] at hlen
    exact absurd hlen (Nat.not_lt_zero _)
  · rw [htotal] at hsum
    exact absurd hsum (Nat.not_lt_zero _)

omit [DecidableEq κ] in
theorem oldest_eq_none_iff : oldest stamp order s = none ↔ s.entries = [] := by
  rw [oldest, List.argmin_eq_none]
  have hperm := order.perm s.entries
  constructor
  · intro h
    rw [h] at hperm
    exact hperm.nil_eq.symm
  · intro h
    rw [h] at hperm
    rw [h]
    exact hperm.eq_nil

omit [DecidableEq κ] in
theorem oldest_spec {victim : κ × β} (h : oldest stamp order s = some victim) :
    victim ∈ s.entries ∧ ∀ entry ∈ s.entries, stamp victim.2 ≤ stamp entry.2 := by
  have hperm := order.perm s.entries
  refine ⟨hperm.mem_iff.mp (List.argmin_mem h), ?_⟩
  intro entry hentry
  exact List.le_of_mem_argmin (f := fun entry => stamp entry.2) (hperm.mem_iff.mpr hentry) h

theorem evict_spec (n : ℕ) (h : Counts size s) (hn : s.entries.length ≤ n) :
    (∃ victims, Evicts size limits (fun victim entry => stamp victim.2 ≤ stamp entry.2) s victims
      (evict size stamp limits order n s)) ∧ ¬ Over limits (evict size stamp limits order n s) := by
  induction n generalizing s with
  | zero =>
    refine ⟨⟨[], .done s⟩, ?_⟩
    intro hover
    exact ne_nil_of_over h hover (List.length_eq_zero_iff.mp (by omega))
  | succ n ih =>
    rw [evict]
    split
    · rename_i hover
      cases hvictim : oldest stamp order s with
      | none => exact absurd (oldest_eq_none_iff.mp hvictim) (ne_nil_of_over h hover)
      | some victim =>
        obtain ⟨hmem, holdest⟩ := oldest_spec hvictim
        have hlen := length_remove h (find?_of_mem h.nodup hmem)
        obtain ⟨⟨victims, hvictims⟩, hfits⟩ := ih (h.remove victim.1) (by omega)
        exact ⟨⟨victim :: victims, .next hover hmem holdest hvictims⟩, hfits⟩
    · rename_i hfits
      exact ⟨⟨[], .done s⟩, hfits⟩

/-- **The store gives up its oldest entries while it is over its limits, and is within them then.** -/
theorem evictToFit_spec (h : Counts size s) :
    (∃ victims, Evicts size limits (fun victim entry => stamp victim.2 ≤ stamp entry.2) s victims
      (s.evictToFit size stamp limits order)) ∧ ¬ Over limits (s.evictToFit size stamp limits order) :=
  evict_spec _ h (Nat.le_refl _)

section Evicts

variable {Older Older' : κ × β → κ × β → Prop} {victims : List (κ × β)}

theorem Evicts.counts (h : Evicts size limits Older s victims s') (hcounts : Counts size s) :
    Counts size s' := by
  induction h with
  | done s => exact hcounts
  | next hover hmem holdest hrest ih => exact ih (hcounts.remove _)

theorem Evicts.find? (h : Evicts size limits Older s victims s')
    (hfind : Assoc.find? key s'.entries = some value) : Assoc.find? key s.entries = some value := by
  induction h with
  | done s => exact hfind
  | next hover hmem holdest hrest ih =>
    have hleft := ih hfind
    rw [find?_remove] at hleft
    split at hleft
    · cases hleft
    · exact hleft

theorem mem_of_mem_remove {entry : κ × β} (h : entry ∈ (s.remove size key).entries) : entry ∈ s.entries := by
  rw [Store.remove] at h
  split at h
  · exact h
  · exact (List.mem_filter.mp h).1

theorem Evicts.imp (h : Evicts size limits Older s victims s')
    (himp : ∀ victim ∈ s.entries, ∀ entry ∈ s.entries, Older victim entry → Older' victim entry) :
    Evicts size limits Older' s victims s' := by
  induction h with
  | done s => exact .done s
  | next hover hmem holdest hrest ih =>
    refine .next hover hmem (fun entry hentry => himp _ hmem entry hentry (holdest entry hentry)) ?_
    refine ih fun victim hvictim entry hentry => ?_
    exact himp victim (mem_of_mem_remove hvictim) entry (mem_of_mem_remove hentry)

end Evicts

end Store

end Vexcoder.Lib.CountedStore
