import Mathlib.Data.List.Perm.Lattice

/-!
# Collections that are refreshed key by key

A collection is put together from sources, and every item carries the key of its source.  What is held
`Agrees` with what would be built when both have the same items outside the keys that are stale.  A key
that is refreshed is not stale any more (`Agrees.refresh`), and the keys of the sources that have changed
are all that becomes stale (`Agrees.of_sources`).
-/

namespace Vexcoder.Lib.Refresh

variable {α κ ι : Type*} [DecidableEq κ] {key : α → κ} {stale : List κ} {k : κ}
  {held built built' fresh : List α}

/-- Outside the stale keys the same items, each as often. -/
def Agrees (key : α → κ) (stale : List κ) (held built : List α) : Prop :=
  (held.filter fun x => key x ∉ stale).Perm (built.filter fun x => key x ∉ stale)

/-- What was held for the key goes, and what is there now comes. -/
def refresh (key : α → κ) (k : κ) (fresh held : List α) : List α :=
  (held.filter fun x => key x ≠ k) ++ fresh

theorem agrees_nil_iff : Agrees key [] held built ↔ held.Perm built := by
  rw [Agrees]
  simp

theorem Agrees.trans (h : Agrees key stale held built) (h' : Agrees key stale built built') :
    Agrees key stale held built' := List.Perm.trans h h'

theorem Agrees.of_perm (h : held.Perm built) (stale : List κ) : Agrees key stale held built :=
  h.filter _

/-- **A key that is refreshed is not stale.** -/
theorem Agrees.refresh (h : Agrees key (k :: stale) held built)
    (hfresh : fresh.Perm (built.filter fun x => key x = k)) :
    Agrees key stale (refresh key k fresh held) built := by
  have hsplit : ∀ xs : List α, ((xs.filter fun x => key x ≠ k).filter fun x => key x ∉ stale) =
      xs.filter fun x => key x ∉ k :: stale := by
    intro xs
    rw [List.filter_filter]
    refine List.filter_congr fun x _ => ?_
    simp only [List.mem_cons, not_or, Bool.decide_and, Bool.and_comm]
  have hparts : ((built.filter fun x => key x ≠ k) ++ built.filter fun x => key x = k).Perm built := by
    have hboth := List.filter_append_perm (fun x => decide (key x = k)) built
    refine List.perm_append_comm.trans ?_
    simpa only [decide_not] using hboth
  rw [Agrees] at h ⊢
  rw [Refresh.refresh, List.filter_append, hsplit]
  calc (held.filter fun x => key x ∉ k :: stale) ++ fresh.filter (fun x => key x ∉ stale)
      |>.Perm ((built.filter fun x => key x ∉ k :: stale) ++
        (built.filter fun x => key x = k).filter fun x => key x ∉ stale) :=
        h.append (hfresh.filter _)
    _ = (((built.filter fun x => key x ≠ k) ++ built.filter fun x => key x = k).filter
          fun x => key x ∉ stale) := by rw [List.filter_append, hsplit]
    _ |>.Perm (built.filter fun x => key x ∉ stale) := hparts.filter _

/-- **Keys that are refreshed one after the other** are not stale in the end. -/
theorem Agrees.refresh_all {β : Type*} (rel : β → κ) (fresh : β → List α) {changes : List β}
    (h : Agrees key (changes.map rel) held built)
    (hfresh : ∀ b ∈ changes, (fresh b).Perm (built.filter fun x => key x = rel b)) :
    (changes.foldl (fun held b => Refresh.refresh key (rel b) (fresh b) held) held).Perm built := by
  induction changes generalizing held with
  | nil => exact agrees_nil_iff.mp h
  | cons b changes ih =>
    refine ih (Agrees.refresh h (hfresh b List.mem_cons_self)) fun b' hb' => ?_
    exact hfresh b' (List.mem_cons_of_mem _ hb')

/-! ### Sources -/

def share [DecidableEq ι] (sources : List ι) (items : ι → List α) (i : ι) : List α :=
  if i ∈ sources then items i else []

variable [DecidableEq ι] {sources sources' : List ι} {items items' : ι → List α}

theorem mem_filter_iff_share {i : ι} :
    i ∈ (sources.filter fun i => !(items i).isEmpty) ↔ share sources items i ≠ [] := by
  rw [share]
  split
  all_goals
    rename_i hmem
    simp [hmem]

omit [DecidableEq ι] in
theorem flatMap_filter (sources : List ι) (items : ι → List α) :
    (sources.filter fun i => !(items i).isEmpty).flatMap items = sources.flatMap items := by
  rw [List.flatMap_def, List.flatMap_def, ← List.flatten_filter_not_isEmpty (L := sources.map items),
    List.filter_map]
  rfl

/-- **The sources count, and not their order.** -/
theorem flatMap_perm (hnodup : sources.Nodup) (hnodup' : sources'.Nodup)
    (h : ∀ i, share sources items i = share sources' items' i) :
    (sources.flatMap items).Perm (sources'.flatMap items') := by
  have hmem : ∀ i, i ∈ (sources.filter fun i => !(items i).isEmpty) ↔
      i ∈ sources'.filter fun i => !(items' i).isEmpty := fun i => by
    rw [mem_filter_iff_share, mem_filter_iff_share, h i]
  have hperm := (List.perm_ext_iff_of_nodup (hnodup.filter _) (hnodup'.filter _)).mpr hmem
  rw [← flatMap_filter sources items, ← flatMap_filter sources' items']
  refine (hperm.flatMap_right items).trans (List.Perm.of_eq ?_)
  refine List.flatMap_congr fun i hi => ?_
  have hi' := (List.mem_filter.mp ((hmem i).mpr hi)).1
  have hshare := h i
  rw [share, share, if_pos hi', if_pos (List.mem_filter.mp hi).1] at hshare
  exact hshare

variable {name : ι → κ}

omit [DecidableEq κ] [DecidableEq ι] in
theorem filter_flatMap_of_key (p : κ → Bool) (hkey : ∀ i, ∀ x ∈ items i, key x = name i) :
    (sources.flatMap items).filter (fun x => p (key x)) =
      sources.flatMap fun i => if p (name i) then items i else [] := by
  rw [List.filter_flatMap]
  refine List.flatMap_congr fun i _ => ?_
  cases hp : p (name i) with
  | true => exact List.filter_eq_self.mpr fun x hx => by rw [hkey i x hx, hp]
  | false =>
    rw [if_neg Bool.false_ne_true]
    exact List.filter_eq_nil_iff.mpr fun x hx => by rw [hkey i x hx, hp]; exact Bool.false_ne_true

/-- Only the names of the sources that give something else become stale. -/
theorem Agrees.of_sources (hnodup : sources.Nodup) (hnodup' : sources'.Nodup)
    (hkey : ∀ i, ∀ x ∈ items i, key x = name i) (hkey' : ∀ i, ∀ x ∈ items' i, key x = name i)
    (h : ∀ i, name i ∉ stale → share sources items i = share sources' items' i) :
    Agrees key stale (sources.flatMap items) (sources'.flatMap items') := by
  rw [Agrees, filter_flatMap_of_key (fun k => decide (k ∉ stale)) hkey,
    filter_flatMap_of_key (fun k => decide (k ∉ stale)) hkey']
  refine flatMap_perm hnodup hnodup' fun i => ?_
  have hi := h i
  rw [share, share] at hi ⊢
  by_cases hname : name i ∈ stale
  · simp [hname]
  · simpa [hname] using hi hname

theorem perm_of_only {i : ι} (hnodup : sources.Nodup) (hkey : ∀ i, ∀ x ∈ items i, key x = name i)
    (honly : ∀ j ∈ sources, name j = name i → items j ≠ [] → j = i) :
    (share sources items i).Perm ((sources.flatMap items).filter fun x => key x = name i) := by
  rw [filter_flatMap_of_key (fun k => decide (k = name i)) hkey]
  have hself : share sources items i = [i].flatMap fun _ => share sources items i := by
    rw [List.flatMap_singleton]
  rw [hself]
  refine flatMap_perm (List.nodup_singleton i) hnodup fun j => ?_
  rw [share, share, share]
  by_cases hj : j = i
  · subst hj
    simp
  rw [if_neg (fun h => hj (List.mem_singleton.mp h))]
  split
  · rename_i hmem
    symm
    by_cases hname : name j = name i
    · by_contra hne
      rw [if_pos (decide_eq_true hname)] at hne
      exact hj (honly j hmem hname hne)
    · rw [if_neg (fun h => hname (of_decide_eq_true h))]
  · rfl

end Vexcoder.Lib.Refresh
