import Vexcoder.Task.State

/-!
# Step ids

`normalize_tool_invocation_step_ids` goes once over all invocations.  One without an id, or with an id
that was seen before, is given the next number; the number is looked for with a counter that stops at
the largest `u64`, and nothing is known of the invocations that are still to come.
-/

namespace Vexcoder.Task

open Vexcoder.Runtime

/-! ### Step ids that were given are kept -/

variable {ids ids' ids₂ : StepIds}

theorem saturatingSucc_ne_zero (n : ℕ) : saturatingSucc n ≠ 0 := by
  have hmax : 0 < u64Max := by decide
  rw [saturatingSucc]
  omega

theorem StepIds.insertNext_spec {rounds : ℕ} (h : ids.insertNext rounds = some ids') (hnext : ids.next ≠ 0) :
    ids'.next ≠ 0 ∧ ids'.next ∉ ids.seen ∧ ids'.seen = ids'.next :: ids.seen := by
  induction rounds generalizing ids with
  | zero => cases h
  | succ rounds ih =>
    rw [insertNext] at h
    split at h
    · exact @ih { ids with next := saturatingSucc ids.next } h (saturatingSucc_ne_zero _)
    · rename_i hunseen
      cases h
      exact ⟨hnext, hunseen, rfl⟩

theorem normalizeInvocation_spec {invocation invocation' : ToolInvocationSummary}
    (h : normalizeInvocation ids invocation = some (ids', invocation')) (hnext : ids.next ≠ 0) :
    ids'.next ≠ 0 ∧ invocation'.stepId ≠ 0 ∧ invocation'.stepId ∉ ids.seen ∧
      ids'.seen = invocation'.stepId :: ids.seen := by
  have hmax (n next : ℕ) : max next (saturatingSucc n) ≠ 0 := by
    have hsucc := saturatingSucc_ne_zero n
    omega
  rw [normalizeInvocation] at h
  split at h
  · obtain ⟨⟨ids₁, invocation₁⟩, hgiven, h⟩ := Option.bind_eq_some_iff.mp h
    obtain ⟨ids₂, hinsert, hids⟩ := Option.map_eq_some_iff.mp hgiven
    cases hids
    cases h
    obtain ⟨hne, hunseen, hseen⟩ := StepIds.insertNext_spec hinsert hnext
    exact ⟨hmax _ _, hne, hunseen, hseen⟩
  · rename_i hfresh
    cases h
    exact ⟨hmax _ _, fun hzero => hfresh (.inl hzero), fun hmem => hfresh (.inr hmem), rfl⟩

variable {invocations invocations' : List ToolInvocationSummary} {pulses : List TurnEvidenceState}
  {before : List ℕ}

theorem normalizeInvocations_again (h : normalizeInvocations ids invocations = some (ids', invocations'))
    (hnext : ids.next ≠ 0) (hseen : ids₂.seen = ids.seen) :
    ids'.next ≠ 0 ∧ ∃ ids₂', normalizeInvocations ids₂ invocations' = some (ids₂', invocations') ∧
      ids₂'.seen = ids'.seen := by
  induction invocations generalizing ids ids₂ ids' invocations' with
  | nil =>
    cases h
    exact ⟨hnext, ids₂, rfl, hseen⟩
  | cons invocation rest ih =>
    obtain ⟨⟨ids₁, first⟩, hfirst, h⟩ := Option.bind_eq_some_iff.mp h
    obtain ⟨⟨ids₃, others⟩, hothers, h⟩ := Option.bind_eq_some_iff.mp h
    cases h
    obtain ⟨hnext₁, hzero, hunseen, hseen₁⟩ := normalizeInvocation_spec hfirst hnext
    have hkept : normalizeInvocation ids₂ first =
        some ({ seen := first.stepId :: ids₂.seen
                next := max ids₂.next (saturatingSucc first.stepId) }, first) := by
      have hfresh : ¬ (first.stepId = 0 ∨ first.stepId ∈ ids₂.seen) := by
        rw [hseen]
        exact fun h => h.elim hzero hunseen
      rw [normalizeInvocation, if_neg hfresh]
      rfl
    have hseen₂ : StepIds.seen { seen := first.stepId :: ids₂.seen
                                 next := max ids₂.next (saturatingSucc first.stepId) } =
        ids₁.seen := by
      rw [hseen₁, ← hseen]
    obtain ⟨hnext₃, ids₂', hrest, hseen₃⟩ := ih hothers hnext₁ hseen₂
    refine ⟨hnext₃, ids₂', ?_, hseen₃⟩
    rw [normalizeInvocations, hkept]
    show Option.bind (normalizeInvocations _ others) _ = _
    rw [hrest]
    rfl

theorem normalizePulses_again {pulses' : List TurnEvidenceState}
    (h : normalizePulses ids pulses = some pulses') (hnext : ids.next ≠ 0)
    (hseen : ids₂.seen = ids.seen) : normalizePulses ids₂ pulses' = some pulses' := by
  induction pulses generalizing ids ids₂ pulses' with
  | nil =>
    cases h
    rfl
  | cons pulse rest ih =>
    obtain ⟨⟨ids₁, invocations⟩, hpulse, h⟩ := Option.bind_eq_some_iff.mp h
    obtain ⟨others, hothers, h⟩ := Option.bind_eq_some_iff.mp h
    cases h
    obtain ⟨hnext₁, ids₂', hagain, hseen₁⟩ := normalizeInvocations_again hpulse hnext hseen
    show Option.bind (normalizeInvocations ids₂ invocations) _ = _
    rw [hagain]
    show Option.bind (normalizePulses ids₂' others) _ = _
    rw [ih hothers hnext₁ hseen₁]
    rfl

/-! ### The numbers that are given -/

/-- An invocation behind these ids, the latest one first, needs a number. -/
def NeedsId (before : List ℕ) (id : ℕ) : Prop := id = 0 ∨ id ∈ before

instance (before : List ℕ) (id : ℕ) : Decidable (NeedsId before id) :=
  inferInstanceAs (Decidable (id = 0 ∨ id ∈ before))

/-- The largest id when each invocation that needs one is given the next. -/
def highestId : List ℕ → ℕ
  | [] => 0
  | id :: before => if NeedsId before id then highestId before + 1 else max (highestId before) id

/-- No invocation needs a number where the next one is too large or is carried later. -/
def RoomForIds (ids : List ℕ) : Prop :=
  ∀ before id after, ids = before ++ id :: after → NeedsId before.reverse id →
    highestId before.reverse < u64Max ∧ highestId before.reverse + 1 ∉ after

/-- The same for what is left behind some ids. -/
def RoomBehind : List ℕ → List ℕ → Prop
  | _, [] => True
  | before, id :: after =>
    (NeedsId before id → highestId before < u64Max ∧ highestId before + 1 ∉ after) ∧
      RoomBehind (id :: before) after

/-- The ids that are given, and carried, behind some ids. -/
def idsBehind : List ℕ → List ℕ → List ℕ
  | _, [] => []
  | before, id :: after =>
    (if NeedsId before id then highestId before + 1 else id) :: idsBehind (id :: before) after

theorem roomBehind_iff (before after : List ℕ) :
    RoomBehind before after ↔
      ∀ front id rest, after = front ++ id :: rest → NeedsId (front.reverse ++ before) id →
        highestId (front.reverse ++ before) < u64Max ∧ highestId (front.reverse ++ before) + 1 ∉ rest := by
  induction after generalizing before with
  | nil =>
    refine iff_of_true trivial fun front id rest heq => ?_
    exact absurd heq.symm (List.append_ne_nil_of_right_ne_nil front (List.cons_ne_nil id rest))
  | cons first after ih =>
    rw [RoomBehind, ih]
    constructor
    · rintro ⟨hfirst, hrest⟩ front id rest heq hneeds
      cases front with
      | nil =>
        obtain ⟨rfl, rfl⟩ := List.cons.inj heq
        exact hfirst hneeds
      | cons head front =>
        obtain ⟨rfl, hafter⟩ := List.cons.inj heq
        rw [List.reverse_cons, List.append_assoc] at hneeds ⊢
        exact hrest front id rest hafter hneeds
    · intro hall
      refine ⟨fun hneeds => hall [] first after rfl hneeds, fun front id rest heq hneeds => ?_⟩
      have hsplit := hall (first :: front) id rest (by rw [heq, List.cons_append])
      rw [List.reverse_cons, List.append_assoc] at hsplit
      exact hsplit hneeds

theorem roomForIds_iff (ids : List ℕ) : RoomForIds ids ↔ RoomBehind [] ids := by
  rw [roomBehind_iff]
  simp only [List.append_nil]
  rfl

theorem le_highestId {id : ℕ} (h : id ∈ before) : id ≤ highestId before := by
  induction before with
  | nil => cases h
  | cons first before ih =>
    rw [highestId]
    rcases List.mem_cons.mp h with rfl | h
    · split
      · rename_i hneeds
        rcases hneeds with rfl | hmem
        · exact Nat.zero_le _
        · exact Nat.le_succ_of_le (ih hmem)
      · exact Nat.le_max_right _ _
    · have hle := ih h
      split
      · exact Nat.le_succ_of_le hle
      · exact Nat.le_trans hle (Nat.le_max_left _ _)

/-! ### The run -/

/-- The state of the run behind these ids, when the ids that were given are not carried later. -/
structure StepIds.Tracks (ids : StepIds) (before after : List ℕ) : Prop where
  next : ids.next = saturatingSucc (highestId before)
  bound : ∀ id ∈ ids.seen, id ≤ highestId before
  top : highestId before = 0 ∨ highestId before ∈ ids.seen
  fits : highestId before ≤ u64Max
  carried : ∀ id ∈ before, id ≠ 0 → id ∈ ids.seen
  later : ∀ id ∈ after, id ∈ ids.seen → id ∈ before

theorem StepIds.tracks_start (ids : List ℕ) : StepIds.Tracks {} [] ids where
  next := rfl
  bound := nofun
  top := Or.inl rfl
  fits := Nat.zero_le _
  carried := nofun
  later := nofun

/-- With the largest number taken the counter does not move on, however often the loop turns. -/
theorem StepIds.insertNext_stuck (hnext : ids.next = u64Max) (hseen : u64Max ∈ ids.seen)
    (rounds : ℕ) : ids.insertNext rounds = none := by
  induction rounds with
  | zero => rfl
  | succ rounds ih =>
    have hsame : { ids with next := saturatingSucc ids.next } = ids := by
      have hsucc : saturatingSucc u64Max = u64Max := by decide
      obtain ⟨seen, next⟩ := ids
      obtain rfl : next = u64Max := hnext
      rw [hsucc]
    rw [insertNext, if_pos (by rwa [hnext]), hsame]
    exact ih

section Step

variable {before after : List ℕ} {invocation : ToolInvocationSummary}

theorem StepIds.Tracks.needsId_iff (h : ids.Tracks before (invocation.stepId :: after)) :
    (invocation.stepId = 0 ∨ invocation.stepId ∈ ids.seen) ↔ NeedsId before invocation.stepId := by
  constructor
  · rintro (hzero | hseen)
    · exact Or.inl hzero
    · exact Or.inr (h.later _ List.mem_cons_self hseen)
  · rintro (hzero | hmem)
    · exact Or.inl hzero
    · by_cases hzero : invocation.stepId = 0
      · exact Or.inl hzero
      · exact Or.inr (h.carried _ hmem hzero)

/-- A number that is needed is not found behind the largest one. -/
theorem StepIds.Tracks.stuck (h : ids.Tracks before (invocation.stepId :: after))
    (hneeds : NeedsId before invocation.stepId) (hfull : highestId before = u64Max) :
    normalizeInvocation ids invocation = none := by
  have hnext : ids.next = u64Max := by
    rw [h.next, hfull]
    decide
  have hseen : u64Max ∈ ids.seen := by
    rcases h.top with hzero | htop
    · rw [hfull] at hzero
      exact absurd hzero (by decide)
    · rwa [hfull] at htop
  rw [normalizeInvocation, if_pos (h.needsId_iff.mpr hneeds), StepIds.insertNext_stuck hnext hseen]
  rfl

theorem StepIds.Tracks.given_eq (h : ids.Tracks before (invocation.stepId :: after))
    (hneeds : NeedsId before invocation.stepId) (hroom : highestId before < u64Max) :
    normalizeInvocation ids invocation =
      some ({ seen := (highestId before + 1) :: ids.seen
              next := max (highestId before + 1) (saturatingSucc (highestId before + 1)) },
        { invocation with stepId := highestId before + 1 }) := by
  have hnext : ids.next = highestId before + 1 := by
    rw [h.next, saturatingSucc]
    omega
  have hfree : ids.next ∉ ids.seen := fun hseen => by
    have := h.bound _ hseen
    omega
  rw [normalizeInvocation, if_pos (h.needsId_iff.mpr hneeds), StepIds.insertNext, if_neg hfree, hnext]
  rfl

theorem StepIds.Tracks.given (h : ids.Tracks before (invocation.stepId :: after))
    (hneeds : NeedsId before invocation.stepId) (hroom : highestId before < u64Max)
    (hlater : highestId before + 1 ∉ after) :
    ∃ ids', normalizeInvocation ids invocation =
        some (ids', { invocation with stepId := highestId before + 1 }) ∧
      ids'.Tracks (invocation.stepId :: before) after := by
  have hhighest : highestId (invocation.stepId :: before) = highestId before + 1 := by
    rw [highestId, if_pos hneeds]
  refine ⟨_, h.given_eq hneeds hroom, ?next, ?bound, ?top, ?fits, ?carried, ?later⟩
  case next =>
    show max (highestId before + 1) (saturatingSucc (highestId before + 1)) = _
    rw [hhighest, saturatingSucc]
    omega
  case bound =>
    intro id hid
    rw [hhighest]
    rcases List.mem_cons.mp hid with rfl | hid
    · exact Nat.le_refl _
    · exact Nat.le_succ_of_le (h.bound id hid)
  case top =>
    rw [hhighest]
    exact Or.inr List.mem_cons_self
  case fits =>
    rw [hhighest]
    exact hroom
  case carried =>
    intro id hid hzero
    rcases List.mem_cons.mp hid with rfl | hid
    · rcases hneeds with hneeds | hmem
      · exact absurd hneeds hzero
      · exact List.mem_cons_of_mem _ (h.carried _ hmem hzero)
    · exact List.mem_cons_of_mem _ (h.carried id hid hzero)
  case later =>
    intro id hid hseen
    rcases List.mem_cons.mp hseen with rfl | hseen
    · exact absurd hid hlater
    · exact List.mem_cons_of_mem _ (h.later id (List.mem_cons_of_mem _ hid) hseen)

theorem StepIds.Tracks.kept (h : ids.Tracks before (invocation.stepId :: after))
    (hneeds : ¬NeedsId before invocation.stepId) (hmax : invocation.stepId ≤ u64Max) :
    ∃ ids', normalizeInvocation ids invocation = some (ids', invocation) ∧
      ids'.Tracks (invocation.stepId :: before) after := by
  have hhighest : highestId (invocation.stepId :: before) = max (highestId before) invocation.stepId := by
    rw [highestId, if_neg hneeds]
  refine ⟨{ seen := invocation.stepId :: ids.seen
            next := max ids.next (saturatingSucc invocation.stepId) },
    ?_, ?next, ?bound, ?top, ?fits, ?carried, ?later⟩
  · rw [normalizeInvocation, if_neg fun hgiven => hneeds (h.needsId_iff.mp hgiven)]
    rfl
  case next =>
    rw [h.next]
    simp only [saturatingSucc]
    omega
  case bound =>
    intro id hid
    rw [hhighest]
    rcases List.mem_cons.mp hid with rfl | hid
    · exact Nat.le_max_right _ _
    · exact Nat.le_trans (h.bound id hid) (Nat.le_max_left _ _)
  case top =>
    rw [hhighest]
    right
    rcases Nat.le_total (highestId before) invocation.stepId with hle | hle
    · rw [Nat.max_eq_right hle]
      exact List.mem_cons_self
    rw [Nat.max_eq_left hle]
    rcases h.top with hzero | htop
    · have hsame : highestId before = invocation.stepId := by omega
      rw [hsame]
      exact List.mem_cons_self
    · exact List.mem_cons_of_mem _ htop
  case fits =>
    rw [hhighest]
    exact Nat.max_le.mpr ⟨h.fits, hmax⟩
  case carried =>
    intro id hid hzero
    rcases List.mem_cons.mp hid with rfl | hid
    · exact List.mem_cons_self
    · exact List.mem_cons_of_mem _ (h.carried id hid hzero)
  case later =>
    intro id hid hseen
    rcases List.mem_cons.mp hseen with rfl | hseen
    · exact List.mem_cons_self
    · exact List.mem_cons_of_mem _ (h.later id (List.mem_cons_of_mem _ hid) hseen)

end Step

theorem normalizeInvocation_fields {invocation invocation' : ToolInvocationSummary}
    (h : normalizeInvocation ids invocation = some (ids', invocation')) :
    invocation' = { invocation with stepId := invocation'.stepId } := by
  rw [normalizeInvocation] at h
  split at h
  · obtain ⟨⟨ids₁, given⟩, hgiven, h⟩ := Option.bind_eq_some_iff.mp h
    obtain ⟨ids₂, -, hids⟩ := Option.map_eq_some_iff.mp hgiven
    cases hids
    cases h
    rfl
  · cases h
    rfl

/-- Of an invocation only the id may change. -/
def SameInvocation (invocation invocation' : ToolInvocationSummary) : Prop :=
  invocation' = { invocation with stepId := invocation'.stepId }

def stepIdsOf (invocations : List ToolInvocationSummary) : List ℕ :=
  invocations.map ToolInvocationSummary.stepId

/-- Whatever the run gives has ids, no two the same and none that was seen before. -/
theorem normalizeInvocations_spec
    (h : normalizeInvocations ids invocations = some (ids', invocations')) (hnext : ids.next ≠ 0) :
    List.Forall₂ SameInvocation invocations invocations' ∧ (stepIdsOf invocations').Nodup ∧
      ∀ id ∈ stepIdsOf invocations', id ≠ 0 ∧ id ∉ ids.seen := by
  induction invocations generalizing ids ids' invocations' with
  | nil =>
    cases h
    exact ⟨.nil, List.nodup_nil, nofun⟩
  | cons invocation rest ih =>
    obtain ⟨⟨ids₁, first⟩, hfirst, h⟩ := Option.bind_eq_some_iff.mp h
    obtain ⟨⟨ids₂, others⟩, hothers, h⟩ := Option.bind_eq_some_iff.mp h
    cases h
    obtain ⟨hnext₁, hzero, hunseen, hseen⟩ := normalizeInvocation_spec hfirst hnext
    obtain ⟨hfields, hnodup, hall⟩ := ih hothers hnext₁
    have hfresh : ∀ id ∈ stepIdsOf others, id ≠ 0 ∧ id ≠ first.stepId ∧ id ∉ ids.seen := by
      intro id hid
      obtain ⟨hne, hnot⟩ := hall id hid
      rw [hseen, List.mem_cons, not_or] at hnot
      exact ⟨hne, hnot.1, hnot.2⟩
    refine ⟨.cons (normalizeInvocation_fields hfirst) hfields, ?_, fun id hid => ?_⟩
    · exact List.nodup_cons.mpr ⟨fun hmem => (hfresh _ hmem).2.1 rfl, hnodup⟩
    · rcases List.mem_cons.mp hid with rfl | hid
      · exact ⟨hzero, hunseen⟩
      · exact ⟨(hfresh id hid).1, (hfresh id hid).2.2⟩

/-- Where there is room the run ends and gives these ids. -/
theorem normalizeInvocations_of_room (h : ids.Tracks before (stepIdsOf invocations))
    (hmax : ∀ id ∈ stepIdsOf invocations, id ≤ u64Max) (hroom : RoomBehind before (stepIdsOf invocations)) :
    ∃ ids' invocations', normalizeInvocations ids invocations = some (ids', invocations') ∧
      stepIdsOf invocations' = idsBehind before (stepIdsOf invocations) := by
  induction invocations generalizing ids before with
  | nil => exact ⟨ids, [], rfl, rfl⟩
  | cons invocation rest ih =>
    obtain ⟨hfirst, hrest⟩ := hroom
    have hmax' : ∀ id ∈ stepIdsOf rest, id ≤ u64Max := fun id hid =>
      hmax id (List.mem_cons_of_mem _ hid)
    have hrun : ∃ ids₁ first, normalizeInvocation ids invocation = some (ids₁, first) ∧
        ids₁.Tracks (invocation.stepId :: before) (stepIdsOf rest) ∧
        first.stepId = if NeedsId before invocation.stepId then highestId before + 1
          else invocation.stepId := by
      by_cases hneeds : NeedsId before invocation.stepId
      · obtain ⟨ids₁, heq, htracks⟩ := h.given hneeds (hfirst hneeds).1 (hfirst hneeds).2
        exact ⟨ids₁, _, heq, htracks, (if_pos hneeds).symm⟩
      · obtain ⟨ids₁, heq, htracks⟩ := h.kept hneeds (hmax _ List.mem_cons_self)
        exact ⟨ids₁, _, heq, htracks, (if_neg hneeds).symm⟩
    obtain ⟨ids₁, first, heq, htracks, hid⟩ := hrun
    obtain ⟨ids₂, others, hothers, hids⟩ := ih htracks hmax' hrest
    refine ⟨ids₂, first :: others, ?_, ?_⟩
    · rw [normalizeInvocations, heq]
      show Option.bind (normalizeInvocations ids₁ rest) _ = _
      rw [hothers]
      rfl
    · show first.stepId :: stepIdsOf others = _ :: _
      rw [hid, hids]
      rfl

/-- The first invocation that carries an id keeps it. -/
def KeepsFirst (before ids given : List ℕ) : Prop :=
  ∀ front id rest, ids = front ++ id :: rest → id ≠ 0 → id ∉ front → id ∉ before →
    given[front.length]? = some id

theorem keepsFirst_idsBehind (before ids : List ℕ) : KeepsFirst before ids (idsBehind before ids) := by
  induction ids generalizing before with
  | nil =>
    intro front id rest heq
    exact absurd heq.symm (List.append_ne_nil_of_right_ne_nil front (List.cons_ne_nil id rest))
  | cons first ids ih =>
    intro front id rest heq hzero hfront hbefore
    cases front with
    | nil =>
      obtain ⟨rfl, rfl⟩ := List.cons.inj heq
      have hneeds : ¬NeedsId before first := fun h => h.elim hzero hbefore
      rw [idsBehind, if_neg hneeds]
      rfl
    | cons head front =>
      obtain ⟨rfl, hrest⟩ := List.cons.inj heq
      refine ih (first :: before) front id rest hrest hzero
        (fun h => hfront (List.mem_cons_of_mem _ h)) fun h => ?_
      rcases List.mem_cons.mp h with rfl | h
      · exact hfront List.mem_cons_self
      · exact hbefore h

/-- A run that keeps every id that comes first had room. -/
theorem room_of_keepsFirst (h : ids.Tracks before (stepIdsOf invocations))
    (hmax : ∀ id ∈ stepIdsOf invocations, id ≤ u64Max)
    (hrun : normalizeInvocations ids invocations = some (ids', invocations'))
    (hnodup : (stepIdsOf invocations').Nodup)
    (hkeeps : KeepsFirst before (stepIdsOf invocations) (stepIdsOf invocations')) :
    RoomBehind before (stepIdsOf invocations) := by
  induction invocations generalizing ids before invocations' with
  | nil => trivial
  | cons invocation rest ih =>
    obtain ⟨⟨ids₁, first⟩, hfirst, hrun⟩ := Option.bind_eq_some_iff.mp hrun
    obtain ⟨⟨ids₂, others⟩, hothers, hrun⟩ := Option.bind_eq_some_iff.mp hrun
    cases hrun
    have hmax' : ∀ id ∈ stepIdsOf rest, id ≤ u64Max := fun id hid =>
      hmax id (List.mem_cons_of_mem _ hid)
    obtain ⟨hnot, hnodup'⟩ := List.nodup_cons.mp hnodup
    have hkeeps' : KeepsFirst (invocation.stepId :: before) (stepIdsOf rest) (stepIdsOf others) := by
      intro front id rest' heq hzero hfront hbefore
      rw [List.mem_cons, not_or] at hbefore
      have hfront' : id ∉ invocation.stepId :: front := fun hid =>
        (List.mem_cons.mp hid).elim hbefore.1 hfront
      exact hkeeps (invocation.stepId :: front) id rest' (congrArg _ heq) hzero hfront' hbefore.2
    by_cases hneeds : NeedsId before invocation.stepId
    · have hroom : highestId before < u64Max := by
        refine Nat.lt_of_le_of_ne h.fits fun hfull => ?_
        have hstuck := h.stuck hneeds hfull
        rw [hfirst] at hstuck
        cases hstuck
      have hgiven : first.stepId = highestId before + 1 := by
        have heq := h.given_eq hneeds hroom
        rw [hfirst] at heq
        cases heq
        rfl
      -- a later invocation that carries the number would have kept it
      have hlater : highestId before + 1 ∉ stepIdsOf rest := by
        intro hmem
        obtain ⟨front, rest', heq, hfront⟩ := List.eq_append_cons_of_mem hmem
        have hbefore : highestId before + 1 ∉ invocation.stepId :: before := by
          intro hid
          rcases List.mem_cons.mp hid with hid | hid
          · rcases hneeds with hzero | hold
            · omega
            · have := le_highestId hold
              omega
          · have := le_highestId hid
            omega
        have hkept := hkeeps' front _ rest' heq (Nat.succ_ne_zero _) hfront hbefore
        exact hnot (hgiven ▸ List.mem_of_getElem? hkept)
      obtain ⟨ids₃, heq, htracks⟩ := h.given hneeds hroom hlater
      rw [hfirst] at heq
      cases heq
      exact ⟨fun _ => ⟨hroom, hlater⟩, ih htracks hmax' hothers hnodup' hkeeps'⟩
    · obtain ⟨ids₃, heq, htracks⟩ := h.kept hneeds (hmax _ List.mem_cons_self)
      rw [hfirst] at heq
      cases heq
      exact ⟨fun hneeds' => absurd hneeds' hneeds, ih htracks hmax' hothers hnodup' hkeeps'⟩

/-! ### The pulses -/

def stepIds (pulses : List TurnEvidenceState) : List ℕ :=
  pulses.flatMap fun pulse => stepIdsOf pulse.toolInvocations

/-- Of a pulse only the ids of its invocations may change. -/
def SamePulse (pulse pulse' : TurnEvidenceState) : Prop :=
  pulse' = { pulse with toolInvocations := pulse'.toolInvocations } ∧
    List.Forall₂ SameInvocation pulse.toolInvocations pulse'.toolInvocations

def invocationsOf (pulses : List TurnEvidenceState) : List ToolInvocationSummary :=
  pulses.flatMap TurnEvidenceState.toolInvocations

theorem stepIdsOf_invocationsOf (pulses : List TurnEvidenceState) :
    stepIdsOf (invocationsOf pulses) = stepIds pulses := List.map_flatMap

theorem normalizeInvocations_append (front rest : List ToolInvocationSummary) :
    normalizeInvocations ids (front ++ rest) =
      (normalizeInvocations ids front).bind fun (ids₁, front') =>
        (normalizeInvocations ids₁ rest).map fun (ids₂, rest') => (ids₂, front' ++ rest') := by
  induction front generalizing ids with
  | nil =>
    show normalizeInvocations ids rest = (normalizeInvocations ids rest).map _
    cases normalizeInvocations ids rest <;> rfl
  | cons invocation front ih =>
    rw [List.cons_append, normalizeInvocations, normalizeInvocations]
    cases normalizeInvocation ids invocation with
    | none => rfl
    | some r =>
      obtain ⟨ids₁, first⟩ := r
      show (normalizeInvocations ids₁ (front ++ rest)).bind _ =
        ((normalizeInvocations ids₁ front).bind _).bind _
      rw [ih]
      cases normalizeInvocations ids₁ front with
      | none => rfl
      | some r =>
        obtain ⟨ids₂, front'⟩ := r
        show ((normalizeInvocations ids₂ rest).map _).bind _ = (normalizeInvocations ids₂ rest).map _
        cases normalizeInvocations ids₂ rest <;> rfl

/-- The run over the pulses is the run over their invocations. -/
theorem normalizePulses_spec {pulses' : List TurnEvidenceState}
    (h : normalizePulses ids pulses = some pulses') (hnext : ids.next ≠ 0) :
    ∃ ids', normalizeInvocations ids (invocationsOf pulses) = some (ids', invocationsOf pulses') ∧
      List.Forall₂ SamePulse pulses pulses' := by
  induction pulses generalizing ids pulses' with
  | nil =>
    cases h
    exact ⟨ids, rfl, .nil⟩
  | cons pulse rest ih =>
    obtain ⟨⟨ids₁, invocations⟩, hpulse, h⟩ := Option.bind_eq_some_iff.mp h
    obtain ⟨others, hothers, h⟩ := Option.bind_eq_some_iff.mp h
    cases h
    have hnext₁ := (normalizeInvocations_again hpulse hnext rfl).1
    obtain ⟨ids', hrest, hsame⟩ := ih hothers hnext₁
    refine ⟨ids', ?_, .cons ⟨rfl, (normalizeInvocations_spec hpulse hnext).1⟩ hsame⟩
    rw [invocationsOf, List.flatMap_cons, normalizeInvocations_append, hpulse]
    show (normalizeInvocations ids₁ (invocationsOf rest)).map _ = _
    rw [hrest]
    rfl

theorem normalizePulses_of_invocations
    (h : normalizeInvocations ids (invocationsOf pulses) = some (ids', invocations)) :
    ∃ pulses', normalizePulses ids pulses = some pulses' := by
  induction pulses generalizing ids ids' invocations with
  | nil => exact ⟨[], rfl⟩
  | cons pulse rest ih =>
    rw [invocationsOf, List.flatMap_cons, normalizeInvocations_append] at h
    obtain ⟨⟨ids₁, first⟩, hfirst, h⟩ := Option.bind_eq_some_iff.mp h
    obtain ⟨⟨ids₂, others⟩, hothers, -⟩ := Option.map_eq_some_iff.mp h
    obtain ⟨pulses', hrest⟩ := ih hothers
    refine ⟨{ pulse with toolInvocations := first } :: pulses', ?_⟩
    rw [normalizePulses, hfirst]
    show Option.bind (normalizePulses ids₁ rest) _ = _
    rw [hrest]
    rfl

/-- What normalising the step ids is for. -/
structure Normalised (pulses pulses' : List TurnEvidenceState) : Prop where
  nonzero : ∀ id ∈ stepIds pulses', id ≠ 0
  distinct : (stepIds pulses').Nodup
  others : List.Forall₂ SamePulse pulses pulses'
  first : ∀ before id after, stepIds pulses = before ++ id :: after → id ≠ 0 → id ∉ before →
    (stepIds pulses')[before.length]? = some id
  again : normalizeToolInvocationStepIds pulses' = some pulses'

/-- **The step ids are normalised exactly when there is room for those that are given.** -/
theorem normalize_step_ids_iff (pulses : List TurnEvidenceState)
    (hmax : ∀ id ∈ stepIds pulses, id ≤ u64Max) :
    (∃ pulses', normalizeToolInvocationStepIds pulses = some pulses' ∧ Normalised pulses pulses') ↔
      RoomForIds (stepIds pulses) := by
  have hstart := StepIds.tracks_start (stepIds pulses)
  rw [roomForIds_iff]
  rw [← stepIdsOf_invocationsOf] at hmax hstart ⊢
  constructor
  · rintro ⟨pulses', hrun, hnormal⟩
    obtain ⟨ids', hinvocations, -⟩ := normalizePulses_spec hrun Nat.one_ne_zero
    refine room_of_keepsFirst hstart hmax hinvocations ?_ ?_
    · rw [stepIdsOf_invocationsOf]
      exact hnormal.distinct
    · intro front id rest heq hzero hfront _
      rw [stepIdsOf_invocationsOf] at heq ⊢
      exact hnormal.first front id rest heq hzero hfront
  · intro hroom
    obtain ⟨ids', invocations', hrun, hids⟩ := normalizeInvocations_of_room hstart hmax hroom
    obtain ⟨pulses', hpulses⟩ := normalizePulses_of_invocations hrun
    obtain ⟨ids₂, hrun', hsame⟩ := normalizePulses_spec hpulses Nat.one_ne_zero
    rw [hrun] at hrun'
    cases hrun'
    obtain ⟨-, hnodup, hall⟩ := normalizeInvocations_spec hrun Nat.one_ne_zero
    rw [stepIdsOf_invocationsOf] at hnodup hall hids
    refine ⟨pulses', hpulses, fun id hid => (hall id hid).1, hnodup, hsame, ?_,
      normalizePulses_again hpulses Nat.one_ne_zero rfl⟩
    intro before id after heq hzero hbefore
    rw [hids]
    rw [← stepIdsOf_invocationsOf] at heq
    exact keepsFirst_idsBehind [] _ before id after heq hzero hbefore List.not_mem_nil

def pulsesWith (ids : List ℕ) : List TurnEvidenceState :=
  ids.map fun id => { input := "go", response := "", toolInvocations := [⟨id, "read_file", "ok"⟩] }

theorem normalize_step_ids_sample :
    ∃ pulses', normalizeToolInvocationStepIds (pulsesWith [0, 2, 2]) = some pulses' ∧
      Normalised (pulsesWith [0, 2, 2]) pulses' := by
  refine (normalize_step_ids_iff (pulsesWith [0, 2, 2]) (by decide +kernel)).mpr ?_
  rw [roomForIds_iff]
  exact ⟨fun _ => by decide, fun h => absurd h (by decide), fun _ => by decide, trivial⟩

/-- The number that a missing id is given is carried by the next invocation, which loses it. -/
theorem carried_id_lost :
    normalizeToolInvocationStepIds (pulsesWith [0, 1]) = some (pulsesWith [1, 2]) ∧
      ¬∃ pulses', normalizeToolInvocationStepIds (pulsesWith [0, 1]) = some pulses' ∧
        Normalised (pulsesWith [0, 1]) pulses' := by
  have hrun : normalizeToolInvocationStepIds (pulsesWith [0, 1]) = some (pulsesWith [1, 2]) := by
    decide +kernel
  refine ⟨hrun, ?_⟩
  rintro ⟨pulses', hrun', hnormal⟩
  rw [hrun] at hrun'
  cases hrun'
  have hfirst := hnormal.first [0] 1 [] rfl (by decide) (by decide)
  exact absurd hfirst (by decide)

end Vexcoder.Task
