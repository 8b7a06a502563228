import Vexcoder.Lib.Regex

/-!
# Searching with a regular expression

The hits of an expression in a text, from the left and without overlap, and what replacing them gives
(`find_iter` and `replace_all` of `regex-lite`).
`Free` says of a text that nothing in it matches.

A character that no class has and that is not of a word is a barrier: replacing goes on behind it as at
the start of a text (`replaceAll_barrier`), and no match reaches over it (`free_barrier_iff`).
-/

namespace Vexcoder.Lib

namespace Regex

variable {r s : Regex} {prev prev' : Option Char} {a : Hit} {rest : List Char}

/-- The first place at which something can be taken, as what is in front of it, with what is preferred
there. -/
def firstHit (r : Regex) : Option Char → List Char → Option (List Char × Hit)
  | prev, [] => (runs r prev []).head?.map fun a => ([], a)
  | prev, c :: rest =>
    match (runs r prev (c :: rest)).head? with
    | some a => some ([], a)
    | none => (firstHit r (some c) rest).map fun found => (c :: found.1, found.2)

/-- The hits, each with what is in front of it, and what is behind the last one; `n` bounds their number. -/
def findIter (r : Regex) : ℕ → Option Char → List Char → List (List Char × Hit) × List Char
  | 0, _, rest => ([], rest)
  | n + 1, prev, rest =>
    match firstHit r prev rest with
    | none => ([], rest)
    | some (gap, a) =>
      let behind := findIter r n (a.text.getLast?.or (gap.getLast?.or prev))
        (rest.drop (gap.length + a.text.length))
      ((gap, a) :: behind.1, behind.2)

/-- Each hit takes a character, so there are no more of them than characters. -/
def findAll (r : Regex) (text : List Char) : List (List Char × Hit) × List Char :=
  findIter r text.length none text

def isMatch (r : Regex) (text : List Char) : Bool := (firstHit r none text).isSome

def output (expand : Hit → List Char) (found : List (List Char × Hit) × List Char) : List Char :=
  (found.1.flatMap fun entry => entry.1 ++ expand entry.2) ++ found.2

def replaceAll (r : Regex) (expand : Hit → List Char) (text : List Char) : List Char :=
  output expand (findAll r text)

/-- Nothing can be taken at the places in front of the `n`th. -/
def NoneBefore (r : Regex) (prev : Option Char) (rest : List Char) (n : ℕ) : Prop :=
  ∀ front behind, rest = front ++ behind → front.length < n → runs r (front.getLast?.or prev) behind = []

theorem NoneBefore.cons {c : Char} {n : ℕ} (hhere : runs r prev (c :: rest) = [])
    (h : NoneBefore r (some c) rest n) : NoneBefore r prev (c :: rest) (n + 1) := by
  intro front behind heq hlen
  cases front with
  | nil =>
    obtain rfl : c :: rest = behind := heq
    exact hhere
  | cons d front =>
    obtain ⟨rfl, rfl⟩ := List.cons.inj heq
    have hprev : (c :: front).getLast?.or prev = front.getLast?.or (some c) := by
      rw [List.getLast?_cons]
      cases front.getLast? <;> rfl
    rw [hprev]
    exact h front behind rfl (Nat.lt_of_succ_lt_succ hlen)

/-- The first hit is preferred at its place, and there is none at an earlier one. -/
theorem firstHit_some {gap : List Char} (h : firstHit r prev rest = some (gap, a)) :
    ∃ behind, rest = gap ++ behind ∧ (runs r (gap.getLast?.or prev) behind).head? = some a ∧
      NoneBefore r prev rest gap.length := by
  induction rest generalizing prev gap with
  | nil =>
    rw [firstHit, Option.map_eq_some_iff] at h
    obtain ⟨b, hb, hpair⟩ := h
    cases hpair
    exact ⟨[], rfl, hb, fun _ _ _ hlen => absurd hlen (Nat.not_lt_zero _)⟩
  | cons c rest ih =>
    rw [firstHit] at h
    split at h
    · rename_i b hb
      cases h
      exact ⟨c :: rest, rfl, hb, fun _ _ _ hlen => absurd hlen (Nat.not_lt_zero _)⟩
    · rename_i hnone
      obtain ⟨⟨gap', b⟩, hfound, hpair⟩ := Option.map_eq_some_iff.mp h
      cases hpair
      obtain ⟨behind, rfl, hhead, hbefore⟩ := ih hfound
      refine ⟨behind, rfl, ?_, hbefore.cons (List.head?_eq_none_iff.mp hnone)⟩
      rw [List.getLast?_cons]
      cases hgap : gap'.getLast? <;> rw [hgap] at hhead <;> exact hhead

theorem firstHit_none (h : firstHit r prev rest = none) : NoneBefore r prev rest (rest.length + 1) := by
  induction rest generalizing prev with
  | nil =>
    rw [firstHit, Option.map_eq_none_iff] at h
    intro front behind heq _
    obtain ⟨rfl, rfl⟩ := List.append_eq_nil_iff.mp heq.symm
    exact List.head?_eq_none_iff.mp h
  | cons c rest ih =>
    rw [firstHit] at h
    split at h
    · cases h
    · rename_i hnone
      exact (ih (Option.map_eq_none_iff.mp h)).cons (List.head?_eq_none_iff.mp hnone)

theorem head?_runs_seq (h : (runs (.seq r s) prev rest).head? = some a) :
    ∃ b c, b ∈ runs r prev rest ∧
      (runs s (b.text.getLast?.or prev) (rest.drop b.text.length)).head? = some c ∧
      a = b.append c := by
  rw [runs, List.head?_flatMap, List.findSome?_eq_some_iff] at h
  obtain ⟨front, b, behind, hsplit, hhead, -⟩ := h
  rw [List.head?_map, Option.map_eq_some_iff] at hhead
  obtain ⟨c, hc, rfl⟩ := hhead
  exact ⟨b, c, hsplit ▸ List.mem_append_right _ List.mem_cons_self, hc, rfl⟩

theorem head?_runs_chars {p : Char → Bool} {least : ℕ}
    (h : (runs (.chars p least none) prev rest).head? = some a) : a.text = rest.takeWhile p := by
  rw [runs, List.head?_map, Option.map_eq_some_iff] at h
  obtain ⟨n, hn, rfl⟩ := h
  rw [counts, List.head?_map, Option.map_eq_some_iff] at hn
  obtain ⟨i, hi, rfl⟩ := hn
  rw [List.head?_range] at hi
  split at hi
  · cases hi
  · cases hi
    exact (List.prefix_iff_eq_take.mp (List.takeWhile_prefix p)).symm

theorem head?_drop_takeWhile {p : Char → Bool} {c : Char}
    (h : (rest.drop (rest.takeWhile p).length).head? = some c) : p c = false := by
  have hdrop : rest.drop (rest.takeWhile p).length = rest.dropWhile p := by
    conv_lhs => rw [← List.takeWhile_append_dropWhile (p := p) (l := rest)]
    rw [List.drop_left' (by rw [List.takeWhile_append_dropWhile])]
  rw [hdrop] at h
  have hnot := List.head?_dropWhile_not p rest
  rw [h] at hnot
  simpa using hnot

/-! ### Texts without a match -/

def Free (r : Regex) (text : List Char) : Prop :=
  ∀ front a behind, text = front ++ (a.text ++ behind) → ¬ Matches r front.getLast? a behind.head?

theorem free_of_noneBefore (h : NoneBefore r none rest (rest.length + 1)) : Free r rest := by
  intro front a behind heq hmatch
  have hrun : a ∈ runs r front.getLast? (a.text ++ behind) :=
    mem_runs.mpr ⟨List.prefix_append _ _, by rw [List.drop_left]; exact hmatch⟩
  have hlen : front.length < rest.length + 1 := by
    rw [heq, List.length_append]
    omega
  have hnone := h front (a.text ++ behind) heq hlen
  rw [Option.or_none] at hnone
  rw [hnone] at hrun
  exact List.not_mem_nil hrun

theorem isMatch_eq_false_iff {text : List Char} : isMatch r text = false ↔ Free r text := by
  rw [isMatch, Option.isSome_eq_false_iff, Option.isNone_iff_eq_none]
  constructor
  · exact fun h => free_of_noneBefore (firstHit_none h)
  · intro h
    cases hfirst : firstHit r none text with
    | none => rfl
    | some found =>
      obtain ⟨behind, heq, hhead, -⟩ := firstHit_some hfirst
      obtain ⟨⟨rest, hrest⟩, hmatch⟩ := mem_runs.mp (List.mem_of_head? hhead)
      subst hrest
      rw [List.drop_left, Option.or_none] at hmatch
      exact absurd hmatch (h _ _ _ heq)

theorem replaceAll_of_free {text : List Char} (h : Free r text) (expand : Hit → List Char) :
    replaceAll r expand text = text := by
  have hfirst : firstHit r none text = none := by
    have hmatch := isMatch_eq_false_iff.mpr h
    rw [isMatch, Option.isSome_eq_false_iff, Option.isNone_iff_eq_none] at hmatch
    exact hmatch
  have hfound : findAll r text = ([], text) := by
    rw [findAll]
    cases text with
    | nil => rfl
    | cons c text =>
      rw [List.length_cons, findIter, hfirst]
  rw [replaceAll, hfound]
  rfl

/-! ### Barriers -/

/-- No class has the character, and it is not of a word. -/
structure Barrier (r : Regex) (d : Char) : Prop where
  avoided : r.avoids d = true
  noWord : isWordChar d = false

variable {d : Char} {x y : List Char}

theorem Barrier.wordAt_eq (h : Barrier r d) : wordAt none = wordAt (some d) := h.noWord.symm

theorem Barrier.wordAt_getLast? (h : Barrier r d) (x y : List Char) :
    wordAt (x ++ d :: y).getLast? = wordAt y.getLast? := by
  rw [List.getLast?_append, List.getLast?_cons]
  cases y.getLast? with
  | none => exact h.noWord
  | some c => rfl

theorem takeWhile_barrier {p : Char → Bool} (hd : p d = false) (x y : List Char) :
    (x ++ d :: y).takeWhile p = x.takeWhile p := by
  induction x with
  | nil => exact List.takeWhile_cons_of_neg (by rw [hd]; exact Bool.false_ne_true)
  | cons c x ih => rw [List.cons_append, List.takeWhile_cons, List.takeWhile_cons, ih]

theorem runs_barrier (h : Barrier r d) (prev : Option Char) (x y : List Char) :
    runs r prev (x ++ d :: y) = runs r prev x := by
  obtain ⟨havoid, hword⟩ := h
  induction r generalizing prev x with
  | chars p least most =>
    have hp : p d = false := by simpa only [avoids, Bool.not_eq_true'] using havoid
    have hcounts : counts p least most (x ++ d :: y) = counts p least most x := by
      rw [counts, counts, takeWhile_barrier hp]
    rw [runs, hcounts]
    refine List.map_congr_left fun n hn => ?_
    have hlen := Nat.le_trans (mem_counts.mp hn).2.1 (List.takeWhile_sublist p).length_le
    rw [List.take_append_of_le_length hlen]
  | boundary =>
    have hhead : wordAt (x ++ d :: y).head? = wordAt x.head? := by
      cases x with
      | nil => exact hword
      | cons c x => rfl
    rw [runs, runs, hhead]
  | seq r s ihr ihs =>
    obtain ⟨hr, hs⟩ := Bool.and_eq_true_iff.mp havoid
    rw [runs, ihr _ _ hr]
    refine List.flatMap_congr fun a ha => ?_
    obtain ⟨⟨t, rfl⟩, -⟩ := mem_runs.mp ha
    rw [List.append_assoc, List.drop_left, List.drop_left, ihs _ _ hs]
  | alt r s ihr ihs =>
    obtain ⟨hr, hs⟩ := Bool.and_eq_true_iff.mp havoid
    rw [runs, runs, ihr _ _ hr, ihs _ _ hs]
  | group n r ih => rw [runs, runs, ih _ _ havoid]

theorem runs_prev (hprev : wordAt prev = wordAt prev') (rest : List Char) :
    runs r prev rest = runs r prev' rest := by
  induction r generalizing prev prev' rest with
  | chars p least most => rfl
  | boundary => rw [runs, runs, hprev]
  | seq r s ihr ihs =>
    rw [runs, ihr hprev]
    refine List.flatMap_congr fun a _ => ?_
    rw [ihs]
    cases a.text.getLast? with
    | none => exact hprev
    | some c => rfl
  | alt r s ihr ihs => rw [runs, runs, ihr hprev, ihs hprev]
  | group n r ih => rw [runs, runs, ih hprev]

theorem runs_nil (hr : r.consumes = true) (prev : Option Char) : runs r prev [] = [] := by
  refine List.eq_nil_iff_forall_not_mem.mpr fun a ha => ?_
  obtain ⟨hpre, hmatch⟩ := mem_runs.mp ha
  exact hmatch.ne_nil hr (List.prefix_nil.mp hpre)

theorem firstHit_prev (hprev : wordAt prev = wordAt prev') (rest : List Char) :
    firstHit r prev rest = firstHit r prev' rest := by
  cases rest with
  | nil | cons c rest => rw [firstHit, firstHit, runs_prev hprev]

/-- The search goes on behind a barrier when there is nothing in front of it. -/
theorem firstHit_barrier (hr : r.consumes = true) (h : Barrier r d) (prev : Option Char)
    (x y : List Char) : firstHit r prev (x ++ d :: y) =
      (firstHit r prev x).or ((firstHit r (some d) y).map fun found => (x ++ d :: found.1, found.2)) := by
  induction x generalizing prev with
  | nil =>
    have hhere : runs r prev (d :: y) = runs r prev [] := runs_barrier h prev [] y
    rw [List.nil_append, firstHit, firstHit, hhere, runs_nil hr]
    rfl
  | cons c x ih =>
    have hhere : runs r prev (c :: (x ++ d :: y)) = runs r prev (c :: x) :=
      runs_barrier h prev (c :: x) y
    rw [List.cons_append, firstHit, firstHit, hhere]
    cases (runs r prev (c :: x)).head? with
    | some a => rfl
    | none =>
      rw [ih]
      cases firstHit r (some c) x with
      | some found => rfl
      | none =>
        rw [Option.none_or, Option.map_map]
        rfl

theorem firstHit_length (hr : r.consumes = true) {gap : List Char}
    (h : firstHit r prev rest = some (gap, a)) :
    gap.length + a.text.length ≤ rest.length ∧ 0 < a.text.length := by
  obtain ⟨behind, rfl, hhead, -⟩ := firstHit_some h
  obtain ⟨hpre, hmatch⟩ := mem_runs.mp (List.mem_of_head? hhead)
  rw [List.length_append]
  exact ⟨Nat.add_le_add_left hpre.length_le _, List.length_pos_iff.mpr (hmatch.ne_nil hr)⟩

theorem getLast?_or {l : List Char} (h : l ≠ []) (u : Option Char) : l.getLast?.or u = l.getLast? := by
  rw [List.getLast?_eq_some_getLast h]
  rfl

theorem findIter_prev (hprev : wordAt prev = wordAt prev') (hr : r.consumes = true) (n : ℕ)
    (rest : List Char) : findIter r n prev rest = findIter r n prev' rest := by
  cases n with
  | zero => rfl
  | succ n =>
    rw [findIter, findIter, firstHit_prev hprev]
    cases hfirst : firstHit r prev' rest with
    | none => rfl
    | some found =>
      obtain ⟨gap, a⟩ := found
      have hne : a.text ≠ [] := List.length_pos_iff.mp (firstHit_length hr hfirst).2
      dsimp only
      rw [getLast?_or hne, getLast?_or hne]

theorem findIter_fuel (hr : r.consumes = true) {n m : ℕ} (hn : rest.length ≤ n) (hm : rest.length ≤ m) :
    findIter r n prev rest = findIter r m prev rest := by
  induction n generalizing m prev rest with
  | zero =>
    obtain rfl := List.length_eq_zero_iff.mp (Nat.le_zero.mp hn)
    cases m with
    | zero => rfl
    | succ m =>
      rw [findIter, findIter, firstHit, runs_nil hr]
      rfl
  | succ n ih =>
    cases m with
    | zero =>
      obtain rfl := List.length_eq_zero_iff.mp (Nat.le_zero.mp hm)
      rw [findIter, findIter, firstHit, runs_nil hr]
      rfl
    | succ m =>
      rw [findIter, findIter]
      cases hfirst : firstHit r prev rest with
      | none => rfl
      | some found =>
        obtain ⟨gap, a⟩ := found
        obtain ⟨hlen, hpos⟩ := firstHit_length hr hfirst
        dsimp only
        rw [ih (m := m) (by rw [List.length_drop]; omega) (by rw [List.length_drop]; omega)]

theorem output_cons (expand : Hit → List Char) (gap : List Char) (a : Hit)
    (found : List (List Char × Hit) × List Char) :
    output expand ((gap, a) :: found.1, found.2) = gap ++ (expand a ++ output expand found) := by
  simp only [output, List.flatMap_cons, List.append_assoc]

theorem output_barrier (hr : r.consumes = true) (h : Barrier r d) (expand : Hit → List Char)
    {n m k : ℕ} (hn : (x ++ d :: y).length ≤ n) (hm : x.length ≤ m) (hk : y.length ≤ k) :
    output expand (findIter r n prev (x ++ d :: y)) =
      output expand (findIter r m prev x) ++ d :: output expand (findIter r k (some d) y) := by
  induction n generalizing m x prev with
  | zero =>
    rw [List.length_append, List.length_cons] at hn
    omega
  | succ n ih =>
    rw [List.length_append, List.length_cons] at hn
    rw [findIter, firstHit_barrier hr h]
    cases hfirst : firstHit r prev x with
    | some found =>
      obtain ⟨gap, a⟩ := found
      obtain ⟨hlen, hpos⟩ := firstHit_length hr hfirst
      cases m with
      | zero => omega
      | succ m =>
        rw [findIter, hfirst, Option.some_or]
        have hdrop : (x ++ d :: y).drop (gap.length + a.text.length) =
            x.drop (gap.length + a.text.length) ++ d :: y := List.drop_append_of_le_length hlen
        rw [output_cons, output_cons, hdrop, ih (m := m), List.append_assoc, List.append_assoc]
        · rw [List.length_append, List.length_cons, List.length_drop]
          omega
        · rw [List.length_drop]
          omega
    | none =>
      have hfront : findIter r m prev x = ([], x) := by
        cases m with
        | zero => rfl
        | succ m => rw [findIter, hfirst]
      rw [hfront, Option.none_or]
      cases hnext : firstHit r (some d) y with
      | none =>
        have hbehind : findIter r k (some d) y = ([], y) := by
          cases k with
          | zero => rfl
          | succ k => rw [findIter, hnext]
        rw [hbehind]
        rfl
      | some found =>
        obtain ⟨gap, a⟩ := found
        obtain ⟨hlen, hpos⟩ := firstHit_length hr hnext
        have hne : a.text ≠ [] := List.length_pos_iff.mp hpos
        cases k with
        | zero => omega
        | succ k =>
          rw [Option.map_some, findIter, hnext]
          have hdrop : (x ++ d :: y).drop ((x ++ d :: gap).length + a.text.length) =
              y.drop (gap.length + a.text.length) := by
            have hlength : (x ++ d :: gap).length + a.text.length =
                x.length + (gap.length + a.text.length + 1) := by
              rw [List.length_append, List.length_cons]
              omega
            rw [hlength, List.drop_append]
            simp
          rw [output_cons, output_cons, hdrop, getLast?_or hne, getLast?_or hne,
            findIter_fuel hr (n := n) (m := k)]
          · simp [output]
          all_goals
            rw [List.length_drop]
            omega

theorem replaceAll_barrier (hr : r.consumes = true) (h : Barrier r d) (expand : Hit → List Char)
    (x y : List Char) :
    replaceAll r expand (x ++ d :: y) = replaceAll r expand x ++ d :: replaceAll r expand y := by
  have hprev : findIter r y.length none y = findIter r y.length (some d) y :=
    findIter_prev h.wordAt_eq hr y.length y
  rw [replaceAll, replaceAll, replaceAll, findAll, findAll, findAll, hprev]
  exact output_barrier hr h expand (Nat.le_refl _) (Nat.le_refl _) (Nat.le_refl _)

theorem free_barrier_iff (hr : r.consumes = true) (h : Barrier r d) :
    Free r (x ++ d :: y) ↔ Free r x ∧ Free r y := by
  constructor
  · intro hfree
    refine ⟨fun front a behind heq hmatch => ?_, fun front a behind heq hmatch => ?_⟩
    · refine hfree front a (behind ++ d :: y) (by rw [heq]; simp) (hmatch.congr rfl ?_)
      cases behind with
      | nil => exact h.wordAt_eq
      | cons c behind => rfl
    · refine hfree (x ++ d :: front) a behind (by rw [heq]; simp) (hmatch.congr ?_ rfl)
      exact (h.wordAt_getLast? x front).symm
  · intro ⟨hx, hy⟩ front a behind heq hmatch
    have hnot : d ∉ a.text := hmatch.not_mem h.avoided
    have hne : a.text ≠ [] := hmatch.ne_nil hr
    rw [List.append_eq_append_iff] at heq
    rcases heq with ⟨t, rfl, hrest⟩ | ⟨t, rfl, hrest⟩
    · cases t with
      | nil =>
        obtain ⟨c, text, htext⟩ := List.exists_cons_of_ne_nil hne
        rw [htext] at hrest hnot
        exact hnot ((List.cons.inj hrest).1 ▸ List.mem_cons_self)
      | cons c t =>
        obtain ⟨rfl, rfl⟩ := List.cons.inj hrest
        exact hy t a behind rfl (hmatch.congr (h.wordAt_getLast? x t) rfl)
    · rcases List.append_eq_append_iff.mp hrest with ⟨u, rfl, rfl⟩ | ⟨u, htext, hbehind⟩
      · refine hx front a u rfl (hmatch.congr rfl ?_)
        cases u with
        | nil => exact h.wordAt_eq.symm
        | cons c u => rfl
      · cases u with
        | nil =>
          rw [List.append_nil] at htext
          rw [List.nil_append] at hbehind
          refine hx front a [] (by rw [htext, List.append_nil]) (hmatch.congr rfl ?_)
          rw [← hbehind]
          exact h.wordAt_eq.symm
        | cons c u =>
          rw [htext, (List.cons.inj hbehind).1] at hnot
          exact absurd (List.mem_append_right t List.mem_cons_self) hnot

end Regex

end Vexcoder.Lib
