import Mathlib.Algebra.GroupWithZero.Nat
import Mathlib.Data.List.Basic

/-!
# Searching and replacing in lists

The searches a text scanner makes, over lists of any type:

* `findFirst p l` is the first offset whose suffix passes `p`; `find pat l` is the first
  occurrence of `pat`; `rfindElem x l` is the last offset of `x`;
* `replaceAll pat sub l` puts `sub` for the occurrences of `pat`, left to right and without overlap.

For each of them the lemmas below say what it does on `t ++ w`: when the answer is that of `w`
alone, and when it is already decided by `t`.
-/

namespace Vexcoder.Lib.Search

variable {α : Type*}

/-! ### The first suffix that passes a test -/

/-- The first offset `i` such that `p` holds of the suffix that starts there. -/
def findFirst (p : List α → Bool) : List α → Option ℕ
  | [] => if p [] then some 0 else none
  | a :: l => if p (a :: l) then some 0 else (findFirst p l).map (· + 1)

variable (p : List α → Bool) (pat l : List α)

theorem findFirst_eq_none_iff : findFirst p l = none ↔ ∀ i ≤ l.length, p (l.drop i) = false := by
  induction l with
  | nil => simp [findFirst]
  | cons a l ih =>
    simp only [findFirst]
    split
    · constructor
      · intro hn; cases hn
      · intro hall
        have := hall 0 (Nat.zero_le _)
        simp_all
    · rename_i h
      rw [Option.map_eq_none_iff, ih]
      constructor
      · intro hall i hi
        cases i with
        | zero => simpa using h
        | succ i => exact hall i (by simpa using hi)
      · intro hall i hi
        exact hall (i + 1) (by simpa using hi)

theorem findFirst_eq_some_iff (i : ℕ) :
    findFirst p l = some i ↔ i ≤ l.length ∧ p (l.drop i) = true ∧ ∀ j < i, p (l.drop j) = false := by
  induction l generalizing i with
  | nil =>
    simp only [findFirst, List.length_nil, List.drop_nil]
    split <;> rename_i h
    · constructor
      · intro hi; cases hi; exact ⟨Nat.le_refl _, h, fun j hj => absurd hj (Nat.not_lt_zero j)⟩
      · rintro ⟨hi, -, -⟩; rw [Nat.le_zero.mp hi]
    · constructor
      · intro hi; cases hi
      · rintro ⟨-, hp, -⟩; exact absurd hp h
  | cons a l ih =>
    simp only [findFirst]
    split <;> rename_i h
    · constructor
      · intro hi; cases hi
        exact ⟨Nat.zero_le _, h, fun j hj => absurd hj (Nat.not_lt_zero j)⟩
      · rintro ⟨-, -, hmin⟩
        cases i with
        | zero => rfl
        | succ i =>
          have := hmin 0 (Nat.succ_pos i)
          simp_all
    · rw [Option.map_eq_some_iff]
      constructor
      · rintro ⟨k, hk, rfl⟩
        obtain ⟨hle, hp, hmin⟩ := (ih k).mp hk
        refine ⟨by simpa using hle, hp, fun j hj => ?_⟩
        cases j with
        | zero => simpa using h
        | succ j => exact hmin j (by omega)
      · rintro ⟨hle, hp, hmin⟩
        cases i with
        | zero => exact absurd hp h
        | succ i =>
          exact ⟨i, (ih i).mpr ⟨by simpa using hle, hp, fun j hj => hmin (j + 1) (by omega)⟩, rfl⟩

theorem findFirst_append_right (t w : List α) (h : ∀ i < t.length, p (t.drop i ++ w) = false) :
    findFirst p (t ++ w) = (findFirst p w).map (· + t.length) := by
  induction t with
  | nil => simp
  | cons a t ih =>
    have h0 : p (a :: (t ++ w)) = false := by simpa using h 0 (by simp)
    have ht : ∀ i < t.length, p (t.drop i ++ w) = false := fun i hi => by
      simpa using h (i + 1) (by simpa using hi)
    simp only [List.cons_append, findFirst, h0, Bool.false_eq_true, if_false, ih ht, Option.map_map]
    congr 1

/-- The answer in `b` stays the answer in `b ++ c` when the tests that decided it do not change. -/
theorem findFirst_append_left (b c : List α) (i : ℕ) (hb : findFirst p b = some i)
    (hi : p (b.drop i ++ c) = true) (hlt : ∀ j < i, p (b.drop j ++ c) = false) :
    findFirst p (b ++ c) = some i := by
  obtain ⟨hle, -, -⟩ := (findFirst_eq_some_iff p b i).mp hb
  refine (findFirst_eq_some_iff p (b ++ c) i).mpr ⟨?_, ?_, fun j hj => ?_⟩
  · rw [List.length_append]; omega
  · rwa [List.drop_append_of_le_length hle]
  · rw [List.drop_append_of_le_length (by omega)]; exact hlt j hj

/-! ### Occurrences of a pattern -/

variable [DecidableEq α]

/-- The first offset at which `pat` occurs. -/
def find (pat l : List α) : Option ℕ := findFirst pat.isPrefixOf l

theorem isPrefixOf_false_iff : pat.isPrefixOf l = false ↔ ¬ pat <+: l := by
  rw [← Bool.not_eq_true, List.isPrefixOf_iff_prefix]

theorem find_eq_none_iff : find pat l = none ↔ ∀ i ≤ l.length, ¬ pat <+: l.drop i := by
  simp only [find, findFirst_eq_none_iff, isPrefixOf_false_iff]

theorem find_eq_some_iff (i : ℕ) :
    find pat l = some i ↔ i ≤ l.length ∧ pat <+: l.drop i ∧ ∀ j < i, ¬ pat <+: l.drop j := by
  simp only [find, findFirst_eq_some_iff, isPrefixOf_false_iff, List.isPrefixOf_iff_prefix]

variable {pat l t w x tag sub : List α} {i k : ℕ} {a : α}

theorem find_le (h : find pat l = some i) : i + pat.length ≤ l.length := by
  obtain ⟨hle, hp, -⟩ := (find_eq_some_iff pat l i).mp h
  have := hp.length_le
  rw [List.length_drop] at this
  omega

theorem find_split (h : find pat l = some i) : l = l.take i ++ pat ++ l.drop (i + pat.length) := by
  obtain ⟨-, ⟨r, hr⟩, -⟩ := (find_eq_some_iff pat l i).mp h
  have hd : l.drop (i + pat.length) = r := by
    rw [← List.drop_drop, ← hr, List.drop_left]
  rw [hd, List.append_assoc, hr, List.take_append_drop]

theorem find_take (h : find pat l = some i) : l.take (i + pat.length) = l.take i ++ pat := by
  obtain ⟨-, hp, -⟩ := (find_eq_some_iff pat l i).mp h
  rw [List.take_add, ← List.prefix_iff_eq_take.mp hp]

theorem find_append_right (h : ∀ i < t.length, ¬ pat <+: t.drop i ++ w) :
    find pat (t ++ w) = (find pat w).map (· + t.length) :=
  findFirst_append_right _ t w fun i hi => (isPrefixOf_false_iff _ _).mpr (h i hi)

omit [DecidableEq α] in
theorem prefix_of_append {c : List α} (h : pat <+: x ++ c) (hlen : pat.length ≤ x.length) : pat <+: x :=
  List.prefix_of_prefix_length_le h (List.prefix_append x c) hlen

theorem find_append_left {b : List α} (h : find pat b = some i) (c : List α) :
    find pat (b ++ c) = some i := by
  have hlen := find_le h
  obtain ⟨-, hp, hmin⟩ := (find_eq_some_iff pat b i).mp h
  refine findFirst_append_left _ b c i h ?_ fun j hj => ?_
  · exact List.isPrefixOf_iff_prefix.mpr (hp.trans (List.prefix_append _ _))
  · refine (isPrefixOf_false_iff _ _).mpr fun hpre => hmin j hj (prefix_of_append hpre ?_)
    rw [List.length_drop]
    omega

/-! ### Patterns whose head occurs only once -/

/-- `pat` starts with `a`, and `a` occurs nowhere else in it. -/
def HeadOnce (a : α) (pat : List α) : Prop := ∃ r, pat = a :: r ∧ a ∉ r

omit [DecidableEq α] in
/-- Such a pattern cannot reach into a text that is empty or starts with `a` again. -/
theorem HeadOnce.fits (h : HeadOnce a pat) (hx : x ≠ []) (hw : ∀ b ∈ w.head?, b = a)
    (hp : pat <+: x ++ w) : pat.length ≤ x.length := by
  obtain ⟨r, rfl, hr⟩ := h
  by_contra hlt
  obtain ⟨y, hy⟩ : x <+: a :: r :=
    List.prefix_of_prefix_length_le (List.prefix_append x w) hp (by omega)
  obtain ⟨c, x', rfl⟩ := List.exists_cons_of_ne_nil hx
  obtain ⟨-, rfl⟩ : c = a ∧ x' ++ y = r := by simpa using hy
  cases y with
  | nil => simp at hlt
  | cons b y =>
    have hpre : y.length + 1 + (x'.length + 1) ≤ (x'.length + 1) + w.length := by
      have := hp.length_le
      simp only [List.length_cons, List.length_append] at this
      omega
    cases w with
    | nil =>
      simp only [List.length_nil] at hpre
      omega
    | cons b' w =>
      have hb' : b' = a := hw b' rfl
      have hbb : b = b' := by
        obtain ⟨z, hz⟩ := hp
        simp only [List.cons_append, List.append_assoc, List.cons.injEq] at hz
        exact (List.cons.inj (List.append_cancel_left hz.2)).1
      exact hr (by simp [hbb, hb'])

/-! ### The last offset of an element -/

/-- The last offset of `x`. -/
def rfindElem (x : α) : List α → Option ℕ
  | [] => none
  | a :: l =>
    match rfindElem x l with
    | some i => some (i + 1)
    | none => if a = x then some 0 else none

theorem rfindElem_eq_none_iff (x : α) (l : List α) : rfindElem x l = none ↔ x ∉ l := by
  induction l with
  | nil => simp [rfindElem]
  | cons a l ih =>
    simp only [rfindElem, List.mem_cons, not_or]
    cases h : rfindElem x l with
    | some i =>
      rw [h] at ih
      have hx : ¬ x ∉ l := fun hn => Option.some_ne_none i (ih.mpr hn)
      simp [hx]
    | none =>
      have hx : x ∉ l := ih.mp h
      simp [hx, eq_comm]

/-- The last offset splits the list at an `x` after which there is none. -/
theorem rfindElem_eq_some {x : α} (h : rfindElem x l = some i) :
    ∃ r, l.drop i = x :: r ∧ x ∉ r ∧ i < l.length := by
  induction l generalizing i with
  | nil => cases h
  | cons a l ih =>
    simp only [rfindElem] at h
    cases hl : rfindElem x l with
    | some k =>
      rw [hl] at h
      obtain rfl : k + 1 = i := by simpa using h
      obtain ⟨r, hr, hx, hlt⟩ := ih hl
      exact ⟨r, by simpa using hr, hx, by simpa using hlt⟩
    | none =>
      rw [hl] at h
      by_cases ha : a = x
      · obtain rfl : 0 = i := by simpa [ha] using h
        exact ⟨l, by simp [ha], (rfindElem_eq_none_iff x l).mp hl, by simp⟩
      · simp [ha] at h

theorem rfindElem_append_right {x : α} (t : List α) (h : rfindElem x w = some i) :
    rfindElem x (t ++ w) = some (t.length + i) := by
  induction t with
  | nil => simpa using h
  | cons a t ih =>
    simp only [List.cons_append, rfindElem, ih, List.length_cons, Option.some.injEq]
    omega

/-! ### Replacing every occurrence -/

/-- `replaceFrom pat sub k l`: skip `k` elements, then put `sub` for each occurrence of `pat`. -/
def replaceFrom (pat sub : List α) : ℕ → List α → List α
  | _, [] => []
  | k + 1, _ :: l => replaceFrom pat sub k l
  | 0, a :: l =>
    if pat <+: a :: l then sub ++ replaceFrom pat sub (pat.length - 1) l
    else a :: replaceFrom pat sub 0 l

/-- Put `sub` for the occurrences of `pat`, from left to right and without overlap. -/
def replaceAll (pat sub l : List α) : List α := replaceFrom pat sub 0 l

/-- No occurrence of `pat` in `t ++ w` starts in `t` and ends in `w`. -/
def NoStraddle (pat t w : List α) : Prop :=
  ∀ i < t.length, pat <+: t.drop i ++ w → i + pat.length ≤ t.length

omit [DecidableEq α] in
theorem NoStraddle.tail (h : NoStraddle pat (a :: t) w) : NoStraddle pat t w := by
  intro i hi hp
  have := h (i + 1) (by simpa using hi) (by simpa using hp)
  simp only [List.length_cons] at this
  omega

omit [DecidableEq α] in
theorem HeadOnce.noStraddle (h : HeadOnce a pat) (hw : ∀ b ∈ w.head?, b = a) :
    NoStraddle pat t w := by
  intro i hi hp
  have := h.fits (by simpa using hi) hw hp
  rw [List.length_drop] at this
  omega

omit [DecidableEq α] in
theorem NoStraddle.of_prefix {q : List α} (h : NoStraddle pat t w) (hq : q <+: w) :
    NoStraddle pat t q := by
  intro i hi hp
  exact h i hi (hp.trans ((List.prefix_append_right_inj _).mpr hq))

theorem replaceFrom_append (sub : List α) (hk : k ≤ t.length) (h : NoStraddle pat t w) :
    replaceFrom pat sub k (t ++ w) = replaceFrom pat sub k t ++ replaceAll pat sub w := by
  induction t generalizing k with
  | nil =>
    obtain rfl : k = 0 := by simpa using hk
    rfl
  | cons a t ih =>
    cases k with
    | succ k =>
      exact ih (by simpa using hk) h.tail
    | zero =>
      simp only [List.cons_append, replaceFrom]
      by_cases hp : pat <+: a :: (t ++ w)
      · have hlen : pat.length ≤ (a :: t).length := by
          have := h 0 (by simp) (by simpa using hp)
          omega
        have hp' : pat <+: a :: t := prefix_of_append (c := w) (by simpa using hp) hlen
        rw [if_pos hp, if_pos hp', ih (by simp only [List.length_cons] at hlen; omega) h.tail,
          List.append_assoc]
      · have hp' : ¬ pat <+: a :: t := fun hq =>
          hp (hq.trans (List.prefix_append (a :: t) w))
        rw [if_neg hp, if_neg hp', ih (Nat.zero_le _) h.tail, List.cons_append]

theorem replaceAll_append (sub : List α) (h : NoStraddle pat t w) :
    replaceAll pat sub (t ++ w) = replaceAll pat sub t ++ replaceAll pat sub w :=
  replaceFrom_append sub (Nat.zero_le _) h

/-- The end of the result comes from an end of the list: what is written at its start was read
where no occurrence was being skipped. -/
theorem replaceFrom_suffix {z : List α} (hx : x ≠ []) (h : replaceFrom pat [] k l = z ++ x) :
    ∃ s, s <:+ l ∧ replaceAll pat [] s = x := by
  induction l generalizing k z with
  | nil => simp_all [replaceFrom]
  | cons a l ih =>
    have grow : (∃ s, s <:+ l ∧ replaceAll pat [] s = x) →
        ∃ s, s <:+ a :: l ∧ replaceAll pat [] s = x := fun ⟨s, hs, he⟩ =>
      ⟨s, hs.trans (List.suffix_cons a l), he⟩
    cases k with
    | succ k => exact grow (ih (by simpa [replaceFrom] using h))
    | zero =>
      by_cases hp : pat <+: a :: l
      · rw [replaceFrom, if_pos hp] at h
        exact grow (ih h)
      rw [replaceFrom, if_neg hp] at h
      cases z with
      | nil =>
        refine ⟨a :: l, List.suffix_refl _, ?_⟩
        rw [replaceAll, replaceFrom, if_neg hp]
        simpa using h
      | cons b z => exact grow (ih (by simpa using (List.cons.inj h).2))

theorem replaceAll_suffix {z : List α} (hx : x ≠ []) (h : replaceAll pat [] l = z ++ x) :
    ∃ s, s <:+ l ∧ replaceAll pat [] s = x :=
  replaceFrom_suffix hx h

theorem replaceAll_eq_self (sub : List α) (h : ∀ i < l.length, ¬ pat <+: l.drop i) :
    replaceAll pat sub l = l := by
  induction l with
  | nil => rfl
  | cons a l ih =>
    have h0 : ¬ pat <+: a :: l := by simpa using h 0 (by simp)
    have ht : replaceAll pat sub l = l := ih fun i hi => by
      simpa using h (i + 1) (by simpa using hi)
    simp only [replaceAll] at ht
    simp only [replaceAll, replaceFrom, if_neg h0, ht]

/-! ### Occurrences -/

omit [DecidableEq α] in
theorem infix_iff_drop : pat <:+: l ↔ ∃ i ≤ l.length, pat <+: l.drop i := by
  constructor
  · rintro ⟨s, t, rfl⟩
    refine ⟨s.length, by simp, ?_⟩
    rw [List.append_assoc, List.drop_left]
    exact List.prefix_append _ _
  · rintro ⟨i, -, hpre⟩
    exact hpre.isInfix.trans (List.drop_suffix i l).isInfix

theorem find_eq_none_iff_not_inside : find pat l = none ↔ ¬ pat <:+: l := by
  rw [find_eq_none_iff, infix_iff_drop]
  constructor
  · rintro h ⟨i, hi, hpre⟩
    exact h i hi hpre
  · intro h i hi hpre
    exact h ⟨i, hi, hpre⟩

theorem not_infix_take {n : ℕ} (hpat : pat ≠ []) (h : find pat l = some i) (hn : n ≤ i) :
    ¬ pat <:+: l.take n := by
  intro hin
  obtain ⟨j, -, r, hr⟩ := infix_iff_drop.mp hin
  have hlen := congrArg List.length hr
  rw [List.length_append, List.length_drop, List.length_take] at hlen
  have hpos := List.length_pos_iff.mpr hpat
  refine ((find_eq_some_iff pat l i).mp h).2.2 j (by omega) ⟨r ++ l.drop n, ?_⟩
  rw [← List.append_assoc, hr, ← List.drop_append_of_le_length (by rw [List.length_take]; omega),
    List.take_append_drop]

omit [DecidableEq α] in
/-- An occurrence does not reach over an item that is not in the pattern. -/
theorem prefix_of_barrier {y : List α} (ha : a ∉ pat) (h : pat <+: x ++ a :: y) : pat <+: x := by
  refine prefix_of_append h ?_
  by_contra hlen
  obtain ⟨r, hr⟩ := h
  have hget : (pat ++ r)[x.length]? = some a := by
    rw [hr, List.getElem?_append_right (Nat.le_refl _), Nat.sub_self]
    rfl
  rw [List.getElem?_append_left (by omega)] at hget
  exact ha (List.mem_of_getElem? hget)

theorem find_behind (h : ∀ i < t.length, ¬ pat <+: t.drop i ++ w) (hw : pat <+: w) :
    find pat (t ++ w) = some t.length := by
  have hzero : find pat w = some 0 :=
    (find_eq_some_iff pat w 0).mpr ⟨Nat.zero_le _, hw, fun j hj => absurd hj (Nat.not_lt_zero j)⟩
  rw [find_append_right h, hzero]
  simp

omit [DecidableEq α] in
/-- No occurrence starts in a text without the first item of the pattern. -/
theorem not_prefix_of_head (hhead : pat.head? = some a) (ht : a ∉ t) (w : List α) :
    ∀ i < t.length, ¬ pat <+: t.drop i ++ w := by
  intro i hi hpre
  obtain ⟨r, rfl⟩ := List.head?_eq_some_iff.mp hhead
  obtain ⟨c, s, hc⟩ := List.exists_cons_of_ne_nil (show t.drop i ≠ [] by simpa using hi)
  obtain ⟨z, hz⟩ := hpre
  rw [hc, List.cons_append, List.cons_append] at hz
  obtain rfl := (List.cons.inj hz).1
  exact ht (List.mem_of_mem_drop (hc ▸ List.mem_cons_self))

omit [DecidableEq α] in
theorem not_prefix_append {u : List α} (ht : ∀ i < t.length, ¬ pat <+: t.drop i ++ (u ++ w))
    (hu : ∀ i < u.length, ¬ pat <+: u.drop i ++ w) :
    ∀ i < (t ++ u).length, ¬ pat <+: (t ++ u).drop i ++ w := by
  intro i hi hpre
  rw [List.length_append] at hi
  rcases Nat.lt_or_ge i t.length with hlt | hge
  · rw [List.drop_append_of_le_length (Nat.le_of_lt hlt), List.append_assoc] at hpre
    exact ht i hlt hpre
  · obtain ⟨k, rfl⟩ := Nat.exists_eq_add_of_le hge
    rw [List.drop_append, List.drop_of_length_le hge, Nat.add_sub_cancel_left] at hpre
    exact hu k (by omega) hpre

omit [DecidableEq α] in
/-- In a text that has the first item of the pattern at its start only, the pattern starts nowhere when
it is not there. -/
theorem not_prefix_of_headOnce (hhead : pat.head? = some a) (ht : HeadOnce a t)
    (hlen : pat.length ≤ t.length) (hno : ¬ pat <+: t) (w : List α) :
    ∀ i < t.length, ¬ pat <+: t.drop i ++ w := by
  obtain ⟨r, rfl, hr⟩ := ht
  intro i hi hpre
  cases i with
  | zero => exact hno (prefix_of_append hpre hlen)
  | succ i => exact not_prefix_of_head hhead hr w i (Nat.lt_of_succ_lt_succ hi) hpre

omit [DecidableEq α] in
theorem infix_of_append (hno : ∀ a ∈ sub, a ∉ tag) (h : tag <:+: sub ++ l) : tag <:+: l := by
  induction sub with
  | nil => exact h
  | cons b sub ih =>
    have htail := ih fun a ha => hno a (List.mem_cons_of_mem _ ha)
    rcases List.infix_cons_iff.mp h with hpre | hin
    · cases tag with
      | nil => exact List.nil_infix
      | cons c tag =>
        obtain ⟨rfl, -⟩ := List.cons_prefix_cons.mp hpre
        exact absurd List.mem_cons_self (hno c List.mem_cons_self)
    · exact htail hin

theorem prefix_of_replaceFrom (hsub : sub ≠ []) (hno : ∀ a ∈ sub, a ∉ tag)
    (h : tag <+: replaceFrom pat sub k l) : tag <+: l.drop k := by
  induction l generalizing k tag with
  | nil => simpa [replaceFrom] using h
  | cons a l ih =>
    cases tag with
    | nil => exact List.nil_prefix
    | cons c tag =>
      cases k with
      | succ k => exact ih hno h
      | zero =>
        rw [replaceFrom] at h
        split at h
        · obtain ⟨b, sub, rfl⟩ := List.exists_cons_of_ne_nil hsub
          obtain ⟨rfl, -⟩ := List.cons_prefix_cons.mp h
          exact absurd List.mem_cons_self (hno c List.mem_cons_self)
        · obtain ⟨rfl, htail⟩ := List.cons_prefix_cons.mp h
          have hrest : ∀ b ∈ sub, b ∉ tag := fun b hb hmem =>
            hno b hb (List.mem_cons_of_mem _ hmem)
          exact List.cons_prefix_cons.mpr ⟨rfl, ih hrest htail⟩

theorem infix_of_replaceFrom (hsub : sub ≠ []) (hno : ∀ a ∈ sub, a ∉ tag)
    (h : tag <:+: replaceFrom pat sub k l) : tag <:+: l := by
  induction l generalizing k with
  | nil => simpa [replaceFrom] using h
  | cons a l ih =>
    have grow (h : tag <:+: l) : tag <:+: a :: l := h.trans (List.suffix_cons a l).isInfix
    cases k with
    | succ k => exact grow (ih h)
    | zero =>
      have hpre : tag <+: replaceFrom pat sub 0 (a :: l) → tag <+: a :: l :=
        prefix_of_replaceFrom hsub hno
      rw [replaceFrom] at h hpre
      split at h
      · exact grow (ih (infix_of_append hno h))
      rename_i hp
      rw [if_neg hp] at hpre
      rcases List.infix_cons_iff.mp h with h | h
      · exact (hpre h).isInfix
      · exact grow (ih h)

end Vexcoder.Lib.Search
