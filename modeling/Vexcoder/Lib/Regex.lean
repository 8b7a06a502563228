import Mathlib.Data.List.Basic

/-!
# Regular expressions

Expressions of repeated character classes, word boundaries, sequences, alternatives and groups, with the
semantics that the crate `regex-lite` documents: leftmost-first, as a backtracking matcher finds a match,
greedy repetitions, and words, blanks and letter case of ASCII only.  `runs` gives what an expression can
take at a place, in the order in which such a matcher prefers it, and `Matches` says what a taken text is,
apart from that order: the two agree by `mem_runs`.

A word boundary looks at the characters next to the text, and nothing else does.  So a match stays one
between other neighbours (`Matches.weaken_next`, `Matches.weaken_prev`).
-/

namespace Vexcoder.Lib

inductive Regex where
  | chars (p : Char → Bool) (least : ℕ) (most : Option ℕ)
  | boundary
  | seq (r s : Regex)
  | alt (r s : Regex)
  | group (n : ℕ) (r : Regex)

namespace Regex

/-- What was taken, with the numbered groups of it. -/
structure Hit where
  text : List Char := []
  groups : List (ℕ × List Char) := []

def Hit.append (a b : Hit) : Hit := { text := a.text ++ b.text, groups := a.groups ++ b.groups }

def Hit.captured (n : ℕ) (a : Hit) : Hit := { a with groups := (n, a.text) :: a.groups }

def Hit.group (a : Hit) (n : ℕ) : List Char := ((a.groups.find? fun g => g.1 = n).map Prod.snd).getD []

def isWordChar (c : Char) : Bool := c.isAlphanum || c == '_'

def wordAt (c : Option Char) : Bool := c.any isWordChar

/-- How many characters of a class may be taken: the most first. -/
def counts (p : Char → Bool) (least : ℕ) (most : Option ℕ) (rest : List Char) : List ℕ :=
  let run := (rest.takeWhile p).length
  let greatest := most.elim run (min run)
  (List.range (greatest + 1 - least)).map fun i => greatest - i

/-- What can be taken from the front of `rest`, where `prev` is in front of it. -/
def runs : Regex → Option Char → List Char → List Hit
  | .chars p least most, _, rest => (counts p least most rest).map fun n => { text := rest.take n }
  | .boundary, prev, rest => if wordAt prev ≠ wordAt rest.head? then [{}] else []
  | .seq r s, prev, rest =>
    (runs r prev rest).flatMap fun a =>
      (runs s (a.text.getLast?.or prev) (rest.drop a.text.length)).map a.append
  | .alt r s, prev, rest => runs r prev rest ++ runs s prev rest
  | .group n r, prev, rest => (runs r prev rest).map (Hit.captured n)

def Matches : Regex → Option Char → Hit → Option Char → Prop
  | .chars p least most, _, a, _ =>
    a.groups = [] ∧ (∀ c ∈ a.text, p c = true) ∧ least ≤ a.text.length ∧ ∀ bound ∈ most, a.text.length ≤ bound
  | .boundary, prev, a, next => a = {} ∧ wordAt prev ≠ wordAt next
  | .seq r s, prev, a, next => ∃ b c, a = b.append c ∧ Matches r prev b (c.text.head?.or next) ∧
    Matches s (b.text.getLast?.or prev) c next
  | .alt r s, prev, a, next => Matches r prev a next ∨ Matches s prev a next
  | .group n r, prev, a, next => ∃ b, a = b.captured n ∧ Matches r prev b next

/-- Every match takes a character. -/
def consumes : Regex → Bool
  | .chars _ least _ => 0 < least
  | .boundary => false
  | .seq r s => r.consumes || s.consumes
  | .alt r s => r.consumes && s.consumes
  | .group _ r => r.consumes

def anchored : Regex → Bool
  | .chars _ _ _ => false
  | .boundary => true
  | .seq r s => r.anchored || s.anchored
  | .alt r s => r.anchored || s.anchored
  | .group _ r => r.anchored

def avoids (d : Char) : Regex → Bool
  | .chars p _ _ => !p d
  | .boundary => true
  | .seq r s => r.avoids d && s.avoids d
  | .alt r s => r.avoids d && s.avoids d
  | .group _ r => r.avoids d

def plain : Regex → Bool
  | .chars _ _ _ => true
  | .boundary => true
  | .seq r s => r.plain && s.plain
  | .alt r s => r.plain && s.plain
  | .group _ _ => false

def literalBy (same : Char → Char → Bool) : List Char → Regex
  | [] => .chars (fun _ => false) 0 none
  | c :: word => .seq (.chars (same c) 1 (some 1)) (literalBy same word)

def literal (word : String) : Regex := literalBy (fun c d => c == d) word.toList

/-- `(?i)` for letters of ASCII -/
def literalIgnoreCase (word : String) : Regex :=
  literalBy (fun c d => c.toLower == d.toLower) word.toList

variable {r s : Regex} {prev prev' next next' : Option Char} {a b : Hit} {rest : List Char}

@[simp] theorem Hit.append_text : (a.append b).text = a.text ++ b.text := rfl

@[simp] theorem Hit.append_groups : (a.append b).groups = a.groups ++ b.groups := rfl

@[simp] theorem Hit.captured_text (n : ℕ) : (a.captured n).text = a.text := rfl

/-! ### Runs are matches -/

theorem mem_counts {p : Char → Bool} {least n : ℕ} {most : Option ℕ} :
    n ∈ counts p least most rest ↔ least ≤ n ∧ n ≤ (rest.takeWhile p).length ∧ ∀ bound ∈ most, n ≤ bound := by
  rw [counts, List.mem_map]
  simp only [List.mem_range]
  cases most with
  | none =>
    simp only [Option.elim_none]
    constructor
    · rintro ⟨i, hi, rfl⟩
      exact ⟨by omega, by omega, nofun⟩
    · rintro ⟨hleast, hrun, -⟩
      exact ⟨(rest.takeWhile p).length - n, by omega, by omega⟩
  | some bound =>
    simp only [Option.elim_some, Option.mem_def, Option.some.injEq, forall_eq']
    constructor
    · rintro ⟨i, hi, rfl⟩
      exact ⟨by omega, by omega, by omega⟩
    · rintro ⟨hleast, hrun, hbound⟩
      exact ⟨min (rest.takeWhile p).length bound - n, by omega, by omega⟩

theorem all_take_iff {p : Char → Bool} {n : ℕ} (hn : n ≤ rest.length) :
    (∀ c ∈ rest.take n, p c = true) ↔ n ≤ (rest.takeWhile p).length := by
  induction rest generalizing n with
  | nil =>
    rw [List.length_nil, Nat.le_zero] at hn
    subst hn
    exact ⟨fun _ => Nat.zero_le _, fun _ c hc => by cases hc⟩
  | cons c rest ih =>
    cases n with
    | zero => exact ⟨fun _ => Nat.zero_le _, fun _ c hc => by cases hc⟩
    | succ n =>
      rw [List.take_succ_cons, List.forall_mem_cons, List.takeWhile_cons]
      have hn' : n ≤ rest.length := Nat.le_of_succ_le_succ hn
      split
      · rename_i hc
        rw [ih hn', List.length_cons, Nat.succ_le_succ_iff]
        exact ⟨fun h => h.2, fun h => ⟨hc, h⟩⟩
      · rename_i hc
        exact ⟨fun h => absurd h.1 hc, fun h => absurd h (Nat.not_succ_le_zero n)⟩

theorem mem_runs_chars {p : Char → Bool} {least : ℕ} {most : Option ℕ} :
    a ∈ runs (.chars p least most) prev rest ↔
      a.text <+: rest ∧ Matches (.chars p least most) prev a next := by
  rw [runs, List.mem_map]
  constructor
  · rintro ⟨n, hn, rfl⟩
    obtain ⟨hleast, hrun, hmost⟩ := mem_counts.mp hn
    have hlen : n ≤ rest.length := Nat.le_trans hrun (List.takeWhile_sublist p).length_le
    have htake : (rest.take n).length = n := List.length_take_of_le hlen
    refine ⟨List.take_prefix n rest, rfl, (all_take_iff hlen).mpr hrun, ?_, ?_⟩
    · rw [htake]
      exact hleast
    · rw [htake]
      exact hmost
  · rintro ⟨hpre, hgroups, hall, hleast, hmost⟩
    have htake : rest.take a.text.length = a.text := (List.prefix_iff_eq_take.mp hpre).symm
    refine ⟨a.text.length, mem_counts.mpr ⟨hleast, ?_, hmost⟩, ?_⟩
    · rw [← all_take_iff hpre.length_le, htake]
      exact hall
    · rw [htake]
      cases a
      cases hgroups
      rfl

theorem mem_runs : a ∈ runs r prev rest ↔
    a.text <+: rest ∧ Matches r prev a (rest.drop a.text.length).head? := by
  induction r generalizing prev rest a with
  | chars p least most => exact mem_runs_chars
  | boundary =>
    rw [runs]
    split
    · rename_i hword
      constructor
      · intro h
        obtain rfl := List.mem_singleton.mp h
        exact ⟨List.nil_prefix, rfl, hword⟩
      · rintro ⟨-, rfl, -⟩
        exact List.mem_singleton.mpr rfl
    · rename_i hword
      constructor
      · exact nofun
      · rintro ⟨-, rfl, hne⟩
        exact absurd hne hword
  | seq r s ihr ihs =>
    rw [runs, List.mem_flatMap]
    constructor
    · rintro ⟨b, hb, ha⟩
      obtain ⟨c, hc, rfl⟩ := List.mem_map.mp ha
      obtain ⟨hbpre, hbm⟩ := ihr.mp hb
      obtain ⟨⟨behind, hcpre⟩, hcm⟩ := ihs.mp hc
      obtain ⟨t, rfl⟩ := hbpre
      rw [List.drop_left] at hcpre hcm hbm
      subst hcpre
      rw [List.drop_left] at hcm
      rw [List.head?_append] at hbm
      refine ⟨⟨behind, by rw [Hit.append_text, List.append_assoc]⟩, b, c, rfl, ?_, ?_⟩ <;>
        rw [Hit.append_text, ← List.append_assoc, List.drop_left]
      · exact hbm
      · exact hcm
    · rintro ⟨⟨behind, rfl⟩, b, c, rfl, hb, hc⟩
      rw [List.drop_left] at hb hc
      rw [Hit.append_text, List.append_assoc]
      refine ⟨b, ihr.mpr ⟨List.prefix_append _ _, ?_⟩, List.mem_map.mpr ⟨c, ihs.mpr ⟨?_, ?_⟩, rfl⟩⟩
      · rw [List.drop_left, List.head?_append]
        exact hb
      · rw [List.drop_left]
        exact List.prefix_append _ _
      · rw [List.drop_left, List.drop_left]
        exact hc
  | alt r s ihr ihs =>
    rw [runs, List.mem_append, ihr, ihs, ← and_or_left]
    rfl
  | group n r ih =>
    rw [runs, List.mem_map]
    constructor
    · rintro ⟨b, hb, rfl⟩
      obtain ⟨hpre, hm⟩ := ih.mp hb
      exact ⟨hpre, b, rfl, hm⟩
    · rintro ⟨hpre, b, rfl, hm⟩
      exact ⟨b, ih.mpr ⟨hpre, hm⟩, rfl⟩

/-! ### Matches between other neighbours -/

theorem Matches.ne_nil (h : Matches r prev a next) (hr : r.consumes = true) : a.text ≠ [] := by
  induction r generalizing prev a next with
  | chars p least most =>
    obtain ⟨-, -, hleast, -⟩ := h
    have hpos : 0 < least := of_decide_eq_true hr
    exact List.ne_nil_of_length_pos (Nat.lt_of_lt_of_le hpos hleast)
  | boundary => cases hr
  | seq r s ihr ihs =>
    obtain ⟨b, c, rfl, hb, hc⟩ := h
    rcases Bool.or_eq_true_iff.mp hr with hr | hs
    · exact List.append_ne_nil_of_left_ne_nil (ihr hb hr) _
    · exact List.append_ne_nil_of_right_ne_nil _ (ihs hc hs)
  | alt r s ihr ihs =>
    obtain ⟨hr, hs⟩ := Bool.and_eq_true_iff.mp hr
    rcases h with h | h
    · exact ihr h hr
    · exact ihs h hs
  | group n r ih =>
    obtain ⟨b, rfl, hb⟩ := h
    show b.text ≠ []
    exact ih hb hr

/-- Behind a match there may be another neighbour, unless a boundary goes by that. -/
theorem Matches.weaken_next (h : Matches r prev a next)
    (hnext : r.anchored = true → wordAt (a.text.getLast?.or prev) ≠ wordAt next →
      wordAt (a.text.getLast?.or prev) ≠ wordAt next') : Matches r prev a next' := by
  induction r generalizing prev a next next' with
  | chars p least most => exact h
  | boundary =>
    obtain ⟨rfl, hne⟩ := h
    exact ⟨rfl, hnext rfl hne⟩
  | seq r s ihr ihs =>
    obtain ⟨b, c, rfl, hb, hc⟩ := h
    rw [Hit.append_text, List.getLast?_append, Option.or_assoc] at hnext
    refine ⟨b, c, rfl, ihr hb fun hr hne => ?_, ihs hc fun hs hne => ?_⟩
    · cases hctext : c.text with
      | nil =>
        rw [hctext] at hnext hne
        exact hnext (Bool.or_eq_true_iff.mpr (Or.inl hr)) hne
      | cons d text =>
        rw [hctext] at hne
        exact hne
    · exact hnext (Bool.or_eq_true_iff.mpr (Or.inr hs)) hne
  | alt r s ihr ihs =>
    rcases h with h | h
    · exact Or.inl (ihr h fun hr => hnext (Bool.or_eq_true_iff.mpr (Or.inl hr)))
    · exact Or.inr (ihs h fun hs => hnext (Bool.or_eq_true_iff.mpr (Or.inr hs)))
  | group n r ih =>
    obtain ⟨b, rfl, hb⟩ := h
    exact ⟨b, rfl, ih hb hnext⟩

/-- So may be in front of it. -/
theorem Matches.weaken_prev (h : Matches r prev a next)
    (hprev : r.anchored = true → wordAt prev ≠ wordAt (a.text.head?.or next) →
      wordAt prev' ≠ wordAt (a.text.head?.or next)) : Matches r prev' a next := by
  induction r generalizing prev prev' a next with
  | chars p least most => exact h
  | boundary =>
    obtain ⟨rfl, hne⟩ := h
    exact ⟨rfl, hprev rfl hne⟩
  | seq r s ihr ihs =>
    obtain ⟨b, c, rfl, hb, hc⟩ := h
    rw [Hit.append_text, List.head?_append, Option.or_assoc] at hprev
    refine ⟨b, c, rfl, ihr hb fun hr hne => ?_, ihs hc fun hs hne => ?_⟩
    · exact hprev (Bool.or_eq_true_iff.mpr (Or.inl hr)) hne
    · rcases hbtext : b.text.eq_nil_or_concat' with hnil | ⟨front, d, htext⟩
      · rw [hnil] at hprev hne ⊢
        exact hprev (Bool.or_eq_true_iff.mpr (Or.inr hs)) hne
      · rw [htext, List.getLast?_concat] at hne ⊢
        exact hne
  | alt r s ihr ihs =>
    rcases h with h | h
    · exact Or.inl (ihr h fun hr => hprev (Bool.or_eq_true_iff.mpr (Or.inl hr)))
    · exact Or.inr (ihs h fun hs => hprev (Bool.or_eq_true_iff.mpr (Or.inr hs)))
  | group n r ih =>
    obtain ⟨b, rfl, hb⟩ := h
    exact ⟨b, rfl, ih hb hprev⟩

theorem Matches.congr (h : Matches r prev a next) (hprev : wordAt prev = wordAt prev')
    (hnext : wordAt next = wordAt next') : Matches r prev' a next' := by
  have hweak : Matches r prev' a next := by
    apply h.weaken_prev
    intro _ hne
    rw [← hprev]
    exact hne
  apply hweak.weaken_next
  intro _ hne
  rw [← hnext]
  exact hne

theorem Matches.context (h : Matches r prev a next) (hr : r.anchored = false)
    (prev' next' : Option Char) : Matches r prev' a next' := by
  refine (h.weaken_prev fun hanchored => ?_).weaken_next fun hanchored => ?_ <;>
  · rw [hr] at hanchored
    cases hanchored

theorem Matches.not_mem {d : Char} (h : Matches r prev a next) (hr : r.avoids d = true) : d ∉ a.text := by
  induction r generalizing prev a next with
  | chars p least most =>
    intro hd
    have hp : p d = false := by simpa only [avoids, Bool.not_eq_true'] using hr
    rw [h.2.1 d hd] at hp
    cases hp
  | boundary =>
    obtain ⟨rfl, -⟩ := h
    exact List.not_mem_nil
  | seq r s ihr ihs =>
    obtain ⟨b, c, rfl, hb, hc⟩ := h
    obtain ⟨hr, hs⟩ := Bool.and_eq_true_iff.mp hr
    intro hd
    rcases List.mem_append.mp hd with hd | hd
    · exact ihr hb hr hd
    · exact ihs hc hs hd
  | alt r s ihr ihs =>
    obtain ⟨hr, hs⟩ := Bool.and_eq_true_iff.mp hr
    rcases h with h | h
    · exact ihr h hr
    · exact ihs h hs
  | group n r ih =>
    obtain ⟨b, rfl, hb⟩ := h
    show d ∉ b.text
    exact ih hb hr

theorem Matches.groups_eq_nil (h : Matches r prev a next) (hr : r.plain = true) : a.groups = [] := by
  induction r generalizing prev a next with
  | chars p least most => exact h.1
  | boundary =>
    obtain ⟨rfl, -⟩ := h
    rfl
  | seq r s ihr ihs =>
    obtain ⟨b, c, rfl, hb, hc⟩ := h
    obtain ⟨hr, hs⟩ := Bool.and_eq_true_iff.mp hr
    rw [Hit.append_groups, ihr hb hr, ihs hc hs, List.append_nil]
  | alt r s ihr ihs =>
    obtain ⟨hr, hs⟩ := Bool.and_eq_true_iff.mp hr
    rcases h with h | h
    · exact ihr h hr
    · exact ihs h hs
  | group n r ih => cases hr

theorem text_of_literal {word : String} (h : Matches (literal word) prev a next) : a.text = word.toList := by
  rw [literal] at h
  generalize word.toList = chars at h ⊢
  induction chars generalizing prev a next with
  | nil =>
    obtain ⟨-, hall, -, -⟩ := h
    refine List.eq_nil_iff_forall_not_mem.mpr fun c hc => ?_
    cases hall c hc
  | cons c chars ih =>
    obtain ⟨b, d, rfl, ⟨-, hall, hleast, hmost⟩, hd⟩ := h
    obtain ⟨e, he⟩ := List.length_eq_one_iff.mp (Nat.le_antisymm (hmost 1 rfl) hleast)
    have hc : c = e := beq_iff_eq.mp (hall e (he ▸ List.mem_cons_self))
    rw [Hit.append_text, he, ih hd, hc]
    rfl

/-- The two characters are not both of a word. -/
def Safe (u v : Option Char) : Prop := ¬ (wordAt u = true ∧ wordAt v = true)

theorem Safe.none_left (v : Option Char) : Safe none v := fun h => by cases h.1

theorem Safe.none_right (u : Option Char) : Safe u none := fun h => by cases h.2

theorem Safe.symm {u v : Option Char} (h : Safe u v) : Safe v u := fun hboth => h hboth.symm

theorem Safe.of_ne {u v : Option Char} (h : wordAt u ≠ wordAt v) : Safe u v :=
  fun hboth => h (hboth.1.trans hboth.2.symm)

/-- At the end of a text a boundary is in front of a non-word character as well. -/
theorem Safe.word_ne {u v : Option Char} (h : Safe u v) (hne : wordAt u ≠ false) : wordAt u ≠ wordAt v := by
  intro heq
  have hu : wordAt u = true := Bool.not_eq_false _ ▸ hne
  exact h ⟨hu, heq ▸ hu⟩

end Regex

end Vexcoder.Lib
