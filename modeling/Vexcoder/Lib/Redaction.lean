import Mathlib.Data.List.Induction
import Vexcoder.Lib.RegexSearch

/-!
# Redaction

A rule replaces what an expression takes, apart from the groups that it keeps in front and behind, by a
marker.  `weave` takes a text apart into the secrets and the gaps between them, from which both the text
and what the rule makes of it come back, and `weaveAll` does so for several rules one after the other.

A gap has a match of another expression only if the text had one (`gaps_inside`), as no gap is cut off
between two characters of a word.  It has none of its own rule, when none lies in the groups that are kept
in front (`gaps_free`).
-/

namespace Vexcoder.Lib.Redaction

open Lib Lib.Regex

structure Rule where
  regex : Regex
  front : Option ℕ
  marker : List Char
  behind : Option ℕ

namespace Rule

variable (p : Rule)

def pre (a : Hit) : List Char := (p.front.map a.group).getD []

def post (a : Hit) : List Char := (p.behind.map a.group).getD []

def secret (a : Hit) : List Char :=
  (a.text.drop (p.pre a).length).take (a.text.length - (p.pre a).length - (p.post a).length)

def expand (a : Hit) : List Char := p.pre a ++ (p.marker ++ p.post a)

def replace (text : List Char) : List Char := replaceAll p.regex p.expand text

theorem secret_eq {a : Hit} {w : List Char} (h : a.text = p.pre a ++ (w ++ p.post a)) : p.secret a = w := by
  have hlen : a.text.length - (p.pre a).length - (p.post a).length = w.length := by
    rw [h, List.length_append, List.length_append]
    omega
  rw [secret, hlen, h, List.drop_left, List.take_left]

/-- The groups that are kept are at the ends, something is between them, and no match starts with a
character of the one behind. -/
structure Sound : Prop where
  consumes : p.regex.consumes = true
  split : ∀ {prev a next}, Matches p.regex prev a next → a.text = p.pre a ++ (p.secret a ++ p.post a)
  secret_ne : ∀ {prev a next}, Matches p.regex prev a next → p.secret a ≠ []
  post_start : ∀ {prev a next}, Matches p.regex prev a next → ∀ c ∈ p.post a,
    ∀ {prev b next}, Matches p.regex prev b next → b.text.head? ≠ some c

/-- No secret is cut out between two characters of a word. -/
structure Cut : Prop where
  safe : ∀ {prev a behind}, (runs p.regex prev (a.text ++ behind)).head? = some a →
    Safe ((p.pre a).getLast?.or prev) (p.secret a).head? ∧
      Safe (p.secret a).getLast? (p.post a ++ behind).head?

end Rule

theorem Rule.sound_whole {regex : Regex} (marker : List Char) (hr : regex.consumes = true) :
    Rule.Sound { regex, front := none, marker, behind := none } := by
  have hsplit : ∀ a : Hit, Rule.secret { regex, front := none, marker, behind := none } a = a.text :=
    fun a => Rule.secret_eq _ (List.append_nil _).symm
  refine ⟨hr, ?_, ?_, ?_⟩
  · intro prev a next _
    rw [hsplit]
    exact (List.append_nil _).symm
  · intro prev a next hmatch
    rw [hsplit]
    exact hmatch.ne_nil hr
  · exact nofun

def Rule.fronted (r s : Regex) (marker : List Char) : Rule :=
  { regex := .seq (.group 1 r) s, front := some 1, marker, behind := none }

variable {a : Hit} {behind gap D x : List Char} (v : Woven)

theorem Rule.fronted_split {r s : Regex} (marker : List Char) {prev next : Option Char}
    (h : Matches (Rule.fronted r s marker).regex prev a next) :
    ∃ b c, a = (b.captured 1).append c ∧ Matches r prev b (c.text.head?.or next) ∧
      Matches s (b.text.getLast?.or prev) c next ∧ (Rule.fronted r s marker).pre a = b.text ∧
      (Rule.fronted r s marker).secret a = c.text := by
  obtain ⟨_, c, rfl, ⟨b, rfl, hb⟩, hc⟩ := h
  have hpre : (Rule.fronted r s marker).pre ((b.captured 1).append c) = b.text := rfl
  refine ⟨b, c, rfl, hb, hc, hpre, Rule.secret_eq _ ?_⟩
  show b.text ++ c.text = b.text ++ (c.text ++ [])
  rw [List.append_nil]

theorem Rule.sound_fronted (r : Regex) {s : Regex} (marker : List Char) (hs : s.consumes = true) :
    (Rule.fronted r s marker).Sound := by
  refine ⟨?_, ?_, ?_, ?_⟩
  · show (r.consumes || s.consumes) = true
    rw [hs, Bool.or_true]
  · intro prev a next hmatch
    obtain ⟨b, c, rfl, -, -, hpre, hsecret⟩ := Rule.fronted_split _ hmatch
    rw [hpre, hsecret]
    show b.text ++ c.text = b.text ++ (c.text ++ [])
    rw [List.append_nil]
  · intro prev a next hmatch
    obtain ⟨b, c, -, -, hc, -, hsecret⟩ := Rule.fronted_split _ hmatch
    rw [hsecret]
    exact hc.ne_nil hs
  · exact nofun

/-! ### Gaps and secrets -/

/-- A text as gaps with secrets between them, each with its rule. -/
structure Woven where
  head : List Char
  tail : List (Rule × List Char × List Char) := []

namespace Woven

def before (v : Woven) : List Char := v.head ++ v.tail.flatMap fun e => e.2.1 ++ e.2.2

def after (v : Woven) : List Char := v.head ++ v.tail.flatMap fun e => e.1.marker ++ e.2.2

def gaps (v : Woven) : List (List Char) := v.head :: v.tail.map fun e => e.2.2

def cons (x : List Char) (p : Rule) (w : List Char) (v : Woven) : Woven :=
  { head := x, tail := (p, w, v.head) :: v.tail }

variable (x w : List Char) (p : Rule) (v : Woven)

theorem before_cons : (cons x p w v).before = x ++ (w ++ v.before) := by
  rw [cons, before, before, List.flatMap_cons, List.append_assoc]

theorem after_cons : (cons x p w v).after = x ++ (p.marker ++ v.after) := by
  rw [cons, after, after, List.flatMap_cons, List.append_assoc]

theorem gaps_cons : (cons x p w v).gaps = x :: v.gaps := rfl

end Woven

/-- The gaps around the hits; `carry` is what was kept behind the hit in front. -/
def weaveFound (p : Rule) : List Char → List (List Char × Hit) → List Char → Woven
  | carry, [], last => { head := carry ++ last }
  | carry, (gap, a) :: more, last =>
    .cons (carry ++ (gap ++ p.pre a)) p (p.secret a) (weaveFound p (p.post a) more last)

def weave (p : Rule) (text : List Char) : Woven :=
  weaveFound p [] (findAll p.regex text).1 (findAll p.regex text).2

/-- The gaps are taken apart further by another rule. -/
def Woven.refine (v : Woven) (p : Rule) : Woven :=
  { head := (weave p v.head).head
    tail := (weave p v.head).tail ++ v.tail.flatMap fun e =>
      (e.1, e.2.1, (weave p e.2.2).head) :: (weave p e.2.2).tail }

def weaveAll (rules : List Rule) (text : List Char) : Woven :=
  rules.foldl Woven.refine { head := text }

/-- What the rules, one after the other, make of a text. -/
def replaceRules (rules : List Rule) (text : List Char) : List Char :=
  rules.foldl (fun out p => p.replace out) text

/-! ### Scans -/

/-- The hits from a place on, as `findIter` gives them. -/
inductive Scan (r : Regex) :
    Option Char → List Char → List (List Char × Hit) → List Char → Prop where
  | done {prev rest} : NoneBefore r prev rest (rest.length + 1) → Scan r prev rest [] rest
  | hit {prev gap a behind more last} :
      (runs r (gap.getLast?.or prev) (a.text ++ behind)).head? = some a →
      NoneBefore r prev (gap ++ (a.text ++ behind)) gap.length →
      Scan r (a.text.getLast?.or (gap.getLast?.or prev)) behind more last →
      Scan r prev (gap ++ (a.text ++ behind)) ((gap, a) :: more) last

variable {r q : Regex} {p : Rule} {prev : Option Char} {rest last carry text marker : List Char}
  {more : List (List Char × Hit)}

theorem scan_findIter (hr : r.consumes = true) {n : ℕ} (hn : rest.length ≤ n) :
    Scan r prev rest (findIter r n prev rest).1 (findIter r n prev rest).2 := by
  induction n generalizing prev rest with
  | zero =>
    obtain rfl := List.length_eq_zero_iff.mp (Nat.le_zero.mp hn)
    refine Scan.done fun front behind heq _ => ?_
    rw [(List.append_eq_nil_iff.mp heq.symm).2]
    exact runs_nil hr _
  | succ n ih =>
    rw [findIter]
    cases hfirst : firstHit r prev rest with
    | none => exact Scan.done (firstHit_none hfirst)
    | some found =>
      obtain ⟨gap, a⟩ := found
      have hlength := firstHit_length hr hfirst
      obtain ⟨behind, rfl, hhead, hbefore⟩ := firstHit_some hfirst
      obtain ⟨⟨tail, rfl⟩, -⟩ := mem_runs.mp (List.mem_of_head? hhead)
      have hdrop : (gap ++ (a.text ++ tail)).drop (gap.length + a.text.length) = tail := by
        rw [← List.append_assoc, ← List.length_append, List.drop_left]
      dsimp only
      rw [hdrop]
      refine Scan.hit hhead hbefore (ih ?_)
      rw [List.length_append, List.length_append] at hn
      omega

theorem scan_findAll (hr : r.consumes = true) (text : List Char) :
    Scan r none text (findAll r text).1 (findAll r text).2 := scan_findIter hr (Nat.le_refl _)

theorem Scan.text_eq (h : Scan r prev rest more last) :
    rest = (more.flatMap fun e => e.1 ++ e.2.text) ++ last := by
  induction h with
  | done _ => rfl
  | hit _ _ _ ih =>
    rw [List.flatMap_cons, List.append_assoc, List.append_assoc, ← ih]

theorem Scan.matches (h : Scan r prev rest more last) {e : List Char × Hit} (he : e ∈ more) :
    ∃ front behind, rest = front ++ (e.2.text ++ behind) ∧
      Matches r (front.getLast?.or prev) e.2 behind.head? := by
  induction h with
  | done _ => cases he
  | @hit prev gap a _ _ _ hhead _ _ ih =>
    rcases List.mem_cons.mp he with rfl | he
    · have hmatch := (mem_runs.mp (List.mem_of_head? hhead)).2
      rw [List.drop_left] at hmatch
      exact ⟨_, _, rfl, hmatch⟩
    · obtain ⟨front, behind, rfl, hmatch⟩ := ih he
      refine ⟨gap ++ (a.text ++ front), behind, by simp only [List.append_assoc], ?_⟩
      rw [List.getLast?_append, List.getLast?_append, Option.or_assoc, Option.or_assoc]
      exact hmatch

theorem after_weaveFound (p : Rule) (carry : List Char) (more : List (List Char × Hit)) (last : List Char) :
    (weaveFound p carry more last).after = carry ++ output p.expand (more, last) := by
  induction more generalizing carry with
  | nil =>
    show (carry ++ last) ++ [] = carry ++ ([] ++ last)
    rw [List.append_nil, List.nil_append]
  | cons e more ih =>
    obtain ⟨gap, a⟩ := e
    rw [weaveFound, Woven.after_cons, ih, output_cons p.expand gap a (more, last), Rule.expand]
    simp only [List.append_assoc]

theorem before_weaveFound (carry : List Char)
    (hsplit : ∀ e ∈ more, e.2.text = p.pre e.2 ++ (p.secret e.2 ++ p.post e.2)) (last : List Char) :
    (weaveFound p carry more last).before = carry ++ ((more.flatMap fun e => e.1 ++ e.2.text) ++ last) := by
  induction more generalizing carry with
  | nil =>
    show (carry ++ last) ++ [] = carry ++ ([] ++ last)
    rw [List.append_nil, List.nil_append]
  | cons e more ih =>
    obtain ⟨gap, a⟩ := e
    have ha : a.text = p.pre a ++ (p.secret a ++ p.post a) := hsplit (gap, a) List.mem_cons_self
    rw [weaveFound, Woven.before_cons, ih _ fun e he => hsplit e (List.mem_cons_of_mem _ he),
      List.flatMap_cons]
    rw [ha]
    simp only [List.append_assoc]

theorem after_weave (p : Rule) (text : List Char) : (weave p text).after = p.replace text := by
  rw [weave, after_weaveFound]
  rfl

theorem before_weave (hp : p.Sound) (text : List Char) : (weave p text).before = text := by
  have hscan := scan_findAll hp.consumes text
  rw [weave, before_weaveFound, List.nil_append, ← hscan.text_eq]
  intro e he
  obtain ⟨_, _, -, hmatch⟩ := hscan.matches he
  exact hp.split hmatch

/-! ### Matches in a gap -/

variable {b : Hit} {next : Option Char}

theorem matches_behind {l : List Char} (h : Matches q l.getLast? b next) (hne : b.text ≠ [])
    (D : List Char) (hsafe : q.anchored = true → Safe D.getLast? (l ++ b.text).head?) :
    Matches q (D ++ l).getLast? b next := by
  rw [List.getLast?_append]
  rcases l.eq_nil_or_concat' with rfl | ⟨front, c, rfl⟩
  · refine h.weaken_prev fun hq hword => ?_
    have hhead : b.text.head?.or next = b.text.head? := by
      obtain ⟨c, text, htext⟩ := List.exists_cons_of_ne_nil hne
      rw [htext]
      rfl
    have hcut := hsafe hq
    rw [hhead] at hword ⊢
    exact (hcut.symm.word_ne hword.symm).symm
  · rw [List.getLast?_concat] at h ⊢
    exact h

theorem matches_ahead (h : Matches q prev b behind.head?) (hne : b.text ≠ []) (B : List Char)
    (hsafe : q.anchored = true → Safe (b.text ++ behind).getLast? B.head?) :
    Matches q prev b (behind ++ B).head? := by
  cases behind with
  | nil =>
    refine h.weaken_next fun hq hword => ?_
    have hcut := hsafe hq
    rw [List.append_nil] at hcut
    rw [getLast?_or hne] at hword ⊢
    exact hcut.word_ne hword
  | cons c behind => exact h

/-- The gap is inside of the text, and no word goes on over its ends. -/
def Inside (q : Regex) (gap text : List Char) : Prop :=
  ∃ A B, text = A ++ (gap ++ B) ∧ (q.anchored = true → Safe A.getLast? gap.head? ∧ Safe gap.getLast? B.head?)

theorem free_of_inside (hq : q.consumes = true) (h : Free q text) (hgap : Inside q gap text) :
    Free q gap := by
  obtain ⟨A, B, rfl, hsafe⟩ := hgap
  intro front a behind heq hmatch
  have hne : a.text ≠ [] := hmatch.ne_nil hq
  have hlast : gap.getLast? = (a.text ++ behind).getLast? := by
    rw [heq, List.getLast?_append_of_ne_nil _ (List.append_ne_nil_of_left_ne_nil hne behind)]
  have hhead : gap.head? = (front ++ a.text).head? := by
    rw [heq, ← List.append_assoc,
      List.head?_append_of_ne_nil _ (List.append_ne_nil_of_right_ne_nil front hne)]
  refine h (A ++ front) a (behind ++ B) (by rw [heq]; simp only [List.append_assoc]) ?_
  refine matches_behind (matches_ahead hmatch hne B fun hanchored => ?_) hne A fun hanchored => ?_
  · rw [← hlast]
    exact (hsafe hanchored).2
  · rw [← hhead]
    exact (hsafe hanchored).1

theorem cut_ends (hp : p.Sound) (hcut : p.Cut) (hprev : prev = (D ++ carry).getLast?)
    (hhead : (runs p.regex (gap.getLast?.or prev) (a.text ++ behind)).head? = some a) :
    Safe (carry ++ (gap ++ p.pre a)).getLast? (p.secret a ++ (p.post a ++ behind)).head? ∧
      Safe (D ++ (carry ++ (gap ++ (p.pre a ++ p.secret a)))).getLast? (p.post a ++ behind).head? := by
  have hmatch := (mem_runs.mp (List.mem_of_head? hhead)).2
  have hne := hp.secret_ne hmatch
  obtain ⟨hfront, hbehind⟩ := hcut.safe hhead
  constructor
  · rw [List.head?_append_of_ne_nil _ hne]
    cases hlast : (carry ++ (gap ++ p.pre a)).getLast? with
    | none => exact Safe.none_left _
    | some c =>
      have hsame : (p.pre a).getLast?.or (gap.getLast?.or prev) = some c := by
        rw [hprev, ← List.getLast?_append, ← List.getLast?_append, List.append_assoc,
          List.append_assoc, List.getLast?_append, hlast]
        rfl
      rw [← hsame]
      exact hfront
  · rw [← List.append_assoc, ← List.append_assoc, ← List.append_assoc, List.getLast?_append_of_ne_nil _ hne]
    exact hbehind

theorem next_prev (hprev : prev = (D ++ carry).getLast?)
    (hsplit : a.text = p.pre a ++ (p.secret a ++ p.post a)) :
    a.text.getLast?.or (gap.getLast?.or prev) =
      ((D ++ (carry ++ (gap ++ (p.pre a ++ p.secret a)))) ++ p.post a).getLast? := by
  rw [hprev, ← List.getLast?_append, ← List.getLast?_append, hsplit]
  simp only [List.append_assoc]

/-- **A gap is inside of the text**, and where a boundary may see it, no word goes on over its ends. -/
theorem gaps_inside (hp : p.Sound) (hcut : q.anchored = true → p.Cut)
    (hscan : Scan p.regex prev rest more last) {carry : List Char} (hprev : prev = (D ++ carry).getLast?)
    (hsafe : q.anchored = true → Safe D.getLast? (carry ++ rest).head?) :
    ∀ gap ∈ (weaveFound p carry more last).gaps, Inside q gap (D ++ (carry ++ rest)) := by
  induction hscan generalizing D carry with
  | @done prev rest hnone =>
    intro gap hgap
    obtain rfl : gap = carry ++ rest := List.mem_singleton.mp hgap
    exact ⟨D, [], by rw [List.append_nil], fun hq => ⟨hsafe hq, Safe.none_right _⟩⟩
  | @hit prev first a behind more last hhead hbefore hscan ih =>
    have hsplit := hp.split (mem_runs.mp (List.mem_of_head? hhead)).2
    intro gap hgap
    rw [weaveFound, Woven.gaps_cons] at hgap
    rcases List.mem_cons.mp hgap with rfl | hgap
    · refine ⟨D, p.secret a ++ (p.post a ++ behind), ?_, fun hq => ⟨?_, ?_⟩⟩
      · rw [hsplit]
        simp only [List.append_assoc]
      · cases hfirst : carry ++ (first ++ p.pre a) with
        | nil => exact Safe.none_right _
        | cons c t =>
          have hlong : (carry ++ (first ++ (a.text ++ behind))).head? = some c := by
            have heq : carry ++ (first ++ (a.text ++ behind)) =
                (carry ++ (first ++ p.pre a)) ++ (p.secret a ++ (p.post a ++ behind)) := by
              rw [hsplit]
              simp only [List.append_assoc]
            rw [heq, hfirst]
            rfl
          have hstart := hsafe hq
          rw [hlong] at hstart
          exact hstart
      · exact (cut_ends hp (hcut hq) hprev hhead).1
    · have hrest := ih (next_prev hprev hsplit) (fun hq => (cut_ends hp (hcut hq) hprev hhead).2) gap hgap
      have hwhole : (D ++ (carry ++ (first ++ (p.pre a ++ p.secret a)))) ++ (p.post a ++ behind) =
          D ++ (carry ++ (first ++ (a.text ++ behind))) := by
        rw [hsplit]
        simp only [List.append_assoc]
      rw [hwhole] at hrest
      exact hrest

/-- No match lies in the text, whatever is in front of it. -/
def PreFree (r : Regex) (text : List Char) : Prop :=
  ∀ front b behind, text = front ++ (b.text ++ behind) → ∀ prev, ¬ Matches r prev b behind.head?

theorem skip_carry {front t : List Char} (hb : Matches r prev b next) (hne : b.text ≠ [])
    (hcarry : ∀ c ∈ carry, ∀ {prev b next}, Matches r prev b next → b.text.head? ≠ some c)
    (heq : carry ++ t = front ++ (b.text ++ behind)) :
    ∃ u, front = carry ++ u ∧ t = u ++ (b.text ++ behind) := by
  rcases List.append_eq_append_iff.mp heq with ⟨u, rfl, ht⟩ | ⟨u, rfl, ht⟩
  · exact ⟨u, rfl, ht⟩
  cases u with
  | nil => exact ⟨[], by simp, ht.symm⟩
  | cons c u =>
    obtain ⟨d, text, htext⟩ := List.exists_cons_of_ne_nil hne
    rw [htext] at ht
    obtain rfl := (List.cons.inj ht).1
    have hhead := hcarry d (List.mem_append_right front List.mem_cons_self) hb
    rw [htext] at hhead
    exact absurd rfl hhead

theorem not_before {u B : List Char} {n : ℕ} (hbefore : NoneBefore r prev (u ++ (b.text ++ (behind ++ B))) n)
    (hu : u.length < n) (hprev : prev = (D ++ carry).getLast?) (hne : b.text ≠ [])
    (hfront : r.anchored = true → Safe D.getLast? ((carry ++ u) ++ b.text).head?)
    (hbehind : r.anchored = true → Safe (b.text ++ behind).getLast? B.head?) :
    ¬ Matches r (carry ++ u).getLast? b behind.head? := by
  intro hmatch
  have hnone := hbefore u _ rfl hu
  have hneighbour : u.getLast?.or prev = (D ++ (carry ++ u)).getLast? := by
    rw [hprev, ← List.getLast?_append, List.append_assoc]
  have hrun : b ∈ runs r (u.getLast?.or prev) (b.text ++ (behind ++ B)) := by
    refine mem_runs.mpr ⟨List.prefix_append _ _, ?_⟩
    rw [hneighbour, List.drop_left]
    exact matches_behind (matches_ahead hmatch hne B hbehind) hne D hfront
  rw [hnone] at hrun
  exact List.not_mem_nil hrun

/-- **No match is left in a gap**, when none lies in the groups that are kept in front. -/
theorem gaps_free (hp : p.Sound) (hcut : p.regex.anchored = true → p.Cut)
    (hscan : Scan p.regex prev rest more last) {carry : List Char} (hprev : prev = (D ++ carry).getLast?)
    (hsafe : p.regex.anchored = true → Safe D.getLast? (carry ++ rest).head?)
    (hcarry : ∀ c ∈ carry, ∀ {prev b next}, Matches p.regex prev b next → b.text.head? ≠ some c)
    (hpre : ∀ e ∈ more, PreFree p.regex (p.pre e.2)) :
    ∀ gap ∈ (weaveFound p carry more last).gaps, Free p.regex gap := by
  induction hscan generalizing D carry with
  | @done prev rest hnone =>
    intro gap hgap front b behind heq hmatch
    obtain rfl : gap = carry ++ rest := List.mem_singleton.mp hgap
    have hne := hmatch.ne_nil hp.consumes
    obtain ⟨u, rfl, rfl⟩ := skip_carry hmatch hne hcarry heq
    refine not_before (B := []) (by rw [List.append_nil]; exact hnone) ?_ hprev hne
      (fun hanchored => ?_) (fun _ => Safe.none_right _) hmatch
    · rw [List.length_append]
      omega
    · have hstart := hsafe hanchored
      rw [← List.append_assoc, ← List.append_assoc,
        List.head?_append_of_ne_nil _ (List.append_ne_nil_of_right_ne_nil _ hne)] at hstart
      exact hstart
  | @hit prev first a behind more last hhead hbefore hscan ih =>
    have hmatch := (mem_runs.mp (List.mem_of_head? hhead)).2
    have hsplit := hp.split hmatch
    intro gap hgap
    rcases List.mem_cons.mp hgap with rfl | hgap
    · intro front b tail heq hb
      have hne := hb.ne_nil hp.consumes
      obtain ⟨u, rfl, hu⟩ := skip_carry hb hne hcarry heq
      rcases Nat.lt_or_ge u.length first.length with hlt | hge
      · have hwhole : first ++ (a.text ++ behind) =
            u ++ (b.text ++ (tail ++ (p.secret a ++ (p.post a ++ behind)))) := by
          have hlong := congrArg (· ++ (p.secret a ++ (p.post a ++ behind))) hu
          simp only [List.append_assoc] at hlong
          rw [hsplit]
          simp only [List.append_assoc]
          exact hlong
        refine not_before (hwhole ▸ hbefore) hlt hprev hne (fun hanchored => ?_) (fun hanchored => ?_) hb
        · have hstart := hsafe hanchored
          rw [hwhole, ← List.append_assoc, ← List.append_assoc,
            List.head?_append_of_ne_nil _ (List.append_ne_nil_of_right_ne_nil _ hne)] at hstart
          exact hstart
        · have hend := (cut_ends hp (hcut hanchored) hprev hhead).1
          rw [hu, ← List.append_assoc, List.getLast?_append_of_ne_nil _
            (List.append_ne_nil_of_left_ne_nil hne tail)] at hend
          exact hend
      · obtain ⟨w, hw⟩ : ∃ w, u = first ++ w := by
          rcases List.append_eq_append_iff.mp hu with ⟨w, hw, -⟩ | ⟨w, hw, -⟩
          · exact ⟨w, hw⟩
          · rw [hw, List.length_append] at hge
            obtain rfl := List.length_eq_zero_iff.mp (by omega : w.length = 0)
            exact ⟨[], by rw [hw, List.append_nil, List.append_nil]⟩
        rw [hw, List.append_assoc] at hu
        exact hpre (first, a) List.mem_cons_self w b tail (List.append_cancel_left hu) _ hb
    · exact ih (next_prev hprev hsplit)
        (fun hanchored => (cut_ends hp (hcut hanchored) hprev hhead).2) (hp.post_start hmatch)
        (fun e he => hpre e (List.mem_cons_of_mem _ he)) gap hgap

theorem weave_inside (hp : p.Sound) (hcut : q.anchored = true → p.Cut) (text : List Char) :
    ∀ gap ∈ (weave p text).gaps, Inside q gap text := by
  show ∀ gap ∈ (weaveFound p [] _ _).gaps, Inside q gap ([] ++ ([] ++ text))
  exact gaps_inside hp hcut (scan_findAll hp.consumes text) rfl fun _ => Safe.none_left _

/-- What a rule leaves of a text without a match of another expression has none either. -/
theorem weave_keeps (hq : q.consumes = true) (hp : p.Sound) (hcut : q.anchored = true → p.Cut)
    (h : Free q text) : ∀ gap ∈ (weave p text).gaps, Free q gap :=
  fun gap hgap => free_of_inside hq h (weave_inside hp hcut text gap hgap)

theorem weave_free (hp : p.Sound) (hcut : p.regex.anchored = true → p.Cut)
    (hpre : ∀ e ∈ (findAll p.regex text).1, PreFree p.regex (p.pre e.2)) :
    ∀ gap ∈ (weave p text).gaps, Free p.regex gap :=
  gaps_free (D := []) hp hcut (scan_findAll hp.consumes text) rfl (fun _ => Safe.none_left _) nofun hpre

theorem pre_suffix (p : Rule) (carry last : List Char) {e : List Char × Hit} (he : e ∈ more) :
    ∃ gap ∈ (weaveFound p carry more last).gaps, p.pre e.2 <:+ gap := by
  induction more generalizing carry with
  | nil => cases he
  | cons first more ih =>
    rcases List.mem_cons.mp he with rfl | he
    · exact ⟨_, List.mem_cons_self, _, (List.append_assoc _ _ _)⟩
    · obtain ⟨gap, hgap, hsuffix⟩ := ih (p.post first.2) he
      exact ⟨gap, List.mem_cons_of_mem _ hgap, hsuffix⟩

theorem free_of_suffix (hr : r.anchored = false) {y : List Char} (h : Free r y) (hx : x <:+ y) :
    Free r x := by
  obtain ⟨t, rfl⟩ := hx
  intro front a behind heq hmatch
  exact h (t ++ front) a behind (by rw [heq, List.append_assoc]) (hmatch.context hr _ _)

theorem preFree_iff (hr : r.anchored = false) : PreFree r x ↔ Free r x := by
  constructor
  · exact fun h front a behind heq => h front a behind heq _
  · exact fun h front a behind heq prev hmatch =>
      h front a behind heq (hmatch.context hr _ _)

/-- Without boundaries, the gaps are free of matches just when the groups kept in front are. -/
theorem weave_free_iff (hp : p.Sound) (hr : p.regex.anchored = false) :
    (∀ gap ∈ (weave p text).gaps, Free p.regex gap) ↔
      ∀ e ∈ (findAll p.regex text).1, Free p.regex (p.pre e.2) := by
  constructor
  · intro h e he
    obtain ⟨gap, hgap, hsuffix⟩ := pre_suffix p [] (findAll p.regex text).2 he
    exact free_of_suffix hr (h gap hgap) hsuffix
  · intro h
    refine weave_free hp (fun hanchored => ?_) fun e he => (preFree_iff hr).mpr (h e he)
    rw [hr] at hanchored
    cases hanchored

/-! ### Rules one after the other -/

/-- A marker between two barriers, in which nothing matches. -/
def Closed (r : Regex) (marker : List Char) : Prop :=
  ∃ first name last, marker = first :: (name ++ [last]) ∧ Barrier r first ∧ Barrier r last ∧ Free r name

theorem Closed.replace (h : Closed p.regex marker) (hr : p.regex.consumes = true) (x y : List Char) :
    p.replace (x ++ (marker ++ y)) = p.replace x ++ (marker ++ p.replace y) := by
  obtain ⟨first, name, last, rfl, hfirst, hlast, hname⟩ := h
  have htext : x ++ (first :: (name ++ [last]) ++ y) = x ++ first :: (name ++ last :: y) := by simp
  rw [htext, Rule.replace, replaceAll_barrier hr hfirst, replaceAll_barrier hr hlast,
    replaceAll_of_free hname, Rule.replace, Rule.replace]
  simp

theorem Closed.free_iff (h : Closed r marker) (hr : r.consumes = true) {y : List Char} :
    Free r (x ++ (marker ++ y)) ↔ Free r x ∧ Free r y := by
  obtain ⟨first, name, last, rfl, hfirst, hlast, hname⟩ := h
  have htext : x ++ (first :: (name ++ [last]) ++ y) = x ++ first :: (name ++ last :: y) := by simp
  rw [htext, free_barrier_iff hr hfirst, free_barrier_iff hr hlast]
  exact and_congr_right fun _ => and_iff_right hname

/-- `w` is what a match of the rule in the text has between the groups that are kept. -/
def Rule.SecretIn (p : Rule) (text w : List Char) : Prop :=
  ∃ front a behind, text = front ++ (a.text ++ behind) ∧
    Matches p.regex front.getLast? a behind.head? ∧ p.secret a = w

/-- Each secret is one for its rule in what the rules in front of that leave of the text. -/
def Woven.Of (rules : List Rule) (text : List Char) (v : Woven) : Prop :=
  ∀ e ∈ v.tail, ∃ earlier later, rules = earlier ++ e.1 :: later ∧
    e.1.SecretIn (replaceRules earlier text) e.2.1

variable {rules : List Rule} {v : Woven} {w : List Char} {d : Char}

theorem Woven.Of.mem (h : v.Of rules text) {e : Rule × List Char × List Char} (he : e ∈ v.tail) :
    e.1 ∈ rules := by
  obtain ⟨earlier, later, hrules, -⟩ := h e he
  rw [hrules]
  exact List.mem_append_right _ List.mem_cons_self

/-- A barrier behind the text changes no match in it. -/
theorem secretIn_ahead (h : p.SecretIn x w) (hd : Barrier p.regex d) (y : List Char) :
    p.SecretIn (x ++ d :: y) w := by
  obtain ⟨front, a, behind, rfl, hmatch, hsecret⟩ := h
  refine ⟨front, a, behind ++ d :: y, by simp only [List.append_assoc], ?_, hsecret⟩
  refine hmatch.congr rfl ?_
  cases behind with
  | nil => exact hd.wordAt_eq
  | cons c behind => rfl

theorem secretIn_behind (h : p.SecretIn x w) (hd : Barrier p.regex d) (y : List Char) :
    p.SecretIn (y ++ d :: x) w := by
  obtain ⟨front, a, behind, rfl, hmatch, hsecret⟩ := h
  refine ⟨y ++ d :: front, a, behind, by simp only [List.append_assoc, List.cons_append], ?_, hsecret⟩
  exact hmatch.congr (hd.wordAt_getLast? y front).symm rfl

/-- A secret of a gap is one of the text with the markers. -/
theorem secretIn_after (hclosed : ∀ e ∈ v.tail, Closed p.regex e.1.marker) (hgap : gap ∈ v.gaps)
    (h : p.SecretIn gap w) : p.SecretIn v.after w := by
  have htail : ∀ (tail : List (Rule × List Char × List Char)) (x : List Char),
      (∀ e ∈ tail, Closed p.regex e.1.marker) → gap ∈ x :: (tail.map fun e => e.2.2) →
        p.SecretIn (x ++ tail.flatMap fun e => e.1.marker ++ e.2.2) w := by
    intro tail
    induction tail with
    | nil =>
      intro x _ hmem
      rw [List.mem_singleton.mp hmem] at h
      rwa [List.flatMap_nil, List.append_nil]
    | cons e tail ih =>
      intro x hall hmem
      obtain ⟨first, name, last, hmarker, hfirst, hlast, -⟩ := hall e List.mem_cons_self
      rw [List.flatMap_cons, hmarker]
      rcases List.mem_cons.mp hmem with rfl | hmem
      · exact secretIn_ahead h hfirst _
      · have hrest := secretIn_behind (ih e.2.2 (fun e he => hall e (List.mem_cons_of_mem _ he)) hmem)
          hlast (x ++ first :: name)
        simpa only [List.append_assoc, List.cons_append, List.nil_append] using hrest
  exact htail v.tail v.head hclosed hgap

theorem gaps_refine (p : Rule) : (v.refine p).gaps = v.gaps.flatMap fun gap => (weave p gap).gaps := by
  have hmap : ∀ tail : List (Rule × List Char × List Char),
      ((tail.flatMap fun e => (e.1, e.2.1, (weave p e.2.2).head) :: (weave p e.2.2).tail).map
        fun e => e.2.2) = (tail.map fun e => e.2.2).flatMap fun gap => (weave p gap).gaps := by
    intro tail
    rw [List.map_flatMap, List.flatMap_map]
    rfl
  rw [Woven.gaps, Woven.gaps, Woven.refine, List.map_append, hmap]
  rfl

variable (tail : List (Rule × List Char × List Char))

theorem before_append :
    Woven.before { v with tail := v.tail ++ tail } = v.before ++ tail.flatMap fun e => e.2.1 ++ e.2.2 := by
  rw [Woven.before, Woven.before, List.flatMap_append, List.append_assoc]

theorem after_append :
    Woven.after { v with tail := v.tail ++ tail } = v.after ++ tail.flatMap fun e => e.1.marker ++ e.2.2 := by
  rw [Woven.after, Woven.after, List.flatMap_append, List.append_assoc]

theorem before_refine (hp : p.Sound) (v : Woven) : (v.refine p).before = v.before := by
  have htail : ∀ tail : List (Rule × List Char × List Char),
      ((tail.flatMap fun e => (e.1, e.2.1, (weave p e.2.2).head) :: (weave p e.2.2).tail).flatMap
        fun e => e.2.1 ++ e.2.2) = tail.flatMap fun e => e.2.1 ++ e.2.2 := by
    intro tail
    rw [List.flatMap_assoc]
    refine List.flatMap_congr fun e _ => ?_
    rw [List.flatMap_cons, List.append_assoc]
    show e.2.1 ++ (weave p e.2.2).before = e.2.1 ++ e.2.2
    rw [before_weave hp]
  rw [Woven.refine, before_append, before_weave hp, htail, Woven.before]

/-- The rule goes over the gaps, and not over the markers. -/
theorem after_refine (hp : p.Sound) (hclosed : ∀ e ∈ v.tail, Closed p.regex e.1.marker) :
    (v.refine p).after = p.replace v.after := by
  have htail : ∀ (tail : List (Rule × List Char × List Char)) (x : List Char),
      (∀ e ∈ tail, Closed p.regex e.1.marker) →
      p.replace (x ++ tail.flatMap fun e => e.1.marker ++ e.2.2) = p.replace x ++
        (tail.flatMap fun e =>
          (e.1, e.2.1, (weave p e.2.2).head) :: (weave p e.2.2).tail).flatMap
            fun e => e.1.marker ++ e.2.2 := by
    intro tail
    induction tail with
    | nil =>
      intro x _
      rw [List.flatMap_nil, List.flatMap_nil, List.flatMap_nil, List.append_nil, List.append_nil]
    | cons e tail ih =>
      intro x hall
      have hrest := ih e.2.2 fun e he => hall e (List.mem_cons_of_mem _ he)
      have hgap : (weave p e.2.2).head ++
          ((weave p e.2.2).tail.flatMap fun e => e.1.marker ++ e.2.2) = p.replace e.2.2 :=
        after_weave p e.2.2
      rw [List.flatMap_cons, List.append_assoc, (hall e List.mem_cons_self).replace hp.consumes,
        hrest, List.flatMap_cons, List.flatMap_append, List.flatMap_cons, ← hgap]
      simp only [List.append_assoc]
  rw [Woven.refine, after_append, after_weave, Woven.after, htail v.tail v.head hclosed]

theorem mem_weaveFound (p : Rule) (carry last : List Char) {entry : Rule × List Char × List Char}
    (h : entry ∈ (weaveFound p carry more last).tail) :
    entry.1 = p ∧ ∃ e ∈ more, p.secret e.2 = entry.2.1 := by
  induction more generalizing carry with
  | nil => cases h
  | cons e more ih =>
    rcases List.mem_cons.mp h with rfl | h
    · exact ⟨rfl, e, List.mem_cons_self, rfl⟩
    · obtain ⟨hrule, e', he', hsecret⟩ := ih _ h
      exact ⟨hrule, e', List.mem_cons_of_mem _ he', hsecret⟩

theorem secretIn_weave (hp : p.Sound) {entry : Rule × List Char × List Char}
    (h : entry ∈ (weave p gap).tail) : entry.1 = p ∧ p.SecretIn gap entry.2.1 := by
  obtain ⟨hrule, e, he, hsecret⟩ := mem_weaveFound p [] _ h
  obtain ⟨front, behind, htext, hmatch⟩ := (scan_findAll hp.consumes gap).matches he
  rw [Option.or_none] at hmatch
  exact ⟨hrule, front, e.2, behind, htext, hmatch, hsecret⟩

theorem of_refine (hp : p.Sound) (hclosed : ∀ e ∈ v.tail, Closed p.regex e.1.marker)
    (hafter : v.after = replaceRules rules text) (h : v.Of rules text) :
    (v.refine p).Of (rules ++ [p]) text := by
  have hnew : ∀ gap ∈ v.gaps, ∀ e ∈ (weave p gap).tail, ∃ earlier later,
      rules ++ [p] = earlier ++ e.1 :: later ∧ e.1.SecretIn (replaceRules earlier text) e.2.1 := by
    intro gap hgap e he
    obtain ⟨hrule, hsecret⟩ := secretIn_weave hp he
    rw [hrule]
    exact ⟨rules, [], rfl, hafter ▸ secretIn_after hclosed hgap hsecret⟩
  intro e he
  rcases List.mem_append.mp he with he | he
  · exact hnew _ List.mem_cons_self e he
  · obtain ⟨old, hold, hmem⟩ := List.mem_flatMap.mp he
    rcases List.mem_cons.mp hmem with rfl | hmem
    · obtain ⟨earlier, later, hrules, hsecret⟩ := h old hold
      exact ⟨earlier, later ++ [p], by rw [hrules, List.append_assoc]; rfl, hsecret⟩
    · exact hnew _ (List.mem_cons_of_mem _ (List.mem_map_of_mem hold)) e hmem

theorem weaveAll_concat (rules : List Rule) (p : Rule) (text : List Char) :
    weaveAll (rules ++ [p]) text = (weaveAll rules text).refine p := by
  rw [weaveAll, List.foldl_append]
  rfl

theorem replaceRules_concat (rules : List Rule) (p : Rule) (text : List Char) :
    replaceRules (rules ++ [p]) text = p.replace (replaceRules rules text) := by
  rw [replaceRules, List.foldl_append]
  rfl

/-- The rules are sound, and no marker is touched by one of them. -/
structure Rules (rules : List Rule) : Prop where
  sound : ∀ p ∈ rules, p.Sound
  closed : ∀ p ∈ rules, ∀ q ∈ rules, Closed p.regex q.marker

theorem Rules.left {others : List Rule} (h : Rules (rules ++ others)) : Rules rules :=
  { sound := fun p hp => h.sound p (List.mem_append_left _ hp)
    closed := fun p hp q hq =>
      h.closed p (List.mem_append_left _ hp) q (List.mem_append_left _ hq) }

/-- **What the rules make of a text, and the text, are one woven text.** -/
theorem weaveAll_spec (h : Rules rules) (text : List Char) :
    (weaveAll rules text).before = text ∧ (weaveAll rules text).after = replaceRules rules text ∧
      (weaveAll rules text).Of rules text := by
  induction rules using List.reverseRecOn with
  | nil =>
    refine ⟨List.append_nil _, List.append_nil _, fun e he => ?_⟩
    cases he
  | append_singleton rules p ih =>
    obtain ⟨hbefore, hafter, hof⟩ := ih h.left
    have hmem : p ∈ rules ++ [p] := List.mem_append_right _ (List.mem_singleton.mpr rfl)
    have hp := h.sound p hmem
    have hclosed : ∀ e ∈ (weaveAll rules text).tail, Closed p.regex e.1.marker := fun e he =>
      h.closed p hmem e.1 (List.mem_append_left _ (hof.mem he))
    rw [weaveAll_concat, replaceRules_concat, before_refine hp, after_refine hp hclosed, hafter]
    exact ⟨hbefore, rfl, of_refine hp hclosed hafter hof⟩

/-- The text with the markers has a match just when a gap has one. -/
theorem free_after_iff (hr : r.consumes = true) (hclosed : ∀ e ∈ v.tail, Closed r e.1.marker) :
    Free r v.after ↔ ∀ gap ∈ v.gaps, Free r gap := by
  have htail : ∀ (tail : List (Rule × List Char × List Char)) (x : List Char),
      (∀ e ∈ tail, Closed r e.1.marker) →
      (Free r (x ++ tail.flatMap fun e => e.1.marker ++ e.2.2) ↔
        ∀ gap ∈ x :: tail.map fun e => e.2.2, Free r gap) := by
    intro tail
    induction tail with
    | nil =>
      intro x _
      rw [List.flatMap_nil, List.append_nil, List.map_nil, List.forall_mem_singleton]
    | cons e tail ih =>
      intro x hall
      rw [List.flatMap_cons, List.append_assoc,
        (hall e List.mem_cons_self).free_iff hr,
        ih e.2.2 fun e he => hall e (List.mem_cons_of_mem _ he), List.map_cons,
        List.forall_mem_cons (a := x)]
  exact htail v.tail v.head hclosed

/-- What one rule leaves free, the ones after it leave so. -/
theorem weaveAll_free (hsound : ∀ p ∈ rules, p.Sound)
    (hpairs : rules.Pairwise fun q p => q.regex.anchored = true → p.Cut)
    (hown : ∀ p ∈ rules, ∀ text, ∀ gap ∈ (weave p text).gaps, Free p.regex gap) (text : List Char) :
    ∀ q ∈ rules, ∀ gap ∈ (weaveAll rules text).gaps, Free q.regex gap := by
  induction rules using List.reverseRecOn with
  | nil => exact nofun
  | append_singleton rules p ih =>
    obtain ⟨hrules, -, hlast⟩ := List.pairwise_append.mp hpairs
    have hmem : p ∈ rules ++ [p] := List.mem_append_right _ (List.mem_singleton.mpr rfl)
    have hold := ih (fun q hq => hsound q (List.mem_append_left _ hq)) hrules
      fun q hq => hown q (List.mem_append_left _ hq)
    intro q hq gap hgap
    rw [weaveAll_concat, gaps_refine] at hgap
    obtain ⟨old, hold', hgap⟩ := List.mem_flatMap.mp hgap
    rcases List.mem_append.mp hq with hq' | hq'
    · exact weave_keeps (hsound q hq).consumes (hsound p hmem)
        (hlast q hq' p (List.mem_singleton.mpr rfl)) (hold q hq' old hold') gap hgap
    · obtain rfl := List.mem_singleton.mp hq'
      exact hown q hmem old gap hgap

end Vexcoder.Lib.Redaction
