import Vexcoder.Runtime.SecretPatterns

/-!
# The revision of secrets

The patterns are sound rules whose markers none of them touches, so what they make of a text is woven from
its gaps and the markers.  The gaps that the first patterns leave have none of their secrets, and those
that the assignments leave have none at all just when no separator is long (`revise_complete_iff`).
-/

namespace Vexcoder.Runtime.Secrets

open Lib Lib.Regex Lib.Redaction

/-! ### The patterns as rules -/

theorem bearer_sound : bearerToken.Sound :=
  Rule.sound_fronted bearerFront rewrittenText.toList (by decide)

theorem assignment_sound : genericSecretAssignment.Sound :=
  Rule.sound_fronted assignmentFront editedText.toList (by decide)

theorem patterns_sound : ∀ p ∈ patterns, p.Sound := by
  intro p hp
  simp only [patterns, firstPatterns, List.cons_append, List.nil_append, List.mem_cons,
    List.not_mem_nil, or_false] at hp
  rcases hp with rfl | rfl | rfl | rfl | rfl | rfl | rfl
  · exact Rule.sound_whole _ (by decide)
  · exact Rule.sound_whole _ (by decide)
  · exact Rule.sound_whole _ (by decide)
  · exact Rule.sound_whole _ (by decide)
  · exact bearer_sound
  · exact connection_sound
  · exact assignment_sound

def names : List String := ["REVISED", "EDITED", "AMENDED", "EMENDED PRIVATE KEY", "REWRITTEN"]

theorem marker_of_pattern : ∀ q ∈ patterns, ∃ name ∈ names, q.marker = '[' :: (name.toList ++ [']']) := by
  intro q hq
  simp only [patterns, firstPatterns, List.cons_append, List.nil_append, List.mem_cons,
    List.not_mem_nil, or_false] at hq
  rcases hq with rfl | rfl | rfl | rfl | rfl | rfl | rfl
  · exact ⟨"REVISED", by decide, rfl⟩
  · exact ⟨"EDITED", by decide, rfl⟩
  · exact ⟨"AMENDED", by decide, rfl⟩
  · exact ⟨"EMENDED PRIVATE KEY", by decide, rfl⟩
  · exact ⟨"REWRITTEN", by decide, rfl⟩
  · exact ⟨"AMENDED", by decide, rfl⟩
  · exact ⟨"EDITED", by decide, rfl⟩

theorem bracket_barrier : ∀ p ∈ patterns, Barrier p.regex '[' ∧ Barrier p.regex ']' := by
  intro p hp
  have havoid : ∀ p ∈ patterns, p.regex.avoids '[' = true ∧ p.regex.avoids ']' = true := by
    decide +kernel
  exact ⟨⟨(havoid p hp).1, by decide⟩, ⟨(havoid p hp).2, by decide⟩⟩

theorem name_free : ∀ p ∈ patterns, ∀ name ∈ names, Free p.regex name.toList := by
  have hnone : ∀ p ∈ patterns, ∀ name ∈ names, isMatch p.regex name.toList = false := by
    decide +kernel
  exact fun p hp name hname => isMatch_eq_false_iff.mp (hnone p hp name hname)

theorem patterns_rules : Rules patterns :=
  { sound := patterns_sound
    closed := fun p hp q hq => by
      obtain ⟨name, hname, hmarker⟩ := marker_of_pattern q hq
      exact ⟨'[', name.toList, ']', hmarker, (bracket_barrier p hp).1, (bracket_barrier p hp).2,
        name_free p hp name hname⟩ }

/-- A pattern with boundaries is followed only by ones that cut nothing out inside of a word. -/
theorem patterns_pairs : patterns.Pairwise fun q p => q.regex.anchored = true → p.Cut := by
  have hnone : ∀ {p : Rule}, reOpenaiKey.anchored = true → p.Cut := nofun
  have hgithub := github_cut amendedText.toList
  have hkey := privateKey_cut emendedPrivateKeyText.toList
  simp only [patterns, firstPatterns, List.cons_append, List.nil_append, List.pairwise_cons,
    List.forall_mem_cons, List.not_mem_nil, false_implies, implies_true, List.Pairwise.nil, and_true]
  refine ⟨⟨hnone, hnone, hnone, hnone, hnone, hnone⟩,
    ⟨fun _ => hgithub, fun _ => hkey, fun _ => bearer_cut, fun _ => connection_cut,
      fun _ => assignment_cut⟩,
    ⟨fun _ => hkey, fun _ => bearer_cut, fun _ => connection_cut, fun _ => assignment_cut⟩,
    ⟨fun _ => bearer_cut, fun _ => connection_cut, fun _ => assignment_cut⟩,
    ⟨fun _ => connection_cut, fun _ => assignment_cut⟩, fun _ => assignment_cut⟩

theorem whole_own_free {regex : Regex} {marker : List Char} (hr : regex.consumes = true)
    (hcut : regex.anchored = false ∨ Rule.Cut { regex, front := none, marker, behind := none })
    (text : List Char) :
    ∀ gap ∈ (weave { regex, front := none, marker, behind := none } text).gaps, Free regex gap :=
  weave_free (Rule.sound_whole marker hr)
    (fun hanchored => hcut.resolve_left (by rw [hanchored]; exact Bool.noConfusion)) fun _ _ => preFree_nil hr

/-- None of the first patterns leaves a match of its own. -/
theorem firstPatterns_own : ∀ p ∈ firstPatterns, ∀ text, ∀ gap ∈ (weave p text).gaps, Free p.regex gap := by
  intro p hp text
  simp only [firstPatterns, List.mem_cons, List.not_mem_nil, or_false] at hp
  rcases hp with rfl | rfl | rfl | rfl | rfl | rfl
  · exact whole_own_free (by decide) (Or.inl (by decide)) text
  · exact whole_own_free (by decide) (Or.inr (aws_cut _)) text
  · exact whole_own_free (by decide) (Or.inr (github_cut _)) text
  · exact whole_own_free (by decide) (Or.inl (by decide)) text
  · refine weave_free bearer_sound (fun _ => bearer_cut) fun e he => ?_
    obtain ⟨_, _, -, hmatch⟩ := (scan_findAll bearer_sound.consumes text).matches he
    obtain ⟨b, c, -, hb, -, hpre, -⟩ := Rule.fronted_split _ hmatch
    exact (congrArg (PreFree reBearerToken) hpre).mpr (bearer_preFree hb)
  · refine weave_free connection_sound (fun _ => connection_cut) fun e he => ?_
    obtain ⟨_, _, -, hmatch⟩ := (scan_findAll connection_sound.consumes text).matches he
    obtain ⟨b, _, _, -, ⟨_, _, hb⟩, -, -, hpre, -⟩ := connection_split hmatch
    rw [hpre]
    exact connection_preFree hb

/-! ### Complete revision -/

theorem containsSecret_eq_false_iff {text : String} :
    containsSecret text = false ↔ ∀ p ∈ patterns, Free p.regex text.toList := by
  rw [containsSecret, List.any_eq_false]
  exact forall_congr' fun p => imp_congr_right fun _ => by
    rw [Bool.not_eq_true, isMatch_eq_false_iff]

variable (text : String)

theorem toList_reviseSecrets : (reviseSecrets text).toList = (weaveAll patterns text.toList).after := by
  rw [reviseSecrets, String.toList_ofList, (weaveAll_spec patterns_rules text.toList).2.1]

theorem reviseSecrets_of_free {text : String} (h : containsSecret text = false) :
    reviseSecrets text = text := by
  have hfree := containsSecret_eq_false_iff.mp h
  have hreplace : ∀ rules : List Rule, (∀ p ∈ rules, p ∈ patterns) →
      replaceRules rules text.toList = text.toList := by
    intro rules
    induction rules with
    | nil => exact fun _ => rfl
    | cons p rules ih =>
      intro hall
      have hp : p.replace text.toList = text.toList :=
        replaceAll_of_free (hfree p (hall p List.mem_cons_self)) p.expand
      rw [replaceRules, List.foldl_cons, hp]
      exact ih fun q hq => hall q (List.mem_cons_of_mem p hq)
  rw [reviseSecrets, hreplace patterns fun _ hp => hp, String.ofList_toList]

/-- The gaps of the revised text have no secret of the first patterns. -/
theorem firstPatterns_free :
    ∀ q ∈ firstPatterns, ∀ gap ∈ (weaveAll patterns text.toList).gaps, Free q.regex gap := by
  intro q hq gap hgap
  obtain ⟨hfirst, -, hlast⟩ := List.pairwise_append.mp patterns_pairs
  have hfree := weaveAll_free (fun p hp => patterns_sound p (List.mem_append_left _ hp)) hfirst
    firstPatterns_own text.toList
  rw [patterns, weaveAll_concat, gaps_refine] at hgap
  obtain ⟨part, hpart, hgap⟩ := List.mem_flatMap.mp hgap
  exact weave_keeps (patterns_sound q (List.mem_append_left _ hq)).consumes assignment_sound
    (hlast q hq _ (List.mem_singleton.mpr rfl)) (hfree q hq part hpart) gap hgap

/-- They have no assignment when no separator is long. -/
theorem assignment_free_iff :
    (∀ gap ∈ (weaveAll patterns text.toList).gaps, Free reGenericSecretAssignment gap) ↔
      SeparatorsShort text := by
  rw [patterns, weaveAll_concat, gaps_refine, List.forall_mem_flatMap]
  refine forall_congr' fun part => imp_congr_right fun _ => ?_
  refine (weave_free_iff assignment_sound (by decide)).trans ?_
  refine forall_congr' fun found => forall_congr' fun hfound => ?_
  obtain ⟨_, _, -, hmatch⟩ := (scan_findAll assignment_sound.consumes part).matches hfound
  obtain ⟨b, c, -, hb, -, hpre, -⟩ := Rule.fronted_split _ hmatch
  have hgroup : found.2.group 1 = b.text := hpre
  rw [hgroup]
  refine (iff_of_eq (congrArg (Free reGenericSecretAssignment) hpre)).trans ?_
  constructor
  · exact fun hfree hlong => match_of_longSeparator hb hlong hfree
  · exact fun hshort => not_not.mp fun hnot => hshort (longSeparator_of_match hb hnot)

theorem containsSecret_revised_iff : containsSecret (reviseSecrets text) = false ↔ SeparatorsShort text := by
  have hafter : ∀ p ∈ patterns, (Free p.regex (weaveAll patterns text.toList).after ↔
      ∀ gap ∈ (weaveAll patterns text.toList).gaps, Free p.regex gap) := by
    intro p hp
    refine free_after_iff (patterns_sound p hp).consumes fun e he => ?_
    have hof := (weaveAll_spec patterns_rules text.toList).2.2
    exact patterns_rules.closed p hp e.1 (hof.mem he)
  have hlast : genericSecretAssignment ∈ patterns :=
    List.mem_append_right _ (List.mem_singleton.mpr rfl)
  rw [containsSecret_eq_false_iff, toList_reviseSecrets, ← assignment_free_iff]
  constructor
  · exact fun h => (hafter _ hlast).mp (h _ hlast)
  · intro h p hp
    refine (hafter p hp).mpr ?_
    rcases List.mem_append.mp hp with hp | hp
    · exact firstPatterns_free text p hp
    · obtain rfl := List.mem_singleton.mp hp
      exact h

/-- **The revision is complete just when no separator is long**: no secret is left, a second revision
changes nothing, and what is not a secret is as it was. -/
theorem revise_complete_iff (text : String) : Complete text ↔ SeparatorsShort text := by
  rw [← containsSecret_revised_iff]
  constructor
  · exact fun h => h.noSecret
  · intro h
    obtain ⟨hbefore, hafter, hof⟩ := weaveAll_spec patterns_rules text.toList
    exact
      { noSecret := h
        again := reviseSecrets_of_free h
        unchanged := ⟨weaveAll patterns text.toList, hbefore, (toList_reviseSecrets text).symm, hof⟩ }

/-- Behind `token` and seventeen `=` the secret goes, and a second revision takes sixteen of these. -/
theorem equals_left :
    let text := "token=================aaaaaaaaaaaaaaaa"
    reviseSecrets text = "token=================[EDITED]" ∧
      containsSecret (reviseSecrets text) = true ∧
      reviseSecrets (reviseSecrets text) = "token=[EDITED][EDITED]" := by
  decide +kernel

end Vexcoder.Runtime.Secrets
