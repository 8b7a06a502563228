import Vexcoder.Runtime.Secrets

/-!
# The patterns of secrets

What each pattern takes, and that none is cut out inside of a word: so what the ones before it left
without a match stays so (`firstPatterns_free`).
-/

namespace Vexcoder.Runtime.Secrets

open Lib Lib.Regex Lib.Redaction Hit

variable {prev next : Option Char} {a b : Hit}

/-! ### Characters -/

-- The characters of a list are met one by one, where one could also go over all there are.
local instance decidableForallMem (l : List Char) (P : Char → Prop) [DecidablePred P] : Decidable (∀ c ∈ l, P c) :=
  List.decidableBAll P l

variable {c : Char} {p : Char → Bool} {r : Regex}

theorem secretChar_of_word (h : isWordChar c = true) : isSecretChar c = true := by
  rw [isWordChar, Bool.or_eq_true, beq_iff_eq] at h
  rw [isSecretChar, Bool.or_eq_true]
  rcases h with h | rfl
  · exact Or.inl h
  · exact Or.inr (by decide)

/-- `:` apart, a separator is a space or `=`. -/
def separators : List Char := ['=', ':', ' ', '\t', '\n', '\x0b', '\x0c', '\r']

theorem isSeparator_iff : isSeparator c = true ↔ c ∈ separators := by
  simp only [isSeparator, isSpace, separators, Bool.or_eq_true, beq_iff_eq, List.contains_iff_mem,
    List.mem_cons, or_assoc]

theorem isSpace_iff : isSpace c = true ↔ c ∈ [' ', '\t', '\n', '\x0b', '\x0c', '\r'] := List.contains_iff_mem

theorem quote_of (h : isQuote c = true) : c ∈ ['\x22', '\x27'] := by
  rw [isQuote, Bool.or_eq_true, beq_iff_eq, beq_iff_eq] at h
  rcases h with rfl | rfl <;> decide

theorem space_not_secretChar (h : isSpace c = true) : isSecretChar c = false := by
  have hall : ∀ c ∈ [' ', '\t', '\n', '\x0b', '\x0c', '\r'], isSecretChar c = false := by decide
  exact hall c (isSpace_iff.mp h)

theorem separator_not_word (h : isSeparator c = true) : isWordChar c = false := by
  have hall : ∀ c ∈ separators, isWordChar c = false := by decide
  exact hall c (isSeparator_iff.mp h)

theorem quote_not_word (h : isQuote c = true) : isWordChar c = false := by
  have hall : ∀ c ∈ ['\x22', '\x27'], isWordChar c = false := by decide
  exact hall c (quote_of h)

theorem quote_not_separator (h : isQuote c = true) : isSeparator c = false := by
  have hall : ∀ c ∈ ['\x22', '\x27'], isSeparator c = false := by decide
  exact hall c (quote_of h)

theorem quote_not_secretChar (h : isQuote c = true) : isSecretChar c = false := by
  have hall : ∀ c ∈ ['\x22', '\x27'], isSecretChar c = false := by decide
  exact hall c (quote_of h)

/-- The separator that a secret may have in it. -/
theorem eq_of_separator_secretChar (h : isSeparator c = true) (hsecret : isSecretChar c = true) :
    c = '=' := by
  have hall : ∀ c ∈ separators, isSecretChar c = true → c = '=' := by decide
  exact hall c (isSeparator_iff.mp h) hsecret

theorem behind_front {front behind l r : List Char} (hfront : ∀ d ∈ front, p d = false)
    (hc : p c = true) (h : front ++ behind = l ++ c :: r) : ∃ m, behind = m ++ c :: r := by
  rcases List.append_eq_append_iff.mp h with ⟨m, -, hbehind⟩ | ⟨m, hm, hbehind⟩
  · exact ⟨m, hbehind⟩
  cases m with
  | nil => exact ⟨[], hbehind.symm⟩
  | cons d m =>
    obtain rfl := (List.cons.inj hbehind).1
    rw [hfront c (hm ▸ List.mem_append_right l List.mem_cons_self)] at hc
    cases hc

/-! ### Where a secret is cut out -/

theorem cut_of_whole {regex : Regex} {marker : List Char}
    (h : ∀ {prev a next}, Matches regex prev a next → Safe prev a.text.head? ∧ Safe a.text.getLast? next) :
    Rule.Cut { regex, front := none, marker, behind := none } := by
  refine ⟨fun {prev a behind} hhead => ?_⟩
  have hmatch := (mem_runs.mp (List.mem_of_head? hhead)).2
  rw [List.drop_left] at hmatch
  have hsecret : Rule.secret { regex, front := none, marker, behind := none } a = a.text :=
    Rule.secret_eq _ (List.append_nil _).symm
  rw [hsecret]
  exact h hmatch

def endsWithBoundary : Regex → Bool
  | .boundary => true
  | .seq _ s => endsWithBoundary s
  | _ => false

theorem word_ne_of_endsWithBoundary (hr : endsWithBoundary r = true) (h : Matches r prev a next) :
    wordAt (a.text.getLast?.or prev) ≠ wordAt next := by
  induction r generalizing prev a next with
  | boundary =>
    obtain ⟨rfl, hne⟩ := h
    exact hne
  | seq r s ihr ihs =>
    obtain ⟨b, c, rfl, hb, hc⟩ := h
    rw [append_text, List.getLast?_append, Option.or_assoc]
    exact ihs hr hc
  | chars p least most | alt r s ihr ihs | group n r ih => cases hr

theorem safe_of_boundaries (hr : r.consumes = true) (hend : endsWithBoundary r = true)
    (h : Matches (.seq .boundary r) prev a next) :
    Safe prev a.text.head? ∧ Safe a.text.getLast? next := by
  obtain ⟨_, b, rfl, ⟨rfl, hfront⟩, hb⟩ := h
  have hne : b.text ≠ [] := hb.ne_nil hr
  constructor
  · obtain ⟨c, text, htext⟩ := List.exists_cons_of_ne_nil hne
    refine Safe.of_ne ?_
    rw [htext] at hfront
    rw [append_text, htext]
    exact hfront
  · have hbehind := word_ne_of_endsWithBoundary hend hb
    rw [getLast?_or hne] at hbehind
    exact Safe.of_ne hbehind

variable (marker : List Char)

theorem aws_cut : Rule.Cut { regex := reAwsAccessKey, front := none, marker, behind := none } :=
  cut_of_whole fun h => safe_of_boundaries (by decide) (by decide) h

theorem github_cut : Rule.Cut { regex := reGithubToken, front := none, marker, behind := none } :=
  cut_of_whole fun h => safe_of_boundaries (by decide) (by decide) h

theorem safe_left {u v : Option Char} (h : wordAt u = false) : Safe u v := by
  intro hboth
  rw [h] at hboth
  cases hboth.1

theorem privateKey_cut : Rule.Cut { regex := rePrivateKeyHeader, front := none, marker, behind := none } := by
  refine cut_of_whole fun h => ?_
  obtain ⟨b, _, rfl, hb, c, d, rfl, hc, hd⟩ := h
  rw [append_text, append_text, text_of_literal hb, text_of_literal hd]
  constructor
  · exact (safe_left rfl).symm
  · rw [← List.append_assoc, List.getLast?_append]
    exact safe_left rfl

/-- As many characters as there are are taken for the secret. -/
theorem safe_of_greedy {least : ℕ} {rest : List Char} (hp : ∀ c, isWordChar c = true → p c = true)
    (h : (runs (.chars p least none) prev rest).head? = some a) (u : Option Char) :
    Safe u (rest.drop a.text.length).head? := by
  rw [head?_runs_chars h]
  cases hbehind : (rest.drop (rest.takeWhile p).length).head? with
  | none => exact Safe.none_right u
  | some c =>
    refine (safe_left ?_).symm
    have hc := head?_drop_takeWhile hbehind
    cases hword : isWordChar c with
    | false => exact hword
    | true =>
      rw [hp c hword] at hc
      cases hc

/-- A rule that keeps a front ending outside of a word, and takes all it can behind it. -/
theorem fronted_cut {s : Regex}
    (hfront : ∀ {prev b next}, Matches r prev b next → ∃ c, b.text.getLast? = some c ∧ isWordChar c = false)
    (hgreedy : ∀ {prev a} {rest : List Char}, (runs s prev rest).head? = some a →
      ∀ u, Safe u (rest.drop a.text.length).head?) : (Rule.fronted r s marker).Cut := by
  refine ⟨fun {prev a behind} hhead => ?_⟩
  obtain ⟨_, c, hb, hc, rfl⟩ := head?_runs_seq hhead
  obtain ⟨-, b, rfl, hbm⟩ := mem_runs.mp hb
  have hpre : (Rule.fronted r s marker).pre ((b.captured 1).append c) = b.text := rfl
  have hsecret : (Rule.fronted r s marker).secret ((b.captured 1).append c) = c.text := by
    refine Rule.secret_eq _ ?_
    rw [hpre]
    show b.text ++ c.text = b.text ++ (c.text ++ [])
    rw [List.append_nil]
  obtain ⟨d, hd, hword⟩ := hfront hbm
  rw [hpre, hsecret, hd]
  constructor
  · exact safe_left hword
  · have hsafe := hgreedy hc c.text.getLast?
    rw [append_text, captured_text, List.append_assoc, List.drop_left, List.drop_left] at hsafe
    exact hsafe

theorem getLast?_of_chars {least : ℕ} {most : Option ℕ} (hleast : 0 < least)
    (h : Matches (.chars p least most) prev a next) :
    ∃ c, a.text.getLast? = some c ∧ p c = true := by
  obtain ⟨-, hall, hlen, -⟩ := h
  have hne : a.text ≠ [] := List.ne_nil_of_length_pos (Nat.lt_of_lt_of_le hleast hlen)
  exact ⟨a.text.getLast hne, List.getLast?_eq_some_getLast hne, hall _ (List.getLast_mem hne)⟩

theorem space_not_word (h : isSpace c = true) : isWordChar c = false := by
  have hall : ∀ c ∈ [' ', '\t', '\n', '\x0b', '\x0c', '\r'], isWordChar c = false := by decide
  exact hall c (isSpace_iff.mp h)

theorem bearerFront_end (h : Matches bearerFront prev b next) :
    ∃ c, b.text.getLast? = some c ∧ isWordChar c = false := by
  obtain ⟨word, space, rfl, -, hspace⟩ := h
  obtain ⟨c, hc, hp⟩ := getLast?_of_chars Nat.one_pos hspace
  refine ⟨c, ?_, space_not_word hp⟩
  rw [append_text, List.getLast?_append, hc]
  rfl

theorem assignmentFront_end (h : Matches assignmentFront prev b next) :
    ∃ c, b.text.getLast? = some c ∧ isWordChar c = false := by
  obtain ⟨key, _, rfl, -, sep, quote, rfl, hsep, hquote⟩ := h
  obtain ⟨c, hc, hp⟩ := getLast?_of_chars Nat.one_pos hsep
  rw [append_text, append_text, List.getLast?_append, List.getLast?_append, hc]
  cases hlast : quote.text.getLast? with
  | none => exact ⟨c, rfl, separator_not_word hp⟩
  | some d => exact ⟨d, rfl, quote_not_word (hquote.2.1 d (List.mem_of_getLast? hlast))⟩

theorem bearer_cut : bearerToken.Cut :=
  fronted_cut rewrittenText.toList bearerFront_end fun h =>
    safe_of_greedy (fun _ => secretChar_of_word) h

theorem assignment_cut : genericSecretAssignment.Cut := by
  refine fronted_cut editedText.toList assignmentFront_end fun h => ?_
  rw [runs, List.head?_map, Option.map_eq_some_iff] at h
  obtain ⟨b, hb, rfl⟩ := h
  exact fun u => safe_of_greedy (fun _ => secretChar_of_word) hb u

/-! ### The connection string -/

theorem connection_split (h : Matches reConnectionString prev a next) :
    ∃ b c d : Hit, a = (b.captured 1).append ((c.captured 2).append (d.captured 3)) ∧
      (∃ prev next, Matches connectionFront prev b next) ∧
      (∃ prev next, Matches connectionSecret prev c next) ∧ d.text = ['@'] ∧
      connectionString.pre a = b.text ∧ connectionString.post a = d.text ∧
      connectionString.secret a = c.text := by
  obtain ⟨_, _, rfl, ⟨b, rfl, hb⟩, _, _, rfl, ⟨c, rfl, hc⟩, d, rfl, hd⟩ := h
  have hbgroups : b.groups = [] := hb.groups_eq_nil (by decide)
  have hcgroups : c.groups = [] := hc.groups_eq_nil (by decide)
  have hpre : connectionString.pre ((b.captured 1).append ((c.captured 2).append (d.captured 3))) =
      b.text := rfl
  have hpost : connectionString.post
      ((b.captured 1).append ((c.captured 2).append (d.captured 3))) = d.text := by
    obtain ⟨btext, bgroups⟩ := b
    obtain ⟨ctext, cgroups⟩ := c
    cases hbgroups
    cases hcgroups
    rfl
  refine ⟨b, c, d, rfl, ⟨_, _, hb⟩, ⟨_, _, hc⟩, text_of_literal hd, hpre, hpost, Rule.secret_eq _ ?_⟩
  rw [hpost]
  rfl

theorem connectionFront_text (h : Matches connectionFront prev b next) :
    ∃ host, b.text = "://".toList ++ (host ++ ":".toList) := by
  obtain ⟨scheme, _, rfl, hscheme, host, colon, rfl, -, hcolon⟩ := h
  refine ⟨host.text, ?_⟩
  rw [append_text, append_text, text_of_literal hscheme, text_of_literal hcolon]

theorem connection_sound : connectionString.Sound := by
  refine ⟨by decide, ?_, ?_, ?_⟩
  · intro prev a next hmatch
    obtain ⟨b, c, d, rfl, -, -, -, hpre, hpost, hsecret⟩ := connection_split hmatch
    rw [hpre, hpost, hsecret]
    rfl
  · intro prev a next hmatch
    obtain ⟨b, c, d, -, -, ⟨_, _, hc⟩, -, -, -, hsecret⟩ := connection_split hmatch
    rw [hsecret]
    exact hc.ne_nil (by decide)
  · intro prev a next hmatch c hc prev' e next' he
    obtain ⟨-, -, d, -, -, -, hd, -, hpost, -⟩ := connection_split hmatch
    obtain ⟨b, _, _, rfl, ⟨_, _, hb⟩, -⟩ := connection_split he
    obtain ⟨host, hhost⟩ := connectionFront_text hb
    rw [hpost, hd] at hc
    obtain rfl := List.mem_singleton.mp hc
    rw [append_text, captured_text, hhost]
    intro heq
    have hcolon : some ':' = some '@' := heq
    exact absurd hcolon (by decide)

theorem connection_cut : connectionString.Cut := by
  refine ⟨fun {prev a behind} hhead => ?_⟩
  obtain ⟨b, c, d, -, ⟨_, _, hb⟩, -, hd, hpre, hpost, hsecret⟩ :=
    connection_split (mem_runs.mp (List.mem_of_head? hhead)).2
  obtain ⟨host, hhost⟩ := connectionFront_text hb
  rw [hpre, hpost, hsecret, hd, hhost]
  constructor
  · rw [← List.append_assoc, List.getLast?_append]
    exact safe_left rfl
  · exact (safe_left rfl).symm

/-! ### What is kept in front of a hit -/

theorem preFree_nil (hr : r.consumes = true) : PreFree r [] := by
  intro front b behind heq prev hmatch
  obtain ⟨-, hrest⟩ := List.append_eq_nil_iff.mp heq.symm
  exact hmatch.ne_nil hr (List.append_eq_nil_iff.mp hrest).1

/-- Behind `bearer` there are only spaces. -/
theorem bearer_preFree (h : Matches bearerFront prev b next) : PreFree reBearerToken b.text := by
  obtain ⟨word, space, rfl, hword, hspace⟩ := h
  intro front d behind heq prev hmatch
  obtain ⟨e, secret, rfl, ⟨word', space', rfl, -, hspace'⟩, hsecret, -, -⟩ :=
    Rule.fronted_split [] hmatch
  obtain ⟨-, hspaces', hleast, -⟩ := hspace'
  obtain ⟨-, hchars, hlong, -⟩ := hsecret
  obtain ⟨c, spaces, hc⟩ := List.exists_cons_of_ne_nil
    (List.ne_nil_of_length_pos (Nat.lt_of_lt_of_le Nat.one_pos hleast))
  have hnoSpace : ∀ d ∈ word.text, isSpace d = false := by
    intro d hd
    cases hspaced : isSpace d with
    | false => rfl
    | true =>
      have havoid : ∀ d ∈ [' ', '\t', '\n', '\x0b', '\x0c', '\r'],
          (literalIgnoreCase "bearer").avoids d = true := by decide
      exact absurd hd (hword.not_mem (havoid d (isSpace_iff.mp hspaced)))
  have htext : word.text ++ space.text =
      (front ++ word'.text) ++ c :: (spaces ++ (secret.text ++ behind)) := by
    rw [append_text] at heq
    rw [heq]
    simp only [append_text, captured_text, hc, List.append_assoc, List.cons_append]
  obtain ⟨m, hm⟩ := behind_front hnoSpace (hspaces' c (hc ▸ List.mem_cons_self)) htext
  obtain ⟨f, chars, hf⟩ := List.exists_cons_of_ne_nil
    (List.ne_nil_of_length_pos (Nat.lt_of_lt_of_le (by decide : 0 < 20) hlong))
  have hmem : f ∈ space.text := by
    rw [hm, hf]
    simp
  have hnot := space_not_secretChar (hspace.2.1 f hmem)
  rw [hchars f (hf ▸ List.mem_cons_self)] at hnot
  cases hnot

theorem connection_preFree (h : Matches connectionFront prev b next) : PreFree reConnectionString b.text := by
  intro front d behind heq prev hmatch
  obtain ⟨_, _, e, rfl, -, -, he, -⟩ := connection_split hmatch
  have hat : '@' ∈ b.text := by
    rw [heq, append_text, append_text, captured_text, captured_text, captured_text, he]
    simp
  exact h.not_mem (by decide) hat

/-! ### Separators of assignments -/

theorem separator_not_mem_key (h : Matches assignmentKey prev a next) :
    ∀ c ∈ a.text, isSeparator c = false := by
  intro c hc
  cases hsep : isSeparator c with
  | false => rfl
  | true =>
    have havoid : ∀ c ∈ separators, assignmentKey.avoids c = true := by decide
    exact absurd hc (h.not_mem (havoid c (isSeparator_iff.mp hsep)))

/-- An assignment in what is kept of another one has its secret among the separators. -/
theorem longSeparator_of_match (h : Matches assignmentFront prev b next)
    (hnot : ¬ Free reGenericSecretAssignment b.text) : LongSeparator b.text := by
  obtain ⟨key, _, rfl, hkey, sep, quote, rfl, ⟨-, hsep, -, -⟩, -, hquote, -, hone⟩ := h
  simp only [Free, not_forall, not_not] at hnot
  obtain ⟨front, d, behind, heq, hmatch⟩ := hnot
  obtain ⟨e, _, rfl, ⟨key', _, rfl, -, sep', quote', rfl, ⟨-, hsep', hleast, -⟩, -, hquote', -, -⟩,
    ⟨secret, rfl, -, hsecret, hlong, -⟩, -⟩ := Rule.fronted_split [] hmatch
  -- The last separator of the inner assignment is one of the outer.
  obtain ⟨seps, c, hc⟩ : ∃ seps c, sep'.text = seps ++ [c] := by
    rcases sep'.text.eq_nil_or_concat' with hnil | ⟨seps, c, hc⟩
    · rw [hnil] at hleast
      cases hleast
    · exact ⟨seps, c, hc⟩
  have hcsep : isSeparator c = true := hsep' c (hc ▸ List.mem_append_right seps List.mem_cons_self)
  have htext : key.text ++ (sep.text ++ quote.text) =
      (front ++ (key'.text ++ seps)) ++ c :: (quote'.text ++ (secret.text ++ behind)) := by
    have heq' := heq
    simp only [append_text, captured_text, hc, List.append_assoc, List.cons_append,
      List.nil_append] at heq' ⊢
    exact heq'
  obtain ⟨m, hm⟩ := behind_front (separator_not_mem_key hkey) hcsep htext
  -- Behind it there is no quote, as that would be the end.
  have hnoQuote : quote'.text = [] := by
    cases hq : quote'.text with
    | nil => rfl
    | cons u quotes =>
      have hu : isQuote u = true := hquote' u (hq ▸ List.mem_cons_self)
      have hinside : sep.text ++ quote.text = (m ++ [c]) ++ u :: (quotes ++ (secret.text ++ behind)) := by
        rw [hm, hq]
        simp
      have hnone : ∀ d ∈ sep.text, isQuote d = false := by
        intro d hd
        cases hd' : isQuote d with
        | false => rfl
        | true =>
          have hno := quote_not_separator hd'
          rw [hsep d hd] at hno
          cases hno
      obtain ⟨m', hm'⟩ := behind_front hnone hu hinside
      have hlen := hone 1 rfl
      rw [hm', List.length_append, List.length_cons, List.length_append, List.length_append] at hlen
      omega
  have hall : ∀ d ∈ secret.text, d = '=' := by
    intro d hd
    have hmem : d ∈ sep.text ++ quote.text := by
      rw [hm]
      simp [hd]
    have hd' := hsecret d hd
    rcases List.mem_append.mp hmem with hmem | hmem
    · exact eq_of_separator_secretChar (hsep d hmem) hd'
    · rw [quote_not_secretChar (hquote d hmem)] at hd'
      cases hd'
  obtain ⟨n, hn⟩ := Nat.exists_eq_add_of_le (show 16 ≤ secret.text.length from hlong)
  have hreplicate : secret.text = List.replicate 16 '=' ++ List.replicate n '=' := by
    rw [List.replicate_append_replicate, ← hn]
    exact List.eq_replicate_of_mem hall
  refine ⟨c, hcsep, front ++ (key'.text ++ seps), List.replicate n '=' ++ behind, ?_⟩
  show _ = key.text ++ (sep.text ++ quote.text)
  rw [htext, hnoQuote, hreplicate]
  simp

/-- The `=` behind a separator are a secret for the key in front of them. -/
theorem match_of_longSeparator (h : Matches assignmentFront prev b next)
    (hlong : LongSeparator b.text) : ¬ Free reGenericSecretAssignment b.text := by
  obtain ⟨key, _, rfl, hkey, sep, quote, rfl, ⟨-, hsep, -, -⟩, -, hquote, -, -⟩ := h
  obtain ⟨c, hc, l, r, hinfix⟩ := hlong
  have htext : key.text ++ (sep.text ++ quote.text) = l ++ c :: (List.replicate 16 '=' ++ r) := by
    show _ = l ++ ([c] ++ (List.replicate 16 '=' ++ r))
    rw [← List.append_assoc [c], ← List.append_assoc l]
    exact hinfix.symm
  obtain ⟨m, hm⟩ := behind_front (separator_not_mem_key hkey) hc htext
  have hinside : sep.text ++ quote.text = (m ++ c :: List.replicate 16 '=') ++ r := by
    rw [hm]
    simp
  -- A quote would be the last of the `=`.
  obtain ⟨rest, hrest⟩ : ∃ rest, sep.text = (m ++ c :: List.replicate 16 '=') ++ rest := by
    rcases List.append_eq_append_iff.mp hinside with ⟨t, ht, hquoteText⟩ | ⟨t, ht, -⟩
    · rcases t.eq_nil_or_concat' with rfl | ⟨t', d, rfl⟩
      · exact ⟨[], by rw [ht, List.append_nil, List.append_nil]⟩
      · have hd : d = '=' := by
          have hlast := congrArg List.getLast? ht
          rw [← List.append_assoc, List.getLast?_concat, List.getLast?_append] at hlast
          exact (Option.some.inj hlast).symm
        have hdquote := hquote d (hquoteText ▸ by simp)
        rw [hd] at hdquote
        exact absurd hdquote (by decide)
    · exact ⟨t, ht⟩
  intro hfree
  refine hfree []
    (((key.append (append { text := m ++ [c] } {})).captured 1).append
      (captured 2 { text := List.replicate 16 '=' }))
    (rest ++ quote.text) ?_ ?_
  · show key.text ++ (sep.text ++ quote.text) = _
    rw [hrest]
    simp
  · refine ⟨_, _, rfl, ⟨_, rfl, _, _, rfl, hkey.context (by decide) _ _, _, _, rfl, ⟨rfl, ?_, ?_, nofun⟩,
      rfl, nofun, Nat.zero_le _, fun _ _ => Nat.zero_le _⟩, _, rfl, rfl, ?_, ?_, nofun⟩
    · intro d hd
      refine hsep d ?_
      rw [hrest]
      simp only [List.mem_append, List.mem_cons, List.not_mem_nil, or_false] at hd ⊢
      rcases hd with hd | hd
      · exact Or.inl (Or.inl hd)
      · exact Or.inl (Or.inr (Or.inl hd))
    · show 1 ≤ (m ++ [c]).length
      rw [List.length_append, List.length_singleton]
      omega
    · intro d hd
      rw [(List.mem_replicate.mp hd).2]
      decide
    · exact Nat.le_refl 16

end Vexcoder.Runtime.Secrets
