import Vexcoder.Base.JsonText
import Vexcoder.Runtime.DeltaAccumulator

/-!
# The check of a delta against the nesting of a JSON text

`is_valid_json_prefix` counts open braces and brackets in `i32`.  As long as the scanned text is
shorter than `2 ^ 31` characters no counter overflows, and the scan is the one of `Nesting`: the check
passes on every part, from its start, of a well-formed JSON text (`isValidJsonPrefix_of_wellFormed`).
-/

namespace Vexcoder.Runtime

open Base

structure JsonNesting.Counts (n : JsonNesting) (m : JsonText.Nesting) : Prop where
  braces : n.braceDepth.toInt = m.braces
  brackets : n.bracketDepth.toInt = m.brackets
  inString : n.inString = m.inString
  escaped : n.escaped = m.escaped

theorem counts_start : JsonNesting.Counts {} {} := ⟨rfl, rfl, rfl, rfl⟩

variable {d : Int32} {k : ℕ} {n : JsonNesting} {m m' : JsonText.Nesting} {c : Char}

/-- An `i32` that counts up from `k`, short of the overflow. -/
theorem toInt_succ (h : d.toInt = k) (hk : k + 1 < 2 ^ 31) : (d + 1).toInt = (k + 1 : ℕ) := by
  rw [Int32.toInt_add, show (1 : Int32).toInt = 1 from rfl, Int.bmod_def]
  omega

theorem toInt_pred (h : d.toInt = k) (hk : k < 2 ^ 31) (hpos : k ≠ 0) : (d - 1).toInt = (k - 1 : ℕ) := by
  rw [Int32.toInt_sub, show (1 : Int32).toInt = 1 from rfl, Int.bmod_def]
  omega

theorem pred_lt_zero_iff (h : d.toInt = k) (hk : k < 2 ^ 31) : d - 1 < 0 ↔ k = 0 := by
  rw [Int32.lt_iff_toInt_lt, Int32.toInt_sub, show (1 : Int32).toInt = 1 from rfl,
    show (0 : Int32).toInt = 0 from rfl, Int.bmod_def]
  omega

/-- Inside a string no depth changes. -/
theorem JsonNesting.Counts.read_inside (h : n.Counts m) (hin : m.inString = true) (hm : m.read c = some m') :
    (∃ n', n.read c = some n' ∧ n'.Counts m') ∧ m'.braces = m.braces ∧ m'.brackets = m.brackets := by
  have hin' : n.inString = true := h.inString.trans hin
  rw [JsonText.Nesting.read, if_pos hin] at hm
  rw [JsonNesting.read, if_pos hin']
  by_cases hesc : m.escaped = true
  · rw [if_pos hesc] at hm
    rw [if_pos (h.escaped.trans hesc)]
    obtain rfl := Option.some.inj hm
    exact ⟨⟨{ n with escaped := false }, rfl, h.braces, h.brackets, h.inString, rfl⟩, rfl, rfl⟩
  · rw [if_neg hesc] at hm
    rw [if_neg (h.escaped ▸ hesc)]
    by_cases hback : c = '\\'
    · rw [if_pos hback] at hm
      rw [if_pos hback]
      obtain rfl := Option.some.inj hm
      exact ⟨⟨{ n with escaped := true }, rfl, h.braces, h.brackets, h.inString, rfl⟩, rfl, rfl⟩
    · rw [if_neg hback] at hm
      rw [if_neg hback]
      by_cases hquote : c = '"'
      · rw [if_pos hquote] at hm
        rw [if_pos hquote]
        obtain rfl := Option.some.inj hm
        exact ⟨⟨{ n with inString := false }, rfl, h.braces, h.brackets, rfl, h.escaped⟩, rfl, rfl⟩
      · rw [if_neg hquote] at hm
        rw [if_neg hquote]
        obtain rfl := Option.some.inj hm
        exact ⟨⟨n, rfl, h⟩, rfl, rfl⟩

/-- Outside of strings a character changes one depth at most, and by one. -/
theorem JsonNesting.Counts.read_outside (h : n.Counts m) (hbraces : m.braces + 1 < 2 ^ 31)
    (hbrackets : m.brackets + 1 < 2 ^ 31) (hout : ¬ m.inString = true) (hm : m.read c = some m') :
    (∃ n', n.read c = some n' ∧ n'.Counts m') ∧ m'.braces ≤ m.braces + 1 ∧ m'.brackets ≤ m.brackets + 1 := by
  have hout' : ¬ n.inString = true := h.inString ▸ hout
  rw [JsonText.Nesting.read, if_neg hout] at hm
  rw [JsonNesting.read, if_neg hout']
  by_cases hquote : c = '"'
  · rw [if_pos hquote] at hm
    rw [if_pos hquote]
    obtain rfl := Option.some.inj hm
    exact ⟨⟨{ n with inString := true }, rfl, h.braces, h.brackets, rfl, h.escaped⟩,
      Nat.le_succ _, Nat.le_succ _⟩
  rw [if_neg hquote] at hm ⊢
  by_cases hopen : c = '{'
  · rw [if_pos hopen] at hm
    rw [if_pos hopen]
    obtain rfl := Option.some.inj hm
    exact ⟨⟨{ n with braceDepth := n.braceDepth + 1 }, rfl, toInt_succ h.braces hbraces, h.brackets,
      h.inString, h.escaped⟩, Nat.le_refl _, Nat.le_succ _⟩
  rw [if_neg hopen] at hm ⊢
  by_cases hclose : c = '}'
  · rw [if_pos hclose] at hm
    rw [if_pos hclose]
    by_cases hnone : m.braces = 0
    · rw [if_pos hnone] at hm
      cases hm
    have hkeep : ¬ n.braceDepth - 1 < 0 :=
      fun hlt => hnone ((pred_lt_zero_iff h.braces (by omega)).mp hlt)
    rw [if_neg hnone] at hm
    rw [if_neg hkeep]
    obtain rfl := Option.some.inj hm
    refine ⟨⟨{ n with braceDepth := n.braceDepth - 1 }, rfl,
      toInt_pred h.braces (by omega) hnone, h.brackets, h.inString, h.escaped⟩, ?_, Nat.le_succ _⟩
    show m.braces - 1 ≤ m.braces + 1
    omega
  rw [if_neg hclose] at hm ⊢
  by_cases harray : c = '['
  · rw [if_pos harray] at hm
    rw [if_pos harray]
    obtain rfl := Option.some.inj hm
    exact ⟨⟨{ n with bracketDepth := n.bracketDepth + 1 }, rfl, h.braces,
      toInt_succ h.brackets hbrackets, h.inString, h.escaped⟩, Nat.le_succ _, Nat.le_refl _⟩
  rw [if_neg harray] at hm ⊢
  by_cases hend : c = ']'
  · rw [if_pos hend] at hm
    rw [if_pos hend]
    by_cases hnone : m.brackets = 0
    · rw [if_pos hnone] at hm
      cases hm
    have hkeep : ¬ n.bracketDepth - 1 < 0 :=
      fun hlt => hnone ((pred_lt_zero_iff h.brackets (by omega)).mp hlt)
    rw [if_neg hnone] at hm
    rw [if_neg hkeep]
    obtain rfl := Option.some.inj hm
    refine ⟨⟨{ n with bracketDepth := n.bracketDepth - 1 }, rfl, h.braces,
      toInt_pred h.brackets (by omega) hnone, h.inString, h.escaped⟩, Nat.le_succ _, ?_⟩
    show m.brackets - 1 ≤ m.brackets + 1
    omega
  rw [if_neg hend] at hm ⊢
  obtain rfl := Option.some.inj hm
  exact ⟨⟨n, rfl, h⟩, Nat.le_succ _, Nat.le_succ _⟩

theorem JsonNesting.Counts.read (h : n.Counts m) (hbraces : m.braces + 1 < 2 ^ 31)
    (hbrackets : m.brackets + 1 < 2 ^ 31) (hm : m.read c = some m') :
    (∃ n', n.read c = some n' ∧ n'.Counts m') ∧ m'.braces ≤ m.braces + 1 ∧ m'.brackets ≤ m.brackets + 1 := by
  by_cases hin : m.inString = true
  · obtain ⟨hnext, hsame, hsame'⟩ := h.read_inside hin hm
    exact ⟨hnext, by omega, by omega⟩
  · exact h.read_outside hbraces hbrackets hin hm

/-- A text too short for an overflow is scanned as its nesting says. -/
theorem JsonNesting.Counts.scan (h : n.Counts m) (s : List Char)
    (hbraces : m.braces + s.length < 2 ^ 31) (hbrackets : m.brackets + s.length < 2 ^ 31)
    (hm : (m.scan s).isSome) : (n.scan s).isSome := by
  induction s generalizing n m with
  | nil => rfl
  | cons c s ih =>
    rw [List.length_cons] at hbraces hbrackets
    rw [JsonText.Nesting.scan] at hm
    cases hread : m.read c with
    | none =>
      rw [hread] at hm
      cases hm
    | some m' =>
      rw [hread] at hm
      obtain ⟨⟨n', hn', hcounts⟩, hle, hle'⟩ := h.read (by omega) (by omega) hread
      rw [JsonNesting.scan, hn']
      exact ih hcounts (by omega) (by omega) hm

/-- The check passes on a part of a well-formed text from its start. -/
theorem isValidJsonPrefix_of_wellFormed {existing incoming text : List Char} (h : JsonText.WellFormed text)
    (hpart : existing ++ incoming <+: text) (hlen : (existing ++ incoming).length < 2 ^ 31) :
    isValidJsonPrefix existing incoming = true := by
  refine counts_start.scan (existing ++ incoming) ?_ ?_ (h.scan_isSome hpart)
  · rw [show ({} : JsonText.Nesting).braces = 0 from rfl]
    omega
  · rw [show ({} : JsonText.Nesting).brackets = 0 from rfl]
    omega

end Vexcoder.Runtime
