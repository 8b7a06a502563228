import Vexcoder.Base.Text

/-!
# Lines and pieces

`str::lines` reads a text and `join "\n"` writes one, and the two are not inverse to each other: a
carriage return in front of a line feed goes, and so does a last line feed.  The pieces between the
line feeds are what joining gives back; `relined` is what reading makes of the pieces, and `Rejoins`
says when that is nothing.
-/

namespace Vexcoder.Base

theorem splitOn_eq (c : Char) (s : List Char) : splitOn c s = s.splitOn c := by
  induction s with
  | nil => rfl
  | cons a s ih =>
    rw [splitOn, List.splitOn_cons_eq_if_modifyHead, ih]
    by_cases ha : a = c
    · rw [if_pos ha, if_pos (beq_iff_eq.mpr ha)]
    · rw [if_neg ha, if_neg (by simpa using ha)]
      cases hs : s.splitOn c with
      | nil => exact absurd hs (List.splitOn_ne_nil c s)
      | cons piece pieces => rfl

variable {c : Char}

theorem not_mem_of_mem_splitOn {s p : List Char} (h : p ∈ splitOn c s) : c ∉ p := by
  induction s generalizing p with
  | nil =>
    obtain rfl := List.mem_singleton.mp h
    exact List.not_mem_nil
  | cons a s ih =>
    rw [splitOn] at h
    split at h
    · rcases List.mem_cons.mp h with rfl | h
      · exact List.not_mem_nil
      · exact ih h
    · rename_i ha
      cases hs : splitOn c s with
      | nil =>
        rw [hs] at h
        obtain rfl := List.mem_singleton.mp h
        exact fun hc => ha (List.mem_singleton.mp hc).symm
      | cons piece pieces =>
        rw [hs] at h ih
        rcases List.mem_cons.mp h with rfl | h
        · intro hc
          rcases List.mem_cons.mp hc with rfl | hc
          · exact ha rfl
          · exact ih List.mem_cons_self hc
        · exact ih (List.mem_cons_of_mem _ h)

theorem splitOn_ne_nil (c : Char) (s : List Char) : splitOn c s ≠ [] := by
  rw [splitOn_eq]
  exact List.splitOn_ne_nil c s

theorem splitOn_cons_of_ne {a : Char} (h : a ≠ c) (s : List Char) :
    splitOn c (a :: s) = (splitOn c s).modifyHead (a :: ·) := by
  rw [splitOn_eq, splitOn_eq, List.splitOn_cons_eq_if_modifyHead, if_neg (by simpa using h)]

theorem splitOn_append {q : List Char} (hq : c ∉ q) (r : List Char) :
    splitOn c (q ++ r) = (splitOn c r).modifyHead (q ++ ·) := by
  induction q with
  | nil =>
    show splitOn c r = (splitOn c r).modifyHead fun piece => piece
    cases splitOn c r <;> rfl
  | cons a q ih =>
    have ha : a ≠ c := fun heq => hq (heq ▸ List.mem_cons_self)
    rw [List.cons_append, splitOn_cons_of_ne ha, ih fun hc => hq (List.mem_cons_of_mem _ hc),
      List.modifyHead_modifyHead]
    rfl

/-- What is inside of a text, and has no separator in it, is inside of one of the pieces. -/
theorem infix_splitOn {pat s : List Char} (hpat : c ∉ pat) (h : pat <:+: s) :
    ∃ p ∈ splitOn c s, pat <:+: p := by
  obtain ⟨u, v, rfl⟩ := h
  rw [List.append_assoc]
  induction u with
  | nil =>
    rw [List.nil_append, splitOn_append hpat]
    cases hs : splitOn c v with
    | nil => exact absurd hs (splitOn_ne_nil c v)
    | cons piece pieces =>
      exact ⟨pat ++ piece, List.mem_cons_self, (List.prefix_append pat piece).isInfix⟩
  | cons a u ih =>
    obtain ⟨p, hp, hin⟩ := ih
    by_cases ha : a = c
    · rw [List.cons_append, splitOn, if_pos ha]
      exact ⟨p, List.mem_cons_of_mem _ hp, hin⟩
    rw [List.cons_append, splitOn_cons_of_ne ha]
    cases hs : splitOn c (u ++ (pat ++ v)) with
    | nil => exact absurd hs (splitOn_ne_nil c _)
    | cons piece pieces =>
      rw [hs] at hp
      rcases List.mem_cons.mp hp with rfl | hp
      · exact ⟨a :: p, List.mem_cons_self, hin.trans (List.suffix_cons a p).isInfix⟩
      · exact ⟨p, List.mem_cons_of_mem _ hp, hin⟩

namespace Text

open Lib.Search

/-- `str::split` at the line feeds. -/
def pieces (s : String) : List String := (splitOn '\n' s.toList).map String.ofList

variable {s l : String} {K : List String} {pat : List Char}

theorem newline_not_mem_of_mem_pieces {p : String} (h : p ∈ pieces s) : '\n' ∉ p.toList := by
  obtain ⟨piece, hpiece, rfl⟩ := List.mem_map.mp h
  rw [String.toList_ofList]
  exact not_mem_of_mem_splitOn hpiece

theorem join_cons {sep : String} (h : K ≠ []) (l : String) : join sep (l :: K) = l ++ sep ++ join sep K := by
  cases K with
  | nil => exact absurd rfl h
  | cons next rest => rfl

theorem join_concat {sep : String} (h : K ≠ []) (l : String) :
    join sep (K ++ [l]) = join sep K ++ sep ++ l := by
  induction K with
  | nil => exact absurd rfl h
  | cons first K ih =>
    by_cases hK : K = []
    · subst hK
      rfl
    · rw [List.cons_append, join_cons (List.append_ne_nil_of_left_ne_nil hK [l]), ih hK, join_cons hK]
      simp only [String.append_assoc]

theorem toList_join (sep : String) (K : List String) :
    (join sep K).toList = sep.toList.intercalate (K.map String.toList) := by
  induction K with
  | nil => rfl
  | cons l K ih =>
    cases K with
    | nil => exact List.intercalate_singleton.symm
    | cons next rest =>
      rw [join_cons (List.cons_ne_nil _ _), String.toList_append, String.toList_append, ih]
      show _ = sep.toList.intercalate (l.toList :: next.toList :: rest.map String.toList)
      rw [List.intercalate_cons_cons]
      rfl

theorem infix_of_mem_splitOn {s p : List Char} (h : p ∈ splitOn c s) : p <:+: s := by
  have hid : (String.toList ∘ String.ofList) = id := funext fun _ => String.toList_ofList
  have hinfix := @infix_join (String.ofList [c]) _ _ (List.mem_map_of_mem (f := String.ofList) h)
  rwa [toList_join, List.map_map, hid, List.map_id, String.toList_ofList, String.toList_ofList, splitOn_eq,
    List.intercalate_splitOn] at hinfix

theorem toList_newline : "\n".toList = ['\n'] := rfl

theorem join_pieces (s : String) : join "\n" (pieces s) = s := by
  apply String.toList_inj.mp
  rw [toList_join, toList_newline, pieces, List.map_map, splitOn_eq]
  have hid : (String.toList ∘ String.ofList) = id := funext fun _ => String.toList_ofList
  rw [hid, List.map_id, List.intercalate_splitOn]

theorem pieces_join (hne : K ≠ []) (hK : ∀ l ∈ K, '\n' ∉ l.toList) : pieces (join "\n" K) = K := by
  rw [pieces, splitOn_eq, toList_join, toList_newline, List.splitOn_intercalate]
  · rw [List.map_map]
    have hid : (String.ofList ∘ String.toList) = id := funext fun _ => String.ofList_toList
    rw [hid, List.map_id]
  · intro chars hchars
    obtain ⟨l, hl, rfl⟩ := List.mem_map.mp hchars
    exact hK l hl
  · exact fun h => hne (List.map_eq_nil_iff.mp h)

/-! ### What reading makes of the pieces -/

def withoutCr (piece : String) : String := String.ofList (stripCarriageReturn piece.toList)

def relined : List String → List String
  | [] => []
  | [last] => if last = "" then [] else [last]
  | piece :: next :: rest => withoutCr piece :: relined (next :: rest)

theorem relined_cons (h : K ≠ []) (piece : String) : relined (piece :: K) = withoutCr piece :: relined K := by
  cases K with
  | nil => exact absurd rfl h
  | cons next rest => rfl

theorem relined_concat (K : List String) {last : String} (h : last ≠ "") :
    relined (K ++ [last]) = K.map withoutCr ++ [last] := by
  induction K with
  | nil => exact if_neg h
  | cons piece K ih =>
    rw [List.cons_append, relined_cons (List.append_ne_nil_of_right_ne_nil K (List.cons_ne_nil _ _)),
      ih, List.map_cons, List.cons_append]

theorem relined_map (P : List (List Char)) :
    relined (P.map String.ofList) =
      (P.dropLast.map stripCarriageReturn ++
        if (P.getLastD []).isEmpty then [] else [P.getLastD []]).map String.ofList := by
  induction P with
  | nil => rfl
  | cons piece P ih =>
    cases P with
    | nil =>
      show (if String.ofList piece = "" then [] else [String.ofList piece]) = _
      cases piece with
      | nil => rfl
      | cons c piece =>
        have hne : String.ofList (c :: piece) ≠ "" := fun h => by
          have := congrArg String.toList h
          rw [String.toList_ofList] at this
          cases this
        rw [if_neg hne]
        rfl
    | cons next rest =>
      rw [List.map_cons, relined_cons (by simp), ih, withoutCr, String.toList_ofList]
      rfl

theorem lines_eq_relined (s : String) : lines s = relined (pieces s) :=
  (relined_map (splitOn '\n' s.toList)).symm

theorem lines_join (hK : ∀ l ∈ K, '\n' ∉ l.toList) : lines (join "\n" K) = relined K := by
  by_cases hne : K = []
  · subst hne
    rfl
  · rw [lines_eq_relined, pieces_join hne hK]

theorem relined_length_le (K : List String) : (relined K).length ≤ K.length := by
  induction K with
  | nil => exact Nat.le_refl 0
  | cons piece K ih =>
    cases K with
    | nil =>
      rw [relined]
      split <;> simp
    | cons next rest =>
      rw [relined, List.length_cons, List.length_cons]
      omega

theorem withoutCr_prefix (piece : String) : (withoutCr piece).toList <+: piece.toList := by
  rw [withoutCr, String.toList_ofList, stripCarriageReturn]
  split
  · exact List.dropLast_prefix _
  · exact List.prefix_rfl

theorem mem_relined (h : l ∈ relined K) : ∃ p ∈ K, l.toList <+: p.toList := by
  induction K with
  | nil => cases h
  | cons piece K ih =>
    cases K with
    | nil =>
      rw [relined] at h
      split at h
      · cases h
      · obtain rfl := List.mem_singleton.mp h
        exact ⟨l, h, List.prefix_rfl⟩
    | cons next rest =>
      rcases List.mem_cons.mp h with rfl | h
      · exact ⟨piece, List.mem_cons_self, withoutCr_prefix piece⟩
      · obtain ⟨p, hp, hpre⟩ := ih h
        exact ⟨p, List.mem_cons_of_mem _ hp, hpre⟩

theorem newline_not_mem_of_mem_lines (h : l ∈ lines s) : '\n' ∉ l.toList := by
  rw [lines_eq_relined] at h
  obtain ⟨p, hp, hpre⟩ := mem_relined h
  exact fun hl => newline_not_mem_of_mem_pieces hp (hpre.subset hl)

theorem infix_of_mem_lines (h : l ∈ lines s) : l.toList <:+: s.toList := by
  rw [lines_eq_relined] at h
  obtain ⟨p, hp, hpre⟩ := mem_relined h
  have hin : p.toList <:+: (join "\n" (pieces s)).toList := infix_join hp
  rw [join_pieces] at hin
  exact hpre.isInfix.trans hin

theorem infix_withoutCr {piece : String} (hpat : pat.getLast? ≠ some '\r')
    (h : pat <:+: piece.toList) : pat <:+: (withoutCr piece).toList := by
  rw [withoutCr, String.toList_ofList, stripCarriageReturn]
  split
  · rename_i hlast
    obtain ⟨u, v, huv⟩ := h
    rw [← huv] at hlast ⊢
    cases v with
    | nil =>
      rw [List.append_nil, List.getLast?_append] at hlast
      cases hp : pat.getLast? with
      | none =>
        rw [List.getLast?_eq_none_iff.mp hp]
        exact List.nil_infix
      | some c =>
        rw [hp] at hlast hpat
        exact absurd hlast hpat
    | cons c v =>
      rw [List.dropLast_append_of_ne_nil (List.cons_ne_nil c v)]
      exact ⟨u, (c :: v).dropLast, rfl⟩
  · exact h

theorem infix_relined {p : String} (hpat : pat.getLast? ≠ some '\r') (hne : pat ≠ []) (hp : p ∈ K)
    (h : pat <:+: p.toList) : ∃ l ∈ relined K, pat <:+: l.toList := by
  induction K with
  | nil => cases hp
  | cons piece K ih =>
    by_cases hK : K = []
    · subst hK
      obtain rfl := List.mem_singleton.mp hp
      have hpiece : p ≠ "" := fun hempty => hne (List.infix_nil.mp (by rw [hempty] at h; exact h))
      rw [relined, if_neg hpiece]
      exact ⟨p, List.mem_singleton.mpr rfl, h⟩
    · rw [relined_cons hK]
      rcases List.mem_cons.mp hp with rfl | hp
      · exact ⟨withoutCr p, List.mem_cons_self, infix_withoutCr hpat h⟩
      · obtain ⟨l, hl, hin⟩ := ih hp
        exact ⟨l, List.mem_cons_of_mem _ hl, hin⟩

/-- What is inside of a text is inside of one of its lines, unless it goes over a line's end. -/
theorem infix_lines (hbreak : '\n' ∉ pat) (hpat : pat.getLast? ≠ some '\r') (hne : pat ≠ [])
    (h : pat <:+: s.toList) : ∃ l ∈ lines s, pat <:+: l.toList := by
  obtain ⟨p, hp, hin⟩ := infix_splitOn hbreak h
  rw [lines_eq_relined]
  exact infix_relined hpat hne (List.mem_map_of_mem hp) (by rwa [String.toList_ofList])

/-! ### When reading and joining give the lines back -/

theorem endsWith_char_iff {pat : String} {c : Char} (hpat : pat.toList = [c]) :
    endsWith l pat = true ↔ l.toList.getLast? = some c := by
  rw [endsWith, List.isSuffixOf_iff_suffix, hpat, List.singleton_suffix_iff_getLast?_eq_some]

theorem withoutCr_eq_self_iff (piece : String) :
    withoutCr piece = piece ↔ endsWith piece "\r" = false := by
  have hends : endsWith piece "\r" = true ↔ piece.toList.getLast? = some '\r' :=
    endsWith_char_iff (by decide)
  rw [← Bool.not_eq_true, hends]
  constructor
  · intro heq hlast
    have hlen := congrArg String.toList heq
    rw [withoutCr, String.toList_ofList, stripCarriageReturn, if_pos hlast] at hlen
    have hne : piece.toList ≠ [] := fun hnil => by rw [hnil] at hlast; cases hlast
    have hpos := List.length_pos_iff.mpr hne
    have := congrArg List.length hlen
    rw [List.length_dropLast] at this
    omega
  · intro hlast
    rw [withoutCr, stripCarriageReturn, if_neg hlast, String.ofList_toList]

/-- The lines that `join "\n"` and `lines` give back. -/
def Rejoins (K : List String) : Prop :=
  (∀ l ∈ K.dropLast, endsWith l "\r" = false) ∧ K.getLast? ≠ some ""

theorem rejoins_nil : Rejoins [] := ⟨nofun, nofun⟩

theorem rejoins_cons (h : K ≠ []) (piece : String) :
    Rejoins (piece :: K) ↔ endsWith piece "\r" = false ∧ Rejoins K := by
  rw [Rejoins, Rejoins, List.dropLast_cons_of_ne_nil h, List.forall_mem_cons, List.getLast?_cons, and_assoc]
  cases hlast : K.getLast? with
  | none => exact absurd (List.getLast?_eq_none_iff.mp hlast) h
  | some last => rfl

theorem rejoins_append (front : List String) (h : K ≠ []) :
    Rejoins (front ++ K) ↔ (∀ l ∈ front, endsWith l "\r" = false) ∧ Rejoins K := by
  induction front with
  | nil => exact ⟨fun hK => ⟨nofun, hK⟩, fun hK => hK.2⟩
  | cons l front ih =>
    rw [List.cons_append, rejoins_cons (List.append_ne_nil_of_right_ne_nil front h), ih,
      List.forall_mem_cons, and_assoc]

theorem relined_eq_self_iff (K : List String) : relined K = K ↔ Rejoins K := by
  induction K with
  | nil => exact ⟨fun _ => rejoins_nil, fun _ => rfl⟩
  | cons piece K ih =>
    by_cases hne : K = []
    · subst hne
      rw [relined]
      constructor
      · intro heq
        refine ⟨nofun, fun hlast => ?_⟩
        have hempty : piece = "" := Option.some.inj hlast
        rw [if_pos hempty] at heq
        cases heq
      · rintro ⟨-, hlast⟩
        exact if_neg fun hempty => hlast (congrArg some hempty)
    · rw [relined_cons hne, rejoins_cons hne, ← ih, ← withoutCr_eq_self_iff, List.cons.injEq]

/-- What reading and joining can take away from the lines. -/
def lineWeight (l : String) : ℕ := 2 * l.toList.count '\r' + if l = "" then 1 else 0

def weight (K : List String) : ℕ := (K.map lineWeight).sum

theorem lineWeight_withoutCr (piece : String) :
    withoutCr piece = piece ∨ lineWeight (withoutCr piece) < lineWeight piece := by
  by_cases hends : endsWith piece "\r" = false
  · exact Or.inl ((withoutCr_eq_self_iff piece).mpr hends)
  right
  have hlast := (endsWith_char_iff (c := '\r') (by decide)).mp (Bool.not_eq_false _ ▸ hends)
  obtain ⟨front, hfront⟩ := List.getLast?_eq_some_iff.mp hlast
  have hcount : piece.toList.count '\r' = front.count '\r' + 1 := by
    rw [hfront, List.count_append]
    rfl
  have hwithout : (withoutCr piece).toList.count '\r' = front.count '\r' := by
    rw [withoutCr, String.toList_ofList, stripCarriageReturn, if_pos hlast, hfront, List.dropLast_concat]
  rw [lineWeight, lineWeight, hcount, hwithout]
  split <;> omega

/-- What reading changes is lighter. -/
theorem weight_relined (K : List String) : relined K = K ∨ weight (relined K) < weight K := by
  induction K with
  | nil => exact Or.inl rfl
  | cons piece K ih =>
    by_cases hne : K = []
    · subst hne
      rw [relined]
      split
      · rename_i hempty
        right
        subst hempty
        decide
      · exact Or.inl rfl
    · rw [relined_cons hne]
      have hrest : weight (relined K) ≤ weight K := ih.elim (fun h => by rw [h]) Nat.le_of_lt
      show _ ∨ lineWeight (withoutCr piece) + weight (relined K) < lineWeight piece + weight K
      rcases lineWeight_withoutCr piece with hsame | hless
      · rw [hsame]
        rcases ih with ih | ih
        · exact Or.inl (by rw [ih])
        · exact Or.inr (Nat.add_lt_add_left ih _)
      · exact Or.inr (Nat.add_lt_add_of_lt_of_le hless hrest)

/-! ### The same of the text -/

theorem contains_iff {pat : String} : contains s pat = true ↔ pat.toList <:+: s.toList := by
  rw [contains, Option.isSome_iff_ne_none, ne_eq, find_eq_none_iff_not_inside, not_not]

theorem crlf_infix_append {l : List Char} (hl : '\n' ∉ l) (s : List Char) :
    ['\r', '\n'] <:+: l ++ '\n' :: s ↔ l.getLast? = some '\r' ∨ ['\r', '\n'] <:+: s := by
  induction l with
  | nil =>
    show ['\r', '\n'] <:+: '\n' :: s ↔ _
    rw [List.infix_cons_iff]
    simp
  | cons a l ih =>
    have hrest := ih fun h => hl (List.mem_cons_of_mem _ h)
    rw [List.cons_append, List.infix_cons_iff, hrest]
    cases l with
    | nil => simp [eq_comm]
    | cons b l =>
      have hb : '\n' ≠ b := fun h => hl (by rw [h]; simp)
      simp [hb]

/-- Joined lines have a carriage return in front of a line feed where one ends a line. -/
theorem crlf_infix_join (hK : ∀ l ∈ K, '\n' ∉ l.toList) :
    ['\r', '\n'] <:+: (join "\n" K).toList ↔ ∃ l ∈ K.dropLast, endsWith l "\r" = true := by
  induction K with
  | nil => simp [join]
  | cons l K ih =>
    have hl := hK l List.mem_cons_self
    by_cases hne : K = []
    · subst hne
      show ['\r', '\n'] <:+: l.toList ↔ _
      constructor
      · intro hin
        exact absurd (hin.subset (by simp)) hl
      · rintro ⟨_, h, -⟩
        exact (List.not_mem_nil h).elim
    · have hjoin : (join "\n" (l :: K)).toList = l.toList ++ '\n' :: (join "\n" K).toList := by
        rw [join_cons hne, String.toList_append, String.toList_append, List.append_assoc]
        rfl
      have hends : endsWith l "\r" = true ↔ l.toList.getLast? = some '\r' :=
        endsWith_char_iff (by decide)
      rw [hjoin, crlf_infix_append hl, ih fun l h => hK l (List.mem_cons_of_mem _ h), ← hends,
        List.dropLast_cons_of_ne_nil hne, List.exists_mem_cons_iff]

theorem getLast?_join (hK : ∀ l ∈ K, '\n' ∉ l.toList) (hne : join "\n" K ≠ "") :
    (join "\n" K).toList.getLast? = some '\n' ↔ K.getLast? = some "" := by
  induction K with
  | nil => exact absurd rfl hne
  | cons l K ih =>
    by_cases hK' : K = []
    · subst hK'
      show l.toList.getLast? = some '\n' ↔ some l = some ""
      constructor
      · intro hlast
        exact absurd (List.mem_of_getLast? hlast) (hK l List.mem_cons_self)
      · intro hempty
        exact absurd (Option.some.inj hempty) hne
    · have hjoin : (join "\n" (l :: K)).toList = l.toList ++ '\n' :: (join "\n" K).toList := by
        rw [join_cons hK', String.toList_append, String.toList_append, List.append_assoc]
        rfl
      rw [hjoin, List.getLast?_append, List.getLast?_cons, List.getLast?_cons]
      have hK'' : ∀ l ∈ K, '\n' ∉ l.toList := fun l h => hK l (List.mem_cons_of_mem _ h)
      by_cases hrest : join "\n" K = ""
      · -- only one empty line joins to nothing
        have hone : K = [""] := by
          rw [← pieces_join hK' hK'', hrest]
          rfl
        subst hone
        simp [join]
      · have hrec := ih hK'' hrest
        have htext : (join "\n" K).toList ≠ [] := fun h => hrest (String.toList_inj.mp h)
        obtain ⟨c, hc⟩ := Option.ne_none_iff_exists'.mp (mt List.getLast?_eq_none_iff.mp htext)
        obtain ⟨last, hlast⟩ := Option.ne_none_iff_exists'.mp (mt List.getLast?_eq_none_iff.mp hK')
        rw [hc, hlast] at hrec ⊢
        exact hrec

theorem endsWith_newline_iff (hs : s ≠ "") :
    endsWith s "\n" = true ↔ (pieces s).getLast? = some "" := by
  have hK : ∀ l ∈ pieces s, '\n' ∉ l.toList := fun l h => newline_not_mem_of_mem_pieces h
  have hlast := getLast?_join hK (by rwa [join_pieces])
  rw [join_pieces] at hlast
  exact (endsWith_char_iff (by decide)).trans hlast

/-- What reading takes from a text: carriage returns in front of line feeds, and the last line feed. -/
theorem rejoins_pieces_iff (hs : s ≠ "") :
    Rejoins (pieces s) ↔ contains s "\r\n" = false ∧ endsWith s "\n" = false := by
  have hK : ∀ l ∈ pieces s, '\n' ∉ l.toList := fun l h => newline_not_mem_of_mem_pieces h
  have hcrlf := crlf_infix_join hK
  rw [join_pieces] at hcrlf
  have hcontains : contains s "\r\n" = true ↔ ∃ l ∈ (pieces s).dropLast, endsWith l "\r" = true :=
    contains_iff.trans hcrlf
  rw [← Bool.not_eq_true, ← Bool.not_eq_true, hcontains, endsWith_newline_iff hs]
  refine and_congr_left fun _ => ?_
  constructor
  · rintro hall ⟨l, hl, hcr⟩
    rw [hall l hl] at hcr
    cases hcr
  · intro hnone l hl
    exact Bool.eq_false_iff.mpr fun hcr => hnone ⟨l, hl, hcr⟩

/-- A text starts with a line feed where its first piece is empty and it is not. -/
theorem startsWith_newline_iff (hs : s ≠ "") :
    startsWith s "\n" = true ↔ (pieces s).head? = some "" := by
  rw [startsWith, pieces]
  cases hchars : s.toList with
  | nil => exact absurd (String.toList_inj.mp hchars) hs
  | cons c chars =>
    rw [splitOn]
    by_cases hc : c = '\n'
    · rw [hc]
      simp
    rw [if_neg hc]
    cases hrest : splitOn '\n' chars with
    | nil => exact absurd hrest (splitOn_ne_nil _ _)
    | cons piece rest =>
      simp [Ne.symm hc]

end Text

end Vexcoder.Base
