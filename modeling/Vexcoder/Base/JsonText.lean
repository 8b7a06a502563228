import Vexcoder.Base.Json

/-!
# The grammar of JSON texts

What it is for a text to be one well-formed JSON value with blanks around it: literals, numbers,
strings with their escapes, objects and arrays, nested without a bound.

`Nesting` is how deep a scan stands in objects and arrays, and whether it is inside a string.  It fails
where a bracket is closed that was not opened.  The scan of a well-formed text comes back to the
nesting it started from (`Derives.scan`), so no part of such a text from its start makes it fail
(`WellFormed.scan_isSome`).
-/

namespace Vexcoder.Base.JsonText

def IsBlank (c : Char) : Prop := c = ' ' ∨ c = '\t' ∨ c = '\n' ∨ c = '\r'

def Blank (s : List Char) : Prop := ∀ c ∈ s, IsBlank c

def IsHexDigit (c : Char) : Prop :=
  c.isDigit = true ∨ ('a' ≤ c ∧ c ≤ 'f') ∨ ('A' ≤ c ∧ c ≤ 'F')

inductive StringBody : List Char → Prop where
  | nil : StringBody []
  | plain {c : Char} {s : List Char} : ' ' ≤ c → c ≠ '"' → c ≠ '\\' → StringBody s →
      StringBody (c :: s)
  | escape {c : Char} {s : List Char} : c ∈ ['"', '\\', '/', 'b', 'f', 'n', 'r', 't'] →
      StringBody s → StringBody ('\\' :: c :: s)
  | unicode {a b c d : Char} {s : List Char} : IsHexDigit a → IsHexDigit b → IsHexDigit c →
      IsHexDigit d → StringBody s → StringBody ('\\' :: 'u' :: a :: b :: c :: d :: s)

def IsString (s : List Char) : Prop := ∃ body, StringBody body ∧ s = '"' :: (body ++ ['"'])

def Digits (s : List Char) : Prop := ∀ c ∈ s, c.isDigit = true

/-- A sign, digits without a leading zero, a fraction and an exponent. -/
structure IsNumber (s : List Char) : Prop where
  parts : ∃ sign int frac exp : List Char,
    (sign = [] ∨ sign = ['-']) ∧
    (int = ['0'] ∨ ∃ d ds, int = d :: ds ∧ d.isDigit = true ∧ d ≠ '0' ∧ Digits ds) ∧
    (frac = [] ∨ ∃ ds, frac = '.' :: ds ∧ ds ≠ [] ∧ Digits ds) ∧
    (exp = [] ∨ ∃ e es ds, exp = e :: (es ++ ds) ∧ (e = 'e' ∨ e = 'E') ∧
      (es = [] ∨ es = ['+'] ∨ es = ['-']) ∧ ds ≠ [] ∧ Digits ds) ∧
    s = sign ++ int ++ frac ++ exp

inductive Category where
  | value
  /-- A value with blanks around it. -/
  | element
  | elements
  | members

inductive Derives : Category → List Char → Prop where
  | null : Derives .value ['n', 'u', 'l', 'l']
  | true : Derives .value ['t', 'r', 'u', 'e']
  | false : Derives .value ['f', 'a', 'l', 's', 'e']
  | number {s : List Char} : IsNumber s → Derives .value s
  | string {s : List Char} : IsString s → Derives .value s
  | emptyObject {w : List Char} : Blank w → Derives .value ('{' :: (w ++ ['}']))
  | object {s : List Char} : Derives .members s → Derives .value ('{' :: (s ++ ['}']))
  | emptyArray {w : List Char} : Blank w → Derives .value ('[' :: (w ++ [']']))
  | array {s : List Char} : Derives .elements s → Derives .value ('[' :: (s ++ [']']))
  | element {w v w' : List Char} : Blank w → Derives .value v → Blank w' → Derives .element (w ++ v ++ w')
  | lastElement {s : List Char} : Derives .element s → Derives .elements s
  | moreElements {s t : List Char} : Derives .element s → Derives .elements t →
      Derives .elements (s ++ ',' :: t)
  | lastMember {w k w' s : List Char} : Blank w → IsString k → Blank w' → Derives .element s →
      Derives .members (w ++ k ++ w' ++ ':' :: s)
  | moreMembers {w k w' s t : List Char} : Blank w → IsString k → Blank w' → Derives .element s →
      Derives .members t → Derives .members (w ++ k ++ w' ++ ':' :: s ++ ',' :: t)

def WellFormed (s : List Char) : Prop := Derives .element s

/-! ### The nesting of brackets -/

structure Nesting where
  braces : ℕ := 0
  brackets : ℕ := 0
  inString : Bool := false
  escaped : Bool := false

namespace Nesting

def read (n : Nesting) (c : Char) : Option Nesting :=
  if n.inString then
    if n.escaped then some { n with escaped := false }
    else if c = '\\' then some { n with escaped := true }
    else if c = '"' then some { n with inString := false }
    else some n
  else if c = '"' then some { n with inString := true }
  else if c = '{' then some { n with braces := n.braces + 1 }
  else if c = '}' then
    if n.braces = 0 then none else some { n with braces := n.braces - 1 }
  else if c = '[' then some { n with brackets := n.brackets + 1 }
  else if c = ']' then
    if n.brackets = 0 then none else some { n with brackets := n.brackets - 1 }
  else some n

def scan : Nesting → List Char → Option Nesting
  | n, [] => some n
  | n, c :: s => (n.read c).bind fun next => next.scan s

theorem scan_append (n : Nesting) (s t : List Char) :
    n.scan (s ++ t) = (n.scan s).bind fun next => next.scan t := by
  induction s generalizing n with
  | nil => rfl
  | cons c s ih =>
    show (n.read c).bind (fun next => next.scan (s ++ t)) =
      ((n.read c).bind fun next => next.scan s).bind fun next => next.scan t
    cases n.read c with
    | none => rfl
    | some next => exact ih next

variable {n : Nesting} {s : List Char} {c : Char}

theorem scan_append_of_some {m : Nesting} (h : n.scan s = some m) (t : List Char) :
    n.scan (s ++ t) = m.scan t := by
  rw [scan_append, h]
  rfl

/-- A part from the start is scanned when the whole is. -/
theorem scan_isSome_of_prefixed {t : List Char} (h : s <+: t) (ht : (n.scan t).isSome) :
    (n.scan s).isSome := by
  obtain ⟨u, rfl⟩ := h
  rw [scan_append] at ht
  cases hs : n.scan s with
  | none =>
    rw [hs] at ht
    cases ht
  | some m => rfl

def Outside (n : Nesting) : Prop := n.inString = false ∧ n.escaped = false

def Neutral (c : Char) : Prop := c ∉ ['"', '{', '}', '[', ']']

instance : DecidablePred Neutral := fun c =>
  inferInstanceAs (Decidable (c ∉ ['"', '{', '}', '[', ']']))

theorem read_neutral (h : n.Outside) (hc : Neutral c) : n.read c = some n := by
  simp only [Neutral, List.mem_cons, List.not_mem_nil, or_false, not_or] at hc
  obtain ⟨hquote, hopen, hclose, harray, hend⟩ := hc
  rw [read, h.1, if_neg (by decide), if_neg hquote, if_neg hopen, if_neg hclose, if_neg harray, if_neg hend]

theorem scan_neutral (h : n.Outside) (hs : ∀ c ∈ s, Neutral c) : n.scan s = some n := by
  induction s with
  | nil => rfl
  | cons c s ih =>
    rw [scan, read_neutral h (hs c List.mem_cons_self)]
    exact ih fun d hd => hs d (List.mem_cons_of_mem c hd)

theorem neutral_of_blank (h : Blank s) : ∀ c ∈ s, Neutral c := by
  intro c hc
  rcases h c hc with rfl | rfl | rfl | rfl <;> decide

theorem neutral_of_digit (h : c.isDigit = true) : Neutral c := by
  intro hmem
  simp only [List.mem_cons, List.not_mem_nil, or_false] at hmem
  rcases hmem with rfl | rfl | rfl | rfl | rfl <;> revert h <;> decide

theorem neutral_of_number (h : IsNumber s) : ∀ c ∈ s, Neutral c := by
  obtain ⟨sign, int, frac, exp, hsign, hint, hfrac, hexp, rfl⟩ := h.parts
  have digits : ∀ {ds : List Char}, Digits ds → ∀ c ∈ ds, Neutral c :=
    fun hds c hc => neutral_of_digit (hds c hc)
  simp only [List.forall_mem_append]
  refine ⟨⟨⟨?_, ?_⟩, ?_⟩, ?_⟩
  · rcases hsign with rfl | rfl
    · exact List.forall_mem_nil _
    · exact List.forall_mem_singleton.mpr (by decide)
  · rcases hint with rfl | ⟨d, ds, rfl, hd, -, hds⟩
    · exact List.forall_mem_singleton.mpr (by decide)
    · exact List.forall_mem_cons.mpr ⟨neutral_of_digit hd, digits hds⟩
  · rcases hfrac with rfl | ⟨ds, rfl, -, hds⟩
    · exact List.forall_mem_nil _
    · exact List.forall_mem_cons.mpr ⟨by decide, digits hds⟩
  · rcases hexp with rfl | ⟨e, es, ds, rfl, he, hes, -, hds⟩
    · exact List.forall_mem_nil _
    · refine List.forall_mem_cons.mpr ⟨?_, List.forall_mem_append.mpr ⟨?_, digits hds⟩⟩
      · rcases he with rfl | rfl <;> decide
      · rcases hes with rfl | rfl | rfl
        · exact List.forall_mem_nil _
        all_goals exact List.forall_mem_singleton.mpr (by decide)

/-! ### Strings -/

theorem read_inside (hin : n.inString = true) (hesc : n.escaped = false) (hquote : c ≠ '"')
    (hback : c ≠ '\\') : n.read c = some n := by
  rw [read, hin, hesc, if_pos rfl, if_neg (by decide), if_neg hback, if_neg hquote]

theorem read_escape (hin : n.inString = true) (hesc : n.escaped = false) (c : Char) (s : List Char) :
    n.scan ('\\' :: c :: s) = n.scan s := by
  obtain ⟨braces, brackets, inString, escaped⟩ := n
  obtain rfl : inString = true := hin
  obtain rfl : escaped = false := hesc
  rfl

theorem plain_of_hexDigit (h : IsHexDigit c) : c ≠ '"' ∧ c ≠ '\\' := by
  constructor
  all_goals
    rintro rfl
    revert h
    unfold IsHexDigit
    decide

theorem scan_body (hin : n.inString = true) (hesc : n.escaped = false) {body : List Char}
    (h : StringBody body) : n.scan body = some n := by
  induction h with
  | nil => rfl
  | plain _ hquote hback _ ih =>
    rw [scan, read_inside hin hesc hquote hback]
    exact ih
  | escape _ _ ih =>
    rw [read_escape hin hesc]
    exact ih
  | unicode ha hb hc hd _ ih =>
    have hexDigit : ∀ {x : Char} (t : List Char), IsHexDigit x → n.scan (x :: t) = n.scan t := by
      intro x t hx
      obtain ⟨hquote, hback⟩ := plain_of_hexDigit hx
      rw [scan, read_inside hin hesc hquote hback]
      rfl
    rw [read_escape hin hesc, hexDigit _ ha, hexDigit _ hb, hexDigit _ hc, hexDigit _ hd]
    exact ih

theorem scan_string (h : n.Outside) (hs : IsString s) : n.scan s = some n := by
  obtain ⟨body, hbody, rfl⟩ := hs
  obtain ⟨braces, brackets, inString, escaped⟩ := n
  obtain rfl : inString = false := h.1
  obtain rfl : escaped = false := h.2
  show ({ braces := braces, brackets := brackets, inString := true } : Nesting).scan
    (body ++ ['"']) = _
  rw [scan_append_of_some (scan_body rfl rfl hbody)]
  rfl

/-! ### Objects and arrays -/

theorem scan_braces (h : n.Outside) (hs : ({ n with braces := n.braces + 1 } : Nesting).scan s =
      some { n with braces := n.braces + 1 }) : n.scan ('{' :: (s ++ ['}'])) = some n := by
  obtain ⟨braces, brackets, inString, escaped⟩ := n
  obtain rfl : inString = false := h.1
  obtain rfl : escaped = false := h.2
  show ({ braces := braces + 1, brackets := brackets } : Nesting).scan (s ++ ['}']) = _
  rw [scan_append_of_some hs]
  rfl

theorem scan_brackets (h : n.Outside)
    (hs : ({ n with brackets := n.brackets + 1 } : Nesting).scan s =
      some { n with brackets := n.brackets + 1 }) : n.scan ('[' :: (s ++ [']'])) = some n := by
  obtain ⟨braces, brackets, inString, escaped⟩ := n
  obtain rfl : inString = false := h.1
  obtain rfl : escaped = false := h.2
  show ({ braces := braces, brackets := brackets + 1 } : Nesting).scan (s ++ [']']) = _
  rw [scan_append_of_some hs]
  rfl

theorem scan_punctuation (h : n.Outside) (hc : Neutral c) (s : List Char) : n.scan (c :: s) = n.scan s := by
  rw [scan, read_neutral h hc]
  rfl

theorem scan_key (h : n.Outside) {w k w' : List Char} (hw : Blank w) (hk : IsString k)
    (hw' : Blank w') : n.scan (w ++ k ++ w') = some n := by
  rw [List.append_assoc, scan_append_of_some (scan_neutral h (neutral_of_blank hw)),
    scan_append_of_some (scan_string h hk)]
  exact scan_neutral h (neutral_of_blank hw')

end Nesting

open Nesting

/-- Whatever is derived, its scan comes back to the nesting it started from. -/
theorem Derives.scan {cat : Category} {s : List Char} (h : Derives cat s) :
    ∀ n : Nesting, n.Outside → n.scan s = some n := by
  induction h with
  | null | true | false => exact fun n hn => scan_neutral hn (by simp [Neutral])
  | number hs => exact fun n hn => scan_neutral hn (neutral_of_number hs)
  | string hs => exact fun n hn => scan_string hn hs
  | emptyObject hw =>
    intro n hn
    have inner : ({ n with braces := n.braces + 1 } : Nesting).Outside := hn
    exact scan_braces hn (scan_neutral inner (neutral_of_blank hw))
  | object _ ih => exact fun n hn => scan_braces hn (ih _ hn)
  | emptyArray hw =>
    intro n hn
    have inner : ({ n with brackets := n.brackets + 1 } : Nesting).Outside := hn
    exact scan_brackets hn (scan_neutral inner (neutral_of_blank hw))
  | array _ ih => exact fun n hn => scan_brackets hn (ih _ hn)
  | element hw _ hw' ih =>
    intro n hn
    rw [List.append_assoc, scan_append_of_some (scan_neutral hn (neutral_of_blank hw)),
      scan_append_of_some (ih n hn)]
    exact scan_neutral hn (neutral_of_blank hw')
  | lastElement _ ih => exact ih
  | moreElements _ _ ihElement ihRest =>
    intro n hn
    rw [scan_append_of_some (ihElement n hn), scan_punctuation hn (by decide)]
    exact ihRest n hn
  | lastMember hw hk hw' _ ih =>
    intro n hn
    rw [scan_append_of_some (scan_key hn hw hk hw'), scan_punctuation hn (by decide)]
    exact ih n hn
  | moreMembers hw hk hw' _ _ ihValue ihRest =>
    intro n hn
    rw [List.append_assoc, scan_append_of_some (scan_key hn hw hk hw'), List.cons_append,
      scan_punctuation hn (by decide), scan_append_of_some (ihValue n hn),
      scan_punctuation hn (by decide)]
    exact ihRest n hn

/-- No part of a well-formed text from its start makes the scan fail. -/
theorem WellFormed.scan_isSome {s text : List Char} (h : WellFormed text) (hs : s <+: text) :
    (Nesting.scan {} s).isSome :=
  scan_isSome_of_prefixed hs (by rw [h.scan {} ⟨rfl, rfl⟩]; rfl)

end Vexcoder.Base.JsonText
