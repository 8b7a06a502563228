import Vexcoder.Base.Str

/-!
# Strings

The string functions of the standard library at `String`, by way of the characters.
-/

namespace Vexcoder.Base.Text

open Lib.Search

/-- `str::chars().count()` -/
def charCount (s : String) : ℕ := s.toList.length

def isEmpty (s : String) : Bool := s.toList.isEmpty

theorem isEmpty_iff {s : String} : isEmpty s = true ↔ s = "" := by
  rw [isEmpty, List.isEmpty_iff]
  exact ⟨fun h => String.toList_inj.mp h, fun h => by rw [h]; rfl⟩

def trim (s : String) : String := String.ofList (Base.trim s.toList)

theorem trim_trim (s : String) : trim (trim s) = trim s := by
  rw [trim, trim, String.toList_ofList, Base.trim_trim]

def trimStart (s : String) : String := String.ofList (Base.trimStart s.toList)

def trimEnd (s : String) : String := String.ofList (Base.trimEnd s.toList)

def toAsciiLowercase (s : String) : String := String.ofList (Base.toAsciiLowercase s.toList)

def startsWith (s pat : String) : Bool := pat.toList.isPrefixOf s.toList

def endsWith (s pat : String) : Bool := pat.toList.isSuffixOf s.toList

def contains (s pat : String) : Bool := (find pat.toList s.toList).isSome

def stripPrefix (s pat : String) : Option String :=
  if startsWith s pat then some (String.ofList (s.toList.drop pat.toList.length)) else none

/-- `str::split_once` -/
def splitOnce (s pat : String) : Option (String × String) :=
  (find pat.toList s.toList).map fun i =>
    (String.ofList (s.toList.take i), String.ofList (s.toList.drop (i + pat.toList.length)))

/-- `[&str]::join` -/
def join (sep : String) : List String → String
  | [] => ""
  | [s] => s
  | s :: rest => s ++ sep ++ join sep rest

theorem toList_join_empty (parts : List String) :
    (join "" parts).toList = parts.flatMap String.toList := by
  induction parts with
  | nil => rfl
  | cons part rest ih =>
    cases rest with
    | nil =>
      show part.toList = part.toList ++ []
      rw [List.append_nil]
    | cons next rest =>
      show (part ++ "" ++ join "" (next :: rest)).toList = _
      rw [String.append_empty, String.toList_append, ih]
      rfl

theorem join_empty_append (parts rest : List String) :
    join "" (parts ++ rest) = join "" parts ++ join "" rest := by
  apply String.toList_inj.mp
  rw [String.toList_append, toList_join_empty, toList_join_empty, toList_join_empty, List.flatMap_append]

def stripCarriageReturn (line : List Char) : List Char :=
  if line.getLast? = some '\r' then line.dropLast else line

/-- `str::lines`: what is behind the last line feed is a line when it is not empty. -/
def lines (s : String) : List String :=
  let pieces := splitOn '\n' s.toList
  let last := pieces.getLastD []
  (pieces.dropLast.map stripCarriageReturn ++ if last.isEmpty then [] else [last]).map String.ofList

/-- Each part of a joined text is in it. -/
theorem infix_join {sep s : String} {parts : List String} (h : s ∈ parts) :
    s.toList <:+: (join sep parts).toList := by
  induction parts with
  | nil => cases h
  | cons part rest ih =>
    cases rest with
    | nil =>
      obtain rfl := List.mem_singleton.mp h
      exact List.infix_rfl
    | cons next rest =>
      rw [join, String.toList_append, String.toList_append]
      · rcases List.mem_cons.mp h with rfl | h
        · exact ⟨[], _, by rw [List.nil_append, List.append_assoc]⟩
        · exact (ih h).trans (List.suffix_append _ _).isInfix
      · exact List.cons_ne_nil _ _

example : lines "a\r\n\nb\r" = ["a", "", "b\r"] := by decide +kernel

end Vexcoder.Base.Text
