import Mathlib.Data.List.DropRight
import Vexcoder.Lib.Search

/-!
# The text functions of the standard library

Text is a list of characters.  Every offset the program computes comes from a search, so it lies
on a character boundary; counting characters in place of bytes changes no comparison between two
such offsets.  Where the source measures a length in bytes, `byteLen` does.
-/

namespace Vexcoder.Base

open Lib.Search

/-- `char::is_whitespace`: the Unicode `White_Space` property. -/
def isWhitespace (c : Char) : Bool :=
  let n := c.toNat
  (9 ≤ n && n ≤ 13) || n == 0x20 || n == 0x85 || n == 0xA0 || n == 0x1680 ||
    (0x2000 ≤ n && n ≤ 0x200A) || n == 0x2028 || n == 0x2029 || n == 0x202F || n == 0x205F ||
    n == 0x3000

def trimStart (s : List Char) : List Char := s.dropWhile isWhitespace

def trimEnd (s : List Char) : List Char := (s.reverse.dropWhile isWhitespace).reverse

def trim (s : List Char) : List Char := trimEnd (trimStart s)

theorem trimStart_trim (s : List Char) : trimStart (trim s) = trim s := by
  have hpre : trim s <+: trimStart s := List.rdropWhile_prefix isWhitespace (trimStart s)
  refine List.dropWhile_eq_self_iff.mpr fun hpos => ?_
  have hhead := hpre.getElem hpos
  rw [hhead]
  exact List.dropWhile_get_zero_not isWhitespace s (hpos.trans_le hpre.length_le)

theorem trim_trim (s : List Char) : trim (trim s) = trim s := by
  rw [trim, trimStart_trim]
  exact List.rdropWhile_idempotent isWhitespace (trimStart s)

/-- `str::trim_matches` for one character. -/
def trimMatches (c : Char) (s : List Char) : List Char :=
  ((s.dropWhile (· == c)).reverse.dropWhile (· == c)).reverse

/-- `str::to_ascii_lowercase`. -/
def toAsciiLowercase (s : List Char) : List Char := s.map Char.toLower

theorem toLower_cases (c : Char) :
    c.toLower = c ∨ 65 ≤ c.toNat ∧ c.toNat ≤ 90 ∧ c.toLower.toNat = c.toNat + 32 := by
  unfold Char.toLower
  split
  · rename_i hupper
    have hlow : 65 ≤ c.toNat := UInt32.le_iff_toNat_le.mp hupper.1
    have hhigh : c.toNat ≤ 90 := UInt32.le_iff_toNat_le.mp hupper.2
    refine .inr ⟨hlow, hhigh, ?_⟩
    show (c.val + ('a'.val - 'A'.val)).toNat = c.val.toNat + 32
    rw [UInt32.toNat_add, show ('a'.val - 'A'.val).toNat = 32 from rfl]
    have hsame : c.val.toNat = c.toNat := rfl
    omega
  · exact .inl rfl

/-- `str::len`: the number of bytes of the UTF-8 encoding. -/
def byteLen (s : List Char) : ℕ := (s.map fun c => c.utf8Size).sum

/-- `str::is_char_boundary`. -/
def isCharBoundary : ℕ → List Char → Bool
  | 0, _ => true
  | _ + 1, [] => false
  | n + 1, c :: s => if c.utf8Size ≤ n + 1 then isCharBoundary (n + 1 - c.utf8Size) s else false

/-- The pieces between the occurrences of `c`: `str::split` for one character. -/
def splitOn (c : Char) : List Char → List (List Char)
  | [] => [[]]
  | a :: s =>
    if a = c then [] :: splitOn c s
    else
      match splitOn c s with
      | [] => [[a]]
      | piece :: pieces => (a :: piece) :: pieces

/-- The value of a string of decimal digits, `none` when one of them is not a digit. -/
def digitsValue : ℕ → List Char → Option ℕ
  | acc, [] => some acc
  | acc, c :: s => if c.isDigit then digitsValue (acc * 10 + (c.toNat - '0'.toNat)) s else none

/-- `str::parse` at an unsigned type of which `bound` is the first value out of range. -/
def parseUnsigned (bound : ℕ) (s : List Char) : Option ℕ :=
  let digits := match s with
    | '+' :: rest => rest
    | _ => s
  if digits.isEmpty then none
  else (digitsValue 0 digits).filter (· < bound)

def parseU64 (s : List Char) : Option ℕ := parseUnsigned (2 ^ 64) s

/-- `str::parse::<i64>`. -/
def parseI64 (s : List Char) : Option ℤ :=
  match s with
  | '-' :: digits =>
    if digits.isEmpty then none
    else ((digitsValue 0 digits).filter (· ≤ 2 ^ 63)).map fun n => -(n : ℤ)
  | _ => (parseUnsigned (2 ^ 63) s).map fun n => (n : ℤ)

end Vexcoder.Base
