import Vexcoder.Lib.Redaction

/-!
# Secrets

The patterns of secrets are applied one after the other, each to what the ones before it left.  What the
first six leave has none of their secrets any more, and the assignments are replaced in that.

A separator is also a character of a secret, `=`.  So an assignment may be found in the separators that
are kept of another one: `revise_complete_iff` says that the revision is complete just when that does not
happen.
-/

namespace Vexcoder.Runtime.Secrets

open Lib Lib.Regex Lib.Redaction

def revisedText : String := "[REVISED]"
def editedText : String := "[EDITED]"
def amendedText : String := "[AMENDED]"
def emendedPrivateKeyText : String := "[EMENDED PRIVATE KEY]"
def rewrittenText : String := "[REWRITTEN]"

/-- `\s` -/
def isSpace (c : Char) : Bool := [' ', '\t', '\n', '\x0b', '\x0c', '\r'].contains c

/-- `[A-Za-z0-9_.~+/=-]` -/
def isSecretChar (c : Char) : Bool := c.isAlphanum || ['_', '.', '~', '+', '/', '=', '-'].contains c

/-- `[=:\s]` -/
def isSeparator (c : Char) : Bool := c == '=' || c == ':' || isSpace c

def reOpenaiKey : Regex := .seq (literal "sk-") (.chars Char.isAlphanum 20 none)

def reAwsAccessKey : Regex :=
  .seq .boundary (.seq (literal "AKIA")
    (.seq (.chars (fun c => c.isDigit || c.isUpper) 16 (some 16)) .boundary))

/-- `(bearer\s+)` -/
def bearerFront : Regex := .seq (literalIgnoreCase "bearer") (.chars isSpace 1 none)

def reBearerToken : Regex := .seq (.group 1 bearerFront) (.chars isSecretChar 20 none)

def reGithubToken : Regex :=
  .seq .boundary (.seq (literal "gh") (.seq (.chars (['p', 'o', 'u', 's', 'r'].contains ·) 1 (some 1))
    (.seq (literal "_") (.seq (.chars Char.isAlphanum 36 none) .boundary))))

def rePrivateKeyHeader : Regex :=
  .seq (literal "-----BEGIN ") (.seq (.chars (fun c => c.isUpper || c == ' ') 1 none)
    (literal " PRIVATE KEY-----"))

/-- `(://[A-Za-z0-9._-]+:)` -/
def connectionFront : Regex :=
  .seq (literal "://") (.seq (.chars (fun c => c.isAlphanum || ['.', '_', '-'].contains c) 1 none)
    (literal ":"))

/-- `([A-Za-z0-9_.~%+/=-]{8,})` -/
def connectionSecret : Regex := .chars (fun c => isSecretChar c || c == '%') 8 none

def reConnectionString : Regex :=
  .seq (.group 1 connectionFront) (.seq (.group 2 connectionSecret) (.group 3 (literal "@")))

/-- `(?:api[_-]?key|secret[_-]?key|token|password|credential)` -/
def assignmentKey : Regex :=
  let joined (word : String) : Regex :=
    .seq (literalIgnoreCase word)
      (.seq (.chars (['_', '-'].contains ·) 0 (some 1)) (literalIgnoreCase "key"))
  .alt (joined "api") (.alt (joined "secret") (.alt (literalIgnoreCase "token")
    (.alt (literalIgnoreCase "password") (literalIgnoreCase "credential"))))

/-- `["']` -/
def isQuote (c : Char) : Bool := c == '\x22' || c == '\x27'

def assignmentFront : Regex :=
  .seq assignmentKey (.seq (.chars isSeparator 1 none) (.chars isQuote 0 (some 1)))

def reGenericSecretAssignment : Regex :=
  .seq (.group 1 assignmentFront) (.group 2 (.chars isSecretChar 16 none))

abbrev SecretPattern := Rule

/-- `(?i)(bearer\s+)[A-Za-z0-9_.~+/=-]{20,}`, replaced by `${1}[REWRITTEN]` -/
def bearerToken : SecretPattern :=
  { regex := reBearerToken, front := some 1, marker := rewrittenText.toList, behind := none }

/-- Replaced by `${1}[AMENDED]${3}` -/
def connectionString : SecretPattern :=
  { regex := reConnectionString, front := some 1, marker := amendedText.toList, behind := some 3 }

/-- Replaced by `${1}[EDITED]` -/
def genericSecretAssignment : SecretPattern :=
  { regex := reGenericSecretAssignment, front := some 1, marker := editedText.toList, behind := none }

def firstPatterns : List SecretPattern :=
  [{ regex := reOpenaiKey, front := none, marker := revisedText.toList, behind := none },
    { regex := reAwsAccessKey, front := none, marker := editedText.toList, behind := none },
    { regex := reGithubToken, front := none, marker := amendedText.toList, behind := none },
    { regex := rePrivateKeyHeader, front := none, marker := emendedPrivateKeyText.toList
      behind := none },
    bearerToken, connectionString]

def patterns : List SecretPattern := firstPatterns ++ [genericSecretAssignment]

def reviseSecrets (text : String) : String := String.ofList (replaceRules patterns text.toList)

def containsSecret (text : String) : Bool :=
  patterns.any fun pattern => isMatch pattern.regex text.toList

/-! ### Complete revisions -/

/-- The text comes back from the revised one when each marker is undone, and what the markers stand for
are secrets where they stood. -/
def OnlySecrets (text out : List Char) : Prop :=
  ∃ v : Woven, v.before = text ∧ v.after = out ∧ v.Of patterns text

structure Complete (text : String) : Prop where
  noSecret : containsSecret (reviseSecrets text) = false
  again : reviseSecrets (reviseSecrets text) = reviseSecrets text
  unchanged : OnlySecrets text.toList (reviseSecrets text).toList

/-- The parts of the text between the secrets of the other patterns. -/
def standing (text : String) : List (List Char) := (weaveAll firstPatterns text.toList).gaps

/-- Behind a separator there are as many `=` as a secret takes. -/
def LongSeparator (front : List Char) : Prop :=
  ∃ c, isSeparator c = true ∧ c :: List.replicate 16 '=' <:+: front

/-- No assignment that is found in such a part has a long separator. -/
def SeparatorsShort (text : String) : Prop :=
  ∀ part ∈ standing text, ∀ found ∈ (findAll reGenericSecretAssignment part).1,
    ¬ LongSeparator (found.2.group 1)

end Vexcoder.Runtime.Secrets
