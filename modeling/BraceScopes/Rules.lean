import BraceScopes.Text.Alphabetic
import BraceScopes.Text.Numeric
/-!
What a dialect writes as comments, string literals and identifiers.
-/
namespace BraceScopes

/-- The lexical conventions of a dialect. A delimiter that is missing or empty is not used, and block
comments need both of theirs. -/
structure Rules where
  /-- Begins a comment that runs to the end of the line. -/
  lineComment : Option String := some "//"
  blockCommentStart : Option String := some "/*"
  blockCommentEnd : Option String := some "*/"
  /-- Begins and ends a string literal of several lines. -/
  textBlock : Option String := some "\"\"\""
  /-- Characters that begin and end a string literal within a line. -/
  quotes : List Char := ['"', '\'']
  /-- Takes the meaning from the character after it, inside a string literal. -/
  escape : Char := '\\'
  /-- Characters of identifiers besides letters, numbers and the underscore. -/
  extraIdentChars : List Char := ['$']
deriving DecidableEq

namespace Rules

def java : Rules := {}

/-- A delimiter that can be used: one with at least one character. -/
def delimiter? (d : Option String) : Option (List Char) :=
  match d with
  | some s => if s.toList.isEmpty then none else some s.toList
  | none => none

def lineComment? (r : Rules) : Option (List Char) := delimiter? r.lineComment

def blockComment? (r : Rules) : Option (List Char × List Char) :=
  match delimiter? r.blockCommentStart, delimiter? r.blockCommentEnd with
  | some a, some b => some (a, b)
  | _, _ => none

def textBlock? (r : Rules) : Option (List Char) := delimiter? r.textBlock

def isQuote (r : Rules) (c : Char) : Bool := r.quotes.contains c

def isIdentChar (r : Rules) (c : Char) : Bool :=
  isAlphabetic c || isNumeric c || c == '_' || r.extraIdentChars.contains c

/-- Whether a character continues a word of a type: qualified names, variable arity and annotations
read as one word. -/
def isTypeIdentChar (r : Rules) (c : Char) : Bool := r.isIdentChar c || c == '.' || c == '@'

end Rules

end BraceScopes
