import BraceScopes.Scan.Pattern
import BraceScopes.Session
import BraceScopes.Text.Blank
/-!
The package and import declarations at the head of a text. White space may stand around the dots of a
path, and comments may not.
-/
namespace BraceScopes

/-- A declaration at the head of a text: its stretch, and its path without white space. -/
structure HeaderLine where
  start : Nat
  stop : Nat
  path : String
  isStatic : Bool
deriving DecidableEq

namespace Header

def isPathChar (c : Char) : Bool := isWordChar c || c == '$'

/-- The end of the characters from `p` on that pass a test. -/
def runEnd (t : Text) (test : Char → Bool) (p : Nat) : Nat :=
  match _h : t.charAt p with
  | some c => if test c then runEnd t test (t.next p) else p
  | none => p
termination_by t.size - p
decreasing_by
  have := Text.lt_size_of_charAt _h
  have := t.lt_next p
  omega

def blanksEnd (t : Text) (p : Nat) : Nat := runEnd t isBlank p

def partEnd (t : Text) (p : Nat) : Nat := runEnd t isPathChar p

/-- The end of a dot and the part after it, with white space around the dot. Where stars are allowed, a
star is a part. -/
def dottedPart? (t : Text) (star : Bool) (p : Nat) : Option Nat :=
  let dot := blanksEnd t p
  if t.charAt dot = some '.' then
    let q := blanksEnd t (dot + 1)
    if q < partEnd t q then some (partEnd t q)
    else if star ∧ t.charAt q = some '*' then some (q + 1)
    else none
  else none

/-- The end of the parts that follow the first part of a path. -/
def pathEnd (t : Text) (star : Bool) (p : Nat) : Nat :=
  match dottedPart? t star p with
  | some q => if p < q ∧ q ≤ t.size then pathEnd t star q else p
  | none => p
termination_by t.size - p

/-- Reads a path at `p` and a semicolon after it: where the path ends, and where the semicolon does. -/
def path? (t : Text) (star : Bool) (p : Nat) : Option (Nat × Nat) :=
  let first := partEnd t p
  let stop := pathEnd t star first
  let semicolon := blanksEnd t stop
  if p < first ∧ t.charAt semicolon = some ';' then some (stop, semicolon + 1) else none

/-- The end of a keyword at `p` and of the white space after it. -/
def keywordEnd? (t : Text) (keyword : String) (p : Nat) : Option Nat :=
  let q := p + keyword.utf8ByteSize
  if t.startsWith p keyword.toList ∧ q < blanksEnd t q then some (blanksEnd t q) else none

def squeezed (t : Text) (a b : Nat) : String := String.ofList ((t.slice a b).filter (!isBlank ·))

def packageAt? (t : Text) (p : Nat) : Option HeaderLine := do
  let q ← keywordEnd? t "package" p
  guard (Pattern.wordBoundary t t.size p)
  let (stop, whole) ← path? t false q
  return ⟨p, whole, squeezed t q stop, false⟩

/-- An import declaration at `p`. The word `static` is part of the path when no path follows it. -/
def importAt? (t : Text) (p : Nat) : Option HeaderLine := do
  let q ← keywordEnd? t "import" p
  guard (Pattern.wordBoundary t t.size p)
  let plain := (path? t true q).map fun (stop, whole) => HeaderLine.mk p whole (squeezed t q stop) false
  match keywordEnd? t "static" q with
  | none => plain
  | some q' =>
    let static := (path? t true q').map fun (stop, whole) =>
      HeaderLine.mk p whole (squeezed t q' stop) true
    static <|> plain

/-- All declarations from `p` on that `read` finds; after one the search goes on at its end. -/
def linesFrom (t : Text) (read : Nat → Option HeaderLine) (p : Nat) : List HeaderLine :=
  if p < t.size then
    match read p with
    | some line => line :: linesFrom t read (max line.stop (p + 1))
    | none => linesFrom t read (p + 1)
  else []
termination_by t.size - p

/-- The declarations that begin in code outside all brackets. -/
def topLevel (ix : Lexed) (read : Text → Nat → Option HeaderLine) : List HeaderLine :=
  (linesFrom ix.text (read ix.text) 0).filter fun line =>
    ix.isCode line.start && (ix.classify line.start).enclosing.isEmpty

end Header

/-- The imports of a text, and the stretch from the first line of them to the last. -/
structure Imports where
  region : Option (Nat × Nat)
  entries : List HeaderLine
deriving DecidableEq

namespace Session

def package (s : Session) : Option String × Session :=
  let s := s.resolve
  ((Header.topLevel s.lexed Header.packageAt?).head?.map (·.path), s)

def imports (s : Session) : Imports × Session :=
  let s := s.resolve
  let entries := Header.topLevel s.lexed Header.importAt?
  let region := match entries.head?, entries.getLast? with
    | some first, some last =>
      some ((s.document.lines.spanOf first.start).1, (s.document.lines.spanOf last.stop).2)
    | _, _ => none
  (⟨region, entries⟩, s)

end Session

end BraceScopes
