import BraceScopes.Rules
import BraceScopes.Text.Basic
/-!
Lexing a text into comments, string literals and brackets, from the start to the end. Brackets inside
comments and literals are not seen.
-/
namespace BraceScopes

/-- What hides a stretch of text from the code around it. -/
inductive RegionKind where
  | comment
  | string
deriving DecidableEq

/-- A comment or a string literal. -/
structure Region where
  kind : RegionKind
  start : Nat
  stop : Nat
  /-- Whether it ends before the text does. -/
  terminated : Bool
deriving DecidableEq

namespace Region

/-- Whether the gap before byte `p` lies inside. The end of the text is inside a region that was never
closed. -/
def containsGap (r : Region) (p : Nat) : Bool :=
  r.start < p && (p < r.stop || (p == r.stop && !r.terminated))

def containsChar (r : Region) (p : Nat) : Bool := r.start ≤ p && p < r.stop

end Region

/-- The opening bracket that a closing bracket of code ends. -/
def openerOf (c : Char) : Option Char :=
  match c with
  | ')' => some '('
  | ']' => some '['
  | '}' => some '{'
  | _ => none

def isOpener (c : Char) : Bool := c == '(' || c == '[' || c == '{'

/-- What the lexer reports, in the order of the text. -/
inductive Event where
  | opened (pos : Nat)
  | closed (pos : Nat)
  | region (r : Region)
deriving DecidableEq

namespace Lex

/-- The first place at or after `p` where `delim` stands unescaped. A literal of one line does not look
past a line terminator. -/
def closing? (t : Text) (escape : Char) (delim : List Char) (oneLine : Bool) (p : Nat) : Option Nat :=
  match _h : t.charAt p with
  | none => none
  | some c =>
    if c = escape then closing? t escape delim oneLine (t.next (t.next p))
    else if oneLine && (c == '\n' || c == '\r') then none
    else if t.startsWith p delim then some p
    else closing? t escape delim oneLine (t.next p)
termination_by t.size - p
decreasing_by
  all_goals
    have := Text.lt_size_of_charAt _h
    have := t.lt_next p
    have := t.lt_next (t.next p)
    omega

/-- A comment from `p` to the end of the line. -/
def lineComment? (t : Text) (r : Rules) (p : Nat) : Option Region :=
  match r.lineComment? with
  | some opener => if t.startsWith p opener then some ⟨.comment, p, t.lineEnd p, true⟩ else none
  | none => none

/-- A comment from `p` to its closing delimiter, or to the end of the text. -/
def blockComment? (t : Text) (r : Rules) (p : Nat) : Option Region :=
  match r.blockComment? with
  | some (opener, closer) =>
    if t.startsWith p opener then
      match t.find? closer (p + byteLength opener) with
      | some q => some ⟨.comment, p, q + byteLength closer, true⟩
      | none => some ⟨.comment, p, t.size, false⟩
    else none
  | none => none

/-- A literal from `p` to its closing delimiter, or to the end of the text. -/
def textBlock? (t : Text) (r : Rules) (p : Nat) : Option Region :=
  match r.textBlock? with
  | some delim =>
    if t.startsWith p delim then
      match closing? t r.escape delim false (p + byteLength delim) with
      | some q => some ⟨.string, p, q + byteLength delim, true⟩
      | none => some ⟨.string, p, t.size, false⟩
    else none
  | none => none

/-- A literal from the quote at `p` to the same quote on that line. Without one it ends with the line,
so that a literal being typed does not hide the rest of the text. -/
def quoted? (t : Text) (r : Rules) (p : Nat) : Option Region :=
  match t.charAt p with
  | some c =>
    if r.isQuote c then
      let body := p + c.utf8Size
      match closing? t r.escape [c] true body with
      | some q => some ⟨.string, p, q + c.utf8Size, true⟩
      | none => some ⟨.string, p, t.lineEnd body, t.lineEnd body < t.size⟩
    else none
  | none => none

/-- The comment or literal that begins at `p`, where comments win over literals. -/
def regionAt? (t : Text) (r : Rules) (p : Nat) : Option Region :=
  lineComment? t r p <|> blockComment? t r p <|> textBlock? t r p <|> quoted? t r p

def bracketAt? (t : Text) (p : Nat) : Option Event :=
  match t.charAt p with
  | some c =>
    if isOpener c then some (.opened p) else if (openerOf c).isSome then some (.closed p) else none
  | none => none

/-- What stands at `p`, if it is reported, and where lexing goes on. -/
def step (t : Text) (r : Rules) (p : Nat) : Option Event × Nat :=
  match regionAt? t r p with
  | some region => (some (.region region), region.stop)
  | none => (bracketAt? t p, t.next p)

/-- The events at or after `p`. Lexing ends with the text, or at a comment that takes up no text. -/
def eventsFrom (t : Text) (r : Rules) (p : Nat) : List Event :=
  if p < t.size then
    let (event, q) := step t r p
    if p < q then event.toList ++ eventsFrom t r q else event.toList
  else []
termination_by t.size - p

def events (t : Text) (r : Rules) : List Event := eventsFrom t r 0

/-- Whether lexing ever ends. A comment that takes up no text is met again where it ends. -/
def finishes (t : Text) (r : Rules) : Bool :=
  (events t r).all fun e =>
    match e with
    | .region x => x.start < x.stop
    | _ => true

end Lex

end BraceScopes
