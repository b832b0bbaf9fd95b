import BraceScopes.Bisect
import BraceScopes.Text.Basic
import BraceScopes.Text.Range
/-!
Lines of a text, and positions given by line and UTF-16 code unit. A line feed, a carriage return, and
a carriage return with a line feed each end a line; a line does not include what ends it.
-/
namespace BraceScopes

/-- A place given by line and by UTF-16 code units from the start of that line, both from zero. -/
structure Position where
  line : Nat
  character : Nat
deriving DecidableEq

def units16 (c : Char) : Nat := if c.toNat < 0x10000 then 1 else 2

def length16 : List Char → Nat
  | [] => 0
  | c :: cs => units16 c + length16 cs

/-- Start and stop of each line of `cs`, where `cs` begins at offset `p` in a line that began at
`start`. -/
def lineSpans : List Char → Nat → Nat → List (Nat × Nat)
  | [], start, p => [(start, p)]
  | '\r' :: '\n' :: cs, start, p => (start, p) :: lineSpans cs (p + 2) (p + 2)
  | c :: cs, start, p =>
    if c = '\n' ∨ c = '\r' then (start, p) :: lineSpans cs (p + 1) (p + 1)
    else lineSpans cs start (p + c.utf8Size)

/-- The lines of one text: where each starts and stops, and the length of the text. -/
structure Lines where
  spans : Array (Nat × Nat)
  size : Nat
deriving DecidableEq

namespace Lines

def ofText (t : Text) : Lines := ⟨(lineSpans t.chars 0 0).toArray, t.size⟩

def count (ls : Lines) : Nat := ls.spans.size

def start? (ls : Lines) (line : Nat) : Option Nat := ls.spans[line]?.map (·.1)

def stop? (ls : Lines) (line : Nat) : Option Nat := ls.spans[line]?.map (·.2)

/-- Start and stop of a line, both zero when there is no such line. -/
def span (ls : Lines) (line : Nat) : Nat × Nat := ls.spans[line]?.getD (0, 0)

/-- The line of an offset; offsets past the end are on the last line. -/
def lineOf (ls : Lines) (offset : Nat) : Nat :=
  bisect (fun i => (ls.span i).1 ≤ min offset ls.size) 0 ls.count - 1

def spanOf (ls : Lines) (offset : Nat) : Nat × Nat := ls.span (ls.lineOf offset)

/-- Line and byte column of an offset. An offset inside a terminator counts as the end of its line. -/
def lineColumn (ls : Lines) (offset : Nat) : Nat × Nat :=
  let line := ls.lineOf offset
  (line, min (min offset ls.size) (ls.span line).2 - (ls.span line).1)

/-- Walks along a line until `target` code units are passed, and never into a character that would
pass more. -/
def advance : List Char → Nat → Nat → Nat → Nat
  | [], p, _, _ => p
  | c :: cs, p, units, target =>
    if target < units + units16 c then p else advance cs (p + c.utf8Size) (units + units16 c) target

/-- The offset of a position. A position past the end of its line is the end of that line, and a line
past the last is the end of the text. -/
def offsetOf (ls : Lines) (t : Text) (p : Position) : Nat :=
  match ls.spans[p.line]? with
  | some (start, stop) => advance (t.slice start stop) start 0 p.character
  | none => ls.size

def positionOf (ls : Lines) (t : Text) (offset : Nat) : Position :=
  let line := ls.lineOf offset
  let (start, stop) := ls.span line
  ⟨line, length16 (t.slice start (min offset stop))⟩

end Lines

end BraceScopes
