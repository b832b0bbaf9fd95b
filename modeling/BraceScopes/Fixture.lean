import BraceScopes.Text.Basic
import BraceScopes.Text.Range
/-!
Texts with marks in them, for examples: `$0` marks a place, `/*start*/` and `/*end*/` a stretch.
-/
namespace BraceScopes

namespace Fixture

/-- Takes the marks out of characters that begin at offset `p`, and gives the places where they were. -/
def takeCursors : List Char → Nat → List Char × List Nat
  | [], _ => ([], [])
  | '$' :: '0' :: cs, p => let (rest, places) := takeCursors cs p; (rest, p :: places)
  | c :: cs, p => let (rest, places) := takeCursors cs (p + c.utf8Size); (c :: rest, places)

/-- A text without its marks, and the places of the marks. -/
def cursors (t : Text) : Text × List Nat :=
  let (cs, places) := takeCursors t.chars 0
  (Text.ofChars cs, places)

/-- A text without its mark, and the place of the mark, if there is exactly one. -/
def cursor? (t : Text) : Option (Text × Nat) :=
  match cursors t with
  | (text, [p]) => some (text, p)
  | _ => none

def startMark : List Char := "/*start*/".toList

def stopMark : List Char := "/*end*/".toList

/-- A text without its first marks, and the stretch between them. The first end mark has to come after
the first start mark. -/
def range? (t : Text) : Option (Text × Range) := do
  let start ← t.find? startMark 0
  let inside := start + byteLength startMark
  let stop ← t.find? stopMark 0
  if inside ≤ stop then
    let text := t.slice 0 start ++ t.slice inside stop ++ t.slice (stop + byteLength stopMark) t.size
    return (Text.ofChars text, .between start (stop - byteLength startMark))
  else none

/-- The first place of some characters. -/
def offsetOf? (t : Text) (needle : String) : Option Nat := t.find? needle.toList 0

/-- The place of the `n`-th opening brace, counted from zero and wherever it stands. -/
def nthBrace? (t : Text) (n : Nat) : Option Nat :=
  ((List.range t.size).filter fun p => t.charAt p == some '{')[n]?

end Fixture

end BraceScopes
