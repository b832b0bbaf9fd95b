import BraceScopes.Text.Basic
import BraceScopes.Text.Range
/-!
Edits of a text, alone and in batches. A batch acts as if all its edits were made at once, so it is
refused when two of them touch the same bytes.
-/
namespace BraceScopes

namespace Text

/-- The text with the bytes of `r` replaced by another text. -/
def replace (t : Text) (r : Range) (new : Text) : Text :=
  ofChars (t.slice 0 r.start ++ new.chars ++ t.slice r.stop t.size)

end Text

structure Edit where
  range : Range
  replacement : Text
deriving DecidableEq

inductive EditError where
  | outOfBounds (range : Range) (size : Nat)
  | notBoundary (offset : Nat)
  | overlap (first second : Range)
deriving DecidableEq

namespace EditError

def message : EditError → String
  | .outOfBounds r n => s!"edit range {r.toString} is out of bounds for text length {n}"
  | .notBoundary p => s!"offset {p} is not a UTF-8 character boundary"
  | .overlap a b => s!"overlapping edits: {a.toString} overlaps {b.toString}"

end EditError

namespace Edit

/-- The first byte whose content or place an edit may change. -/
def earliestChanged (e : Edit) : Nat := e.range.start

def delta (e : Edit) : Int := (e.replacement.size : Int) - e.range.length

/-- Edits are ordered by where they start, then by where they stop. -/
def before (a b : Edit) : Bool :=
  a.range.start < b.range.start || (a.range.start == b.range.start && a.range.stop ≤ b.range.stop)

/-- A batch in order of place; edits of one and the same range keep their order. -/
def sort (es : List Edit) : List Edit := es.mergeSort before

def placeError? (t : Text) (e : Edit) : Option EditError :=
  if t.size < e.range.stop then some (.outOfBounds e.range t.size)
  else if !t.isBoundary e.range.start then some (.notBoundary e.range.start)
  else if !t.isBoundary e.range.stop then some (.notBoundary e.range.stop)
  else none

/-- Whether two ranges, the first not after the second, cannot both be replaced: they share bytes, or
both are the same empty place. -/
def clash (a b : Range) : Bool :=
  b.start < a.stop || (a.isEmpty && b.isEmpty && a.start == b.start)

/-- The first two neighbours of a batch that clash. -/
def clash? : List Edit → Option EditError
  | a :: b :: es =>
    if clash a.range b.range then some (.overlap a.range b.range) else clash? (b :: es)
  | _ => none

/-- What is wrong with a sorted batch: first the places, in order, then the clashes, in order. -/
def batchError? (t : Text) (es : List Edit) : Option EditError :=
  (es.findSome? (placeError? t)).or (clash? es)

/-- Puts a batch in order of place, and says whether it is refused. It is left in order either way. -/
def normalize (t : Text) (es : List Edit) : List Edit × Except EditError Unit :=
  let sorted := sort es
  (sorted, match batchError? t sorted with
    | some error => .error error
    | none => .ok ())

/-- The text after a batch. The edits are made from the last to the first, so that no edit moves the
place of another. -/
def applyAll (t : Text) (es : List Edit) : Except EditError Text :=
  let (sorted, result) := normalize t es
  result.map fun _ => sorted.foldr (fun e out => out.replace e.range e.replacement) t

end Edit

end BraceScopes
