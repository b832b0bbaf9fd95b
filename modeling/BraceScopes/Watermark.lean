/-!
How much of a text is resolved.
-/
namespace BraceScopes

/-- The earliest place whose annotations may be out of date. -/
inductive Watermark where
  /-- Nothing was resolved yet. -/
  | uninitialized
  /-- All annotations are up to date. -/
  | clean
  /-- Annotations before the offset are up to date. -/
  | dirty (p : Nat)
deriving DecidableEq

namespace Watermark

/-- Moves the mark down to `p`; never up, and not before the first resolving. -/
def lower : Watermark → Nat → Watermark
  | .uninitialized, _ => .uninitialized
  | .clean, p => .dirty p
  | .dirty q, p => .dirty (min q p)

/-- The first offset to resolve, unless all is up to date. -/
def dirtyFrom : Watermark → Option Nat
  | .uninitialized => some 0
  | .clean => none
  | .dirty p => some p

end Watermark

end BraceScopes
