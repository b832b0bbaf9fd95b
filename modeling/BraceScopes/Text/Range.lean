/-!
Half-open stretches of byte offsets.
-/
namespace BraceScopes

/-- The offsets from `start` up to, not including, `stop`. -/
structure Range where
  start : Nat
  stop : Nat
  start_le_stop : start ≤ stop
deriving DecidableEq

namespace Range

/-- The stretch between two offsets, given in either order. -/
def between (a b : Nat) : Range := ⟨min a b, max a b, by omega⟩

def length (r : Range) : Nat := r.stop - r.start

def isEmpty (r : Range) : Bool := r.start == r.stop

/-- Ranges are written `start..stop`. -/
def toString (r : Range) : String := s!"{r.start}..{r.stop}"

end Range

end BraceScopes
