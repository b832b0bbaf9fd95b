import BraceScopes.Bisect
/-!
Sets of characters written as the code points at which membership changes: a code point is in the set
when an odd number of edges is at or below it.
-/
namespace BraceScopes

/-- How many edges of an ascending table are at or below `n`. -/
def edgesUpTo (edges : Array Nat) (n : Nat) : Nat :=
  bisect (fun i => edges[i]?.getD 0 ≤ n) 0 edges.size

/-- Whether a character is in the set with the given ascending edges. -/
def withinEdges (edges : Array Nat) (c : Char) : Bool := edgesUpTo edges c.toNat % 2 == 1

end BraceScopes
