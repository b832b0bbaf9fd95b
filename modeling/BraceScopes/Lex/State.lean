import BraceScopes.Lex.Event
/-!
The lexical state of a place: whether it is code, and which brackets are open there. A place is the
gap before a byte.
-/
namespace BraceScopes

structure LexState where
  /-- Kind and start of the comment or string around the gap. -/
  literal : Option (RegionKind × Nat)
  /-- The brackets open at the gap, innermost first. -/
  enclosing : List Nat
deriving DecidableEq

namespace LexState

def isCode (s : LexState) : Bool := s.literal.isNone

/-- A gap, moved to the start of the comment or string around it. -/
def codeStart (s : LexState) (p : Nat) : Nat :=
  match s.literal with
  | some (_, start) => start
  | none => p

/-- The state at gap `p`, read off the events before it, with `stack` the brackets open so far. A
closing bracket closes the innermost one, of whatever type. -/
def replay (p : Nat) : List Event → List Nat → LexState
  | [], stack => ⟨none, stack⟩
  | .opened q :: es, stack => if q < p then replay p es (q :: stack) else ⟨none, stack⟩
  | .closed q :: es, stack => if q < p then replay p es stack.tail else ⟨none, stack⟩
  | .region r :: es, stack =>
    if r.start < p then
      if r.containsGap p then ⟨some (r.kind, r.start), stack⟩ else replay p es stack
    else ⟨none, stack⟩

end LexState

/-- The lexical state at gap `p`, by lexing the text from its start. Gaps past the end count as the
end. -/
def classify (t : Text) (r : Rules) (p : Nat) : LexState :=
  LexState.replay (min p t.size) (Lex.events t r) []

end BraceScopes
