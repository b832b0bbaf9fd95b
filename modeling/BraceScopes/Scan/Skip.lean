import BraceScopes.Scan.Group
import BraceScopes.Scan.Trivia
/-!
Walking backward over code, step by step, until a step satisfies a test.
-/
namespace BraceScopes

/-- What a step backward went over. -/
inductive Skipped where
  /-- Nothing yet. -/
  | start
  | literal
  /-- A balanced group, by its opening bracket. -/
  | group (opener : Char)
  | char (c : Char)
deriving DecidableEq

namespace Skipped

/-- The last character of what was skipped, as it is met going backward. -/
def closingChar : Skipped → Option Char
  | .group '(' => some ')'
  | .group '[' => some ']'
  | .group '{' => some '}'
  | .group '<' => some '>'
  | .char c => some c
  | _ => none

end Skipped

namespace Lexed

/-- One step back over trivia and then a literal, a balanced group or a character. -/
def stepBack? (ix : Lexed) (p : Nat) : Option (Skipped × Nat) :=
  match ix.text.charBefore (ix.skipTriviaBack p 0) with
  | none => none
  | some (q, c) =>
    match ix.regionAtChar? q with
    | some r => some (.literal, r.start)
    | none =>
      match ix.groupStart .normal 0 q with
      | some o => some (.group ((ix.text.charAt o).getD c), o)
      | none => some (.char c, q)

theorem stepBack_lt {ix : Lexed} {p q : Nat} {k : Skipped} (h : ix.stepBack? p = some (k, q)) :
    q < p := by
  unfold stepBack? at h
  have hle := ix.skipTriviaBack_le p 0
  split at h
  next => simp at h
  next at' c hc =>
    have := Text.charBefore_lt hc
    split at h
    next r hr =>
      have := of_regionAtChar hr
      cases h
      omega
    next =>
      split at h
      next o ho =>
        have := of_groupStart ho
        cases h
        omega
      next => cases h; omega

/-- Steps back until `stop` accepts what was skipped last and where it began, or until the start of
the text. The result is every such pair that was tested, and the final place. -/
def walkBack (ix : Lexed) (stop : Skipped → Nat → Bool) (last : Skipped) (p : Nat) :
    List (Skipped × Nat) × Nat :=
  if stop last p then ([(last, p)], p)
  else
    match _h : ix.stepBack? p with
    | none => ([(last, p)], ix.skipTriviaBack p 0)
    | some (k, q) =>
      let (seen, final) := walkBack ix stop k q
      ((last, p) :: seen, final)
termination_by p
decreasing_by exact stepBack_lt _h

/-- Walks back from gap `p`, having skipped nothing yet. -/
def skipBackUntil (ix : Lexed) (stop : Skipped → Nat → Bool) (p : Nat) : List (Skipped × Nat) × Nat :=
  ix.walkBack stop .start p

end Lexed

end BraceScopes
