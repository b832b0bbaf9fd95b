import BraceScopes.Scan.Group
import BraceScopes.Scan.Search
import BraceScopes.Scan.Trivia
/-!
Clauses of a declaration: a keyword and the list of types after it.
-/
namespace BraceScopes

namespace Lexed

/-- The end of the identifier characters from `p` on, below `limit`. -/
def identEnd (ix : Lexed) (m : Mode) (limit p : Nat) : Nat :=
  if p < limit && (ix.text.charAt p).any (ix.isIdentChar m) then identEnd ix m limit (ix.text.next p)
  else p
termination_by limit - p
decreasing_by
  have := ix.text.lt_next p
  simp_all
  omega

/-- One step forward over an identifier, a group, a comma or an ampersand of code at `p`. -/
def stepForward? (ix : Lexed) (limit p : Nat) : Option Nat :=
  match ix.text.charAt p with
  | none => none
  | some c =>
    if !ix.isCode p then none
    else if ix.isIdentChar .angle c then some (ix.identEnd .angle limit p)
    else if c == '(' || c == '[' || c == '<' then (ix.groupEnd .angle limit p).map (· + 1)
    else if c == ',' || c == '&' then some (p + 1)
    else none

theorem le_identEnd (ix : Lexed) (m : Mode) (limit p : Nat) : p ≤ ix.identEnd m limit p := by
  fun_induction identEnd ix m limit p with
  | case1 p h ih =>
    have := ix.text.lt_next p
    omega
  | case2 => exact Nat.le_refl _

theorem lt_of_stepForward {ix : Lexed} {limit p q : Nat} (hlt : p < limit)
    (h : ix.stepForward? limit p = some q) : p < q := by
  unfold stepForward? at h
  split at h
  next => simp at h
  next c hc =>
    split at h
    next => simp at h
    next =>
      split at h
      next hi =>
        cases h
        unfold identEnd
        simp only [hlt, hc, Option.any_some, hi, decide_true, Bool.and_self, ↓reduceIte]
        exact Nat.lt_of_lt_of_le (ix.text.lt_next p) (ix.le_identEnd _ _ _)
      next =>
        split at h
        next =>
          obtain ⟨o, ho, rfl⟩ := Option.map_eq_some_iff.mp h
          have := lt_of_groupEnd ho
          omega
        next =>
          split at h
          next => cases h; omega
          next => simp at h

/-- Whether going forward over identifiers, groups, commas, ampersands and trivia leads from `p`
exactly to `target`. -/
def skipsForwardTo (ix : Lexed) (target p : Nat) : Bool :=
  if _ht : ix.skipTriviaForward target p = target then true
  else
    match _h : ix.stepForward? target (ix.skipTriviaForward target p) with
    | none => false
    | some q => skipsForwardTo ix target q
termination_by target - p
decreasing_by
  have hp : p ≤ target := Nat.le_of_not_le fun hle => _ht (skipTriviaForward_eq_limit hle)
  have := ix.of_skipTriviaForward hp
  have := lt_of_stepForward (by omega) _h
  omega

/-- The nearest match in `[bound, target)` from whose end a list of types leads exactly to
`target`. -/
def clauseBefore? (ix : Lexed) (pat : Pattern) (target bound : Nat) : Option Span :=
  (ix.searchBackAll pat target bound).find? fun m => ix.skipsForwardTo target m.stop

end Lexed

end BraceScopes
