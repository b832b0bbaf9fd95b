import BraceScopes.Lex.Index
import BraceScopes.Scan.Pattern
/-!
Searching code. A match counts when it begins in code; matches do not overlap. The backward search
looks at windows that double in size, so that its cost depends on how far the match is.
-/
namespace BraceScopes

namespace Lexed

/-- The matches in `[p, limit)` that begin in code, from left to right. -/
def codeMatches (ix : Lexed) (pat : Pattern) (limit p : Nat) : List Span :=
  match _h : pat.find? ix.text limit p with
  | none => []
  | some m =>
    let rest := codeMatches ix pat limit (Pattern.resume ix.text m)
    if ix.isCode m.start then m :: rest else rest
termination_by limit + 1 - p
decreasing_by
  have := Pattern.of_find _h
  have := Pattern.lt_resume ix.text m
  omega

/-- The matches in `[p, limit)`, from left to right, where an empty stretch has none. -/
def searchForwardAll (ix : Lexed) (pat : Pattern) (p limit : Nat) : List Span :=
  if limit ≤ p then [] else ix.codeMatches pat limit p

/-- The match in `[p, limit)` that is `count`-th from the left. -/
def searchForward (ix : Lexed) (pat : Pattern) (p limit count : Nat) : Option Span :=
  if count = 0 then none else (ix.searchForwardAll pat p limit)[count - 1]?

/-- The smallest window of a backward search, in bytes. -/
def firstWindow : Nat := 256

def fromEnd? (ms : List Span) (count : Nat) : Option Span :=
  if count ≤ ms.length then ms[ms.length - count]? else none

/-- Searches windows that end at `p`, each twice the one before, for the `count`-th match from the
right. A match may run over the start of a window and spoil the first one found in it, so that one
only counts when the window begins at `bound`. -/
def searchWindow (ix : Lexed) (pat : Pattern) (p bound count window : Nat) (_pos : 0 < window) :
    Option Span :=
  let start := max (ix.text.floor (p - window)) bound
  let found := ix.codeMatches pat p start
  let usable := if bound < start then found.drop 1 else found
  match fromEnd? usable count with
  | some m => some m
  | none =>
    if _h : bound < start then searchWindow ix pat p bound count (2 * window) (by omega) else none
termination_by p - window
decreasing_by
  have := ix.text.floor_le (p - window)
  omega

/-- The match in `[bound, p)` that is `count`-th from the right. -/
def searchBack (ix : Lexed) (pat : Pattern) (p bound count : Nat) : Option Span :=
  if count = 0 ∨ p ≤ bound then none
  else ix.searchWindow pat p bound count firstWindow (by decide)

/-- A positive count searches backward, a negative one forward. -/
def search (ix : Lexed) (pat : Pattern) (p : Nat) (bound : Option Nat) (count : Int) : Option Span :=
  if 0 ≤ count then ix.searchBack pat p (bound.getD 0) count.natAbs
  else ix.searchForward pat p (bound.getD ix.text.size) count.natAbs

/-- The results of backward searches for one match after the other, at most `n` of them. -/
def searchBackFrom (ix : Lexed) (pat : Pattern) (p bound count : Nat) : Nat → List Span
  | 0 => []
  | n + 1 =>
    match ix.searchBack pat p bound count with
    | some m => m :: searchBackFrom ix pat p bound (count + 1) n
    | none => []

/-- The matches in `[bound, p)` as the backward search finds them, from right to left. No two of them
begin at one place. -/
def searchBackAll (ix : Lexed) (pat : Pattern) (p bound : Nat) : List Span :=
  ix.searchBackFrom pat p bound 1 (p - bound + 2)

end Lexed

end BraceScopes
