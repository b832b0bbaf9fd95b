import BraceScopes.Scan.Piece
/-!
Where a declaration begins, and its text without comments.
-/
namespace BraceScopes

namespace Lexed

/-- The start of what belongs to a declaration before gap `p`: an identifier, a list of type
parameters, array brackets, or an annotation with its arguments. -/
def leadingPiece? (ix : Lexed) (bound p : Nat) : Option Nat :=
  match ix.pieceBefore? .angle p bound with
  | none => none
  | some u =>
    match u.kind with
    | .ident => some u.start
    | .group '<' => some u.start
    | .group '[' => some u.start
    | .group '(' =>
      match ix.pieceBefore? .angle u.start bound with
      | some a => if a.kind = .ident ∧ ix.text.charAt a.start = some '@' then some a.start else none
      | none => none
    | _ => none

theorem leadingPiece_lt {ix : Lexed} {bound p q : Nat} (h : ix.leadingPiece? bound p = some q) :
    q < p := by
  unfold leadingPiece? at h
  split at h
  next => simp at h
  next u hu =>
    have hlt := pieceBefore_lt hu
    split at h
    next => cases h; exact hlt
    next => cases h; exact hlt
    next => cases h; exact hlt
    next =>
      split at h
      next a ha =>
        have := pieceBefore_lt ha
        split at h
        next => cases h; omega
        next => simp at h
      next => simp at h
    next => simp at h

/-- Moves back from gap `p` as long as the declaration goes on. -/
def extendBack (ix : Lexed) (bound p : Nat) : Nat :=
  match _h : ix.leadingPiece? bound p with
  | none => p
  | some q => extendBack ix bound q
termination_by p
decreasing_by exact leadingPiece_lt _h

/-- The start of the declaration whose name contains gap `p`, not below `bound`. -/
def declarationStart (ix : Lexed) (p bound : Nat) : Nat :=
  let p := ix.text.floor p
  let bound := ix.text.floor bound
  let p := match ix.regionAtGap? p with
    | some r => r.start
    | none => p
  ix.extendBack bound (max (ix.identStart .normal p) bound)

/-- The characters of `[p, stop)` without comments, with each stretch of trivia as one space. A space
is owed when `pending`, and written before the next character unless that is the first. -/
def normalizedFrom (ix : Lexed) (stop : Nat) (pending started : Bool) (p : Nat) : List Char :=
  if p < stop then
    match _hr : (ix.regionAtChar? p).filter (·.kind == .comment) with
    | some r => normalizedFrom ix stop true started r.stop
    | none =>
      match ix.text.charAt p with
      | none => []
      | some c =>
        if isBlank c then normalizedFrom ix stop true started (ix.text.next p)
        else if pending && started then ' ' :: c :: normalizedFrom ix stop false true (ix.text.next p)
        else c :: normalizedFrom ix stop false true (ix.text.next p)
  else []
termination_by stop - p
decreasing_by
  · have := of_regionAtChar (Option.filter_eq_some_iff.mp _hr).1
    omega
  all_goals
    have := ix.text.lt_next p
    omega

/-- The text of `[start, stop)` without comments, with white space collapsed. -/
def normalized (ix : Lexed) (start stop : Nat) : List Char :=
  ix.normalizedFrom stop false false start

end Lexed

end BraceScopes
