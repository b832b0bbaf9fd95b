import BraceScopes.Scan.Group
import BraceScopes.Scan.Trivia
/-!
Reading code backward, one piece after the other: identifiers, groups, literals and single characters.
-/
namespace BraceScopes

inductive PieceKind where
  | ident
  /-- A balanced group, by its opening bracket. -/
  | group (opener : Char)
  | literal
  | punct (c : Char)
deriving DecidableEq

structure Piece where
  kind : PieceKind
  start : Nat
  stop : Nat
deriving DecidableEq

namespace Lexed

/-- The start of the identifier characters of code right before gap `p`, not below `bound`. -/
def identRun (ix : Lexed) (m : Mode) (bound p : Nat) : Nat :=
  if bound < p then
    match _h : ix.text.charBefore p with
    | none => p
    | some (q, c) => if ix.isIdentChar m c && ix.isCode q then identRun ix m bound q else p
  else p
termination_by p
decreasing_by exact Text.charBefore_lt _h

/-- The start of the identifier that contains or ends at gap `p`. -/
def identStart (ix : Lexed) (m : Mode) (p : Nat) : Nat := ix.identRun m 0 p

/-- The piece that ends with the character before gap `stop`. There is none when it begins below
`bound`, or is a closing bracket without a partner there. -/
def pieceEndingAt? (ix : Lexed) (m : Mode) (bound stop : Nat) : Option Piece :=
  match ix.text.charBefore stop with
  | none => none
  | some (q, c) =>
    match ix.regionAtChar? q with
    | some r => if bound ≤ r.start then some ⟨.literal, r.start, stop⟩ else none
    | none =>
      if m.isCloser c then
        (ix.groupStart m bound q).map fun o => ⟨.group ((ix.text.charAt o).getD c), o, stop⟩
      else if ix.isIdentChar m c then some ⟨.ident, ix.identRun m bound q, stop⟩
      else some ⟨.punct c, q, stop⟩

/-- The piece before gap `p`, trivia aside, if more than trivia is left above `bound`. -/
def pieceBefore? (ix : Lexed) (m : Mode) (p bound : Nat) : Option Piece :=
  if ix.skipTriviaBack p bound ≤ bound then none
  else ix.pieceEndingAt? m bound (ix.skipTriviaBack p bound)

theorem identRun_le (ix : Lexed) (m : Mode) (bound p : Nat) : ix.identRun m bound p ≤ p := by
  fun_induction identRun ix m bound p with
  | case2 p hlt q c hq hc ih =>
    have := Text.charBefore_lt hq
    omega
  | _ => exact Nat.le_refl _

theorem pieceEndingAt_lt {ix : Lexed} {m : Mode} {bound stop : Nat} {u : Piece}
    (h : ix.pieceEndingAt? m bound stop = some u) : u.start < stop := by
  unfold pieceEndingAt? at h
  split at h
  next => simp at h
  next q c hq =>
    have hlt := Text.charBefore_lt hq
    split at h
    next r hr =>
      have := of_regionAtChar hr
      split at h
      next => cases h; exact Nat.lt_of_le_of_lt this.1 hlt
      next => simp at h
    next =>
      split at h
      next =>
        obtain ⟨o, ho, rfl⟩ := Option.map_eq_some_iff.mp h
        exact Nat.lt_trans (of_groupStart ho).2 hlt
      next =>
        split at h
        next => cases h; exact Nat.lt_of_le_of_lt (ix.identRun_le m bound q) hlt
        next => cases h; exact hlt

/-- A piece begins before the gap it is read from. -/
theorem pieceBefore_lt {ix : Lexed} {m : Mode} {p bound : Nat} {u : Piece}
    (h : ix.pieceBefore? m p bound = some u) : u.start < p := by
  unfold pieceBefore? at h
  have hle := ix.skipTriviaBack_le p bound
  split at h
  next => simp at h
  next =>
    have := pieceEndingAt_lt h
    omega

/-- The pieces before gap `p`, nearest first. -/
def piecesBack (ix : Lexed) (m : Mode) (bound p : Nat) : List Piece :=
  match _h : ix.pieceBefore? m p bound with
  | none => []
  | some u => u :: piecesBack ix m bound u.start
termination_by p
decreasing_by exact pieceBefore_lt _h

def isWord (ix : Lexed) (u : Piece) (w : String) : Bool :=
  u.kind == .ident && ix.text.slice u.start u.stop == w.toList

end Lexed

end BraceScopes
