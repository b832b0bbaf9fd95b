import BraceScopes.Proofs.Scan.Group
import BraceScopes.Scan.Declaration
import BraceScopes.Scan.Skip
/-!
Pieces of code, and the declarations made of them, depend on nothing after the gap they are read from.
-/
namespace BraceScopes

namespace Lexed

theorem pieceEndingAt_stop {ix : Lexed} {m : Mode} {bound stop : Nat} {u : Piece}
    (h : ix.pieceEndingAt? m bound stop = some u) : u.stop = stop := by
  unfold pieceEndingAt? at h
  split at h
  next => simp at h
  next q c hq =>
    split at h
    next r hr =>
      split at h
      next => cases h; rfl
      next => simp at h
    next =>
      split at h
      next =>
        obtain ⟨o, -, rfl⟩ := Option.map_eq_some_iff.mp h
        rfl
      next =>
        split at h
        next => cases h; rfl
        next => cases h; rfl

/-- A piece is not empty and ends at or before the gap it is read from. -/
theorem pieceBefore_bounds {ix : Lexed} {m : Mode} {p bound : Nat} {u : Piece}
    (h : ix.pieceBefore? m p bound = some u) : u.start < u.stop ∧ u.stop ≤ p := by
  unfold pieceBefore? at h
  have hle := ix.skipTriviaBack_le p bound
  split at h
  next => simp at h
  next =>
    have hstart := pieceEndingAt_lt h
    have hstop := pieceEndingAt_stop h
    omega

namespace SameBelow

variable {n : Nat} {x y : Lexed}

theorem identRun (h : SameBelow n x y) (m : Mode) (bound : Nat) {p : Nat} (hp : p ≤ n) :
    x.identRun m bound p = y.identRun m bound p := by
  induction p using Nat.strongRecOn with
  | ind p ih =>
    unfold Lexed.identRun
    rw [h.text.charBefore hp]
    by_cases hlt : bound < p
    · rw [if_pos hlt, if_pos hlt]
      cases hq : y.text.charBefore p with
      | none => rfl
      | some found =>
        obtain ⟨q, c⟩ := found
        have hqp := Text.charBefore_lt hq
        simp only
        rw [ih q hqp (by omega), h.isIdentChar, h.isCode (by omega)]
    · rw [if_neg hlt, if_neg hlt]

theorem pieceEndingAt (h : SameBelow n x y) (m : Mode) (bound : Nat) {stop : Nat} (hstop : stop ≤ n) :
    x.pieceEndingAt? m bound stop = y.pieceEndingAt? m bound stop := by
  unfold Lexed.pieceEndingAt?
  rw [h.text.charBefore hstop]
  cases hq : y.text.charBefore stop with
  | none => rfl
  | some found =>
    obtain ⟨q, c⟩ := found
    have hqs := Text.charBefore_lt hq
    simp only
    rw [h.regionAtChar q (by omega), h.groupStart m bound (show q < n by omega), h.isIdentChar,
      h.identRun m bound (show q ≤ n by omega)]
    cases y.regionAtChar? q with
    | some r => rfl
    | none =>
      cases ho : y.groupStart m bound q with
      | none => rfl
      | some o =>
        have hoq := of_groupStart ho
        simp only [Option.map_some]
        rw [h.text.agree o (by omega)]

theorem pieceBefore (h : SameBelow n x y) (m : Mode) {p : Nat} (hp : p ≤ n) (bound : Nat) :
    x.pieceBefore? m p bound = y.pieceBefore? m p bound := by
  have hle := y.skipTriviaBack_le p bound
  unfold Lexed.pieceBefore?
  rw [h.skipTriviaBack hp]
  split
  next => rfl
  next => exact h.pieceEndingAt m bound (by omega)

theorem isWord (h : SameBelow n x y) {u : Piece} (hu : u.stop ≤ n) (w : String) :
    x.isWord u w = y.isWord u w := by
  rw [Lexed.isWord, Lexed.isWord, h.text.slice _ hu]

theorem stepBack (h : SameBelow n x y) {p : Nat} (hp : p ≤ n) : x.stepBack? p = y.stepBack? p := by
  have hle := y.skipTriviaBack_le p 0
  unfold Lexed.stepBack?
  rw [h.skipTriviaBack hp, h.text.charBefore (by omega)]
  cases hq : y.text.charBefore (y.skipTriviaBack p 0) with
  | none => rfl
  | some found =>
    obtain ⟨q, c⟩ := found
    have hqs := Text.charBefore_lt hq
    simp only
    rw [h.regionAtChar q (by omega), h.groupStart .normal 0 (show q < n by omega)]
    cases y.regionAtChar? q with
    | some r => rfl
    | none =>
      cases ho : y.groupStart .normal 0 q with
      | none => rfl
      | some o =>
        have hoq := of_groupStart ho
        simp only
        rw [h.text.agree o (by omega)]

theorem leadingPiece (h : SameBelow n x y) (bound : Nat) {p : Nat} (hp : p ≤ n) :
    x.leadingPiece? bound p = y.leadingPiece? bound p := by
  unfold Lexed.leadingPiece?
  rw [h.pieceBefore .angle hp]
  cases hu : y.pieceBefore? .angle p bound with
  | none => rfl
  | some u =>
    have hup := pieceBefore_lt hu
    simp only
    rw [h.pieceBefore .angle (show u.start ≤ n by omega)]
    cases ha : y.pieceBefore? .angle u.start bound with
    | none => rfl
    | some a =>
      have hau := pieceBefore_lt ha
      simp only
      rw [h.text.agree a.start (by omega)]

theorem extendBack (h : SameBelow n x y) (bound : Nat) {p : Nat} (hp : p ≤ n) :
    x.extendBack bound p = y.extendBack bound p := by
  induction p using Nat.strongRecOn with
  | ind p ih =>
    unfold Lexed.extendBack
    rw [h.leadingPiece bound hp]
    cases hq : y.leadingPiece? bound p with
    | none => rfl
    | some q =>
      have hqp := leadingPiece_lt hq
      exact ih q hqp (by omega)

theorem declarationStart (h : SameBelow n x y) {p : Nat} (hp : p < n) :
    x.declarationStart p 0 = y.declarationStart p 0 := by
  have hfloor := y.text.floor_le p
  unfold Lexed.declarationStart
  simp only
  rw [h.text.floor hp, h.text.floor (show 0 < n by omega), h.regionAtGap _ (by omega)]
  have from_gap : ∀ q < n, x.extendBack (y.text.floor 0) (max (x.identStart .normal q) (y.text.floor 0)) =
      y.extendBack (y.text.floor 0) (max (y.identStart .normal q) (y.text.floor 0)) := by
    intro q hq
    have hrun := y.identRun_le .normal 0 q
    have hzero := y.text.floor_le 0
    rw [Lexed.identStart, Lexed.identStart, h.identRun .normal 0 (Nat.le_of_lt hq)]
    exact h.extendBack _ (by omega)
  cases hr : y.regionAtGap? (y.text.floor p) with
  | none => exact from_gap (y.text.floor p) (by omega)
  | some r =>
    have hlt := of_regionAtGap hr
    exact from_gap r.start (by omega)

theorem normalizedFrom (h : SameBelow n x y) {stop : Nat} (hstop : stop ≤ n) (pending started : Bool)
    (p : Nat) : x.normalizedFrom stop pending started p = y.normalizedFrom stop pending started p := by
  induction hk : stop - p using Nat.strongRecOn generalizing pending started p with
  | ind k ih =>
    unfold Lexed.normalizedFrom
    by_cases hlt : p < stop
    · have hnext := y.text.lt_next p
      have at_next : ∀ pending started, x.normalizedFrom stop pending started (y.text.next p) =
          y.normalizedFrom stop pending started (y.text.next p) :=
        fun pending started => ih (stop - y.text.next p) (by omega) pending started _ rfl
      rw [if_pos hlt, if_pos hlt, h.text.agree p (by omega), h.text.agree.next (by omega),
        h.regionAtChar p (by omega)]
      simp only [at_next]
      cases hr : (y.regionAtChar? p).filter (·.kind == .comment) with
      | none => rfl
      | some r =>
        have hrp := of_regionAtChar (Option.filter_eq_some_iff.mp hr).1
        exact ih (stop - r.stop) (by omega) true started _ rfl
    · rw [if_neg hlt, if_neg hlt]

theorem normalized (h : SameBelow n x y) (start : Nat) {stop : Nat} (hstop : stop ≤ n) :
    x.normalized start stop = y.normalized start stop :=
  h.normalizedFrom hstop false false start

end SameBelow

end Lexed

end BraceScopes
