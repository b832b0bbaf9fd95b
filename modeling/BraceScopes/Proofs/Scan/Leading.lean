import BraceScopes.Proofs.Scan.Units
import BraceScopes.Scan.Declaration
/-!
What belongs to a declaration before its name, piece by piece.
-/
namespace BraceScopes

namespace Lexed

variable {ix : Lexed} {bound p q : Nat}

theorem leadingPiece_eq_some : ix.leadingPiece? bound p = some q ↔
    ∃ u, ix.pieceBefore? .angle p bound = some u ∧
      ((u.kind = .ident ∨ u.kind = .group '<' ∨ u.kind = .group '[') ∧ u.start = q ∨
        u.kind = .group '(' ∧ ∃ a, ix.pieceBefore? .angle u.start bound = some a ∧
          a.kind = .ident ∧ ix.text.charAt a.start = some '@' ∧ a.start = q) := by
  unfold leadingPiece?
  cases hu : ix.pieceBefore? .angle p bound with
  | none => simp
  | some u =>
    simp only [Option.some.injEq, ↓existsAndEq, true_and]
    split
    next hkind => simp [hkind]
    next hkind => simp [hkind]
    next hkind => simp [hkind]
    next hkind =>
      cases ha : ix.pieceBefore? .angle u.start bound with
      | none => simp [hkind]
      | some a => simp [hkind, and_assoc]
    next hident hangle hsquare hround =>
      simp only [reduceCtorEq, false_iff]
      rintro (⟨hkind | hkind | hkind, -⟩ | ⟨hkind, -⟩)
      · exact hident hkind
      · exact hangle hkind
      · exact hsquare hkind
      · exact hround hkind

theorem extendBack_of_leadingPiece (h : ix.leadingPiece? bound p = some q) :
    ix.extendBack bound p = ix.extendBack bound q := by
  rw [extendBack]
  split
  next hnone => simp [h] at hnone
  next q' hq' =>
    rw [h] at hq'
    cases hq'
    rfl

theorem extendBack_of_none (h : ix.leadingPiece? bound p = none) : ix.extendBack bound p = p := by
  rw [extendBack]
  split
  next => rfl
  next q' hq' => simp [h] at hq'

theorem declarationStart_eq (hix : ix.IsJava) (hp : ix.CodeGap p) :
    ix.declarationStart p 0 = ix.extendBack 0 (ix.identStart .normal p) := by
  unfold declarationStart
  simp only
  rw [Text.floor_eq_self hp.boundary, Text.floor_eq_self hix.codeGap_zero.boundary, hp.code, Nat.max_zero]

end Lexed

end BraceScopes
