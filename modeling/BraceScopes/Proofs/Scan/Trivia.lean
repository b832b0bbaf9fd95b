import BraceScopes.Proofs.Lex.Behind
import BraceScopes.Scan.Trivia
/-!
Skipping trivia depends on nothing after the place it starts from.
-/
namespace BraceScopes

namespace Lexed

namespace SameBelow

variable {n : Nat} {x y : Lexed}

theorem isCode (h : SameBelow n x y) {p : Nat} (hp : p < n) : x.isCode p = y.isCode p := by
  rw [Lexed.isCode, Lexed.isCode, h.regionAtChar p hp]

theorem retreat (h : SameBelow n x y) (bound : Nat) {p : Nat} (hp : p ≤ n) :
    x.retreat bound p = y.retreat bound p := by
  induction p using Nat.strongRecOn with
  | ind p ih =>
    rw [Lexed.retreat, Lexed.retreat, h.text.charBefore hp]
    by_cases hlt : bound < p
    · rw [if_pos hlt, if_pos hlt]
      cases hq : y.text.charBefore p with
      | none => rfl
      | some found =>
        obtain ⟨q, c⟩ := found
        have hqp := Text.charBefore_lt hq
        simp only
        rw [ih q hqp (by omega), h.regionAtChar q (by omega)]
        cases hr : y.regionAtChar? q with
        | none => rfl
        | some r =>
          have hrq := of_regionAtChar hr
          simp only
          rw [ih r.start (by omega) (by omega)]
    · rw [if_neg hlt, if_neg hlt]

theorem skipTriviaBack (h : SameBelow n x y) {p : Nat} (hp : p ≤ n) (bound : Nat) :
    x.skipTriviaBack p bound = y.skipTriviaBack p bound := by
  rw [Lexed.skipTriviaBack, Lexed.skipTriviaBack, h.regionAtGap p hp]
  cases hr : y.regionAtGap? p with
  | none => exact h.retreat bound hp
  | some r =>
    have hlt := of_regionAtGap hr
    exact h.retreat bound (by omega)

theorem skipTriviaForward (h : SameBelow n x y) {limit : Nat} (hlimit : limit ≤ n) (p : Nat) :
    x.skipTriviaForward limit p = y.skipTriviaForward limit p := by
  induction hk : limit - p using Nat.strongRecOn generalizing p with
  | ind k ih =>
    unfold Lexed.skipTriviaForward
    by_cases hlt : p < limit
    · have hnext := y.text.lt_next p
      rw [if_pos hlt, if_pos hlt, h.text.agree p (by omega), h.text.agree.next (by omega),
        h.regionAtChar p (by omega), ih (limit - y.text.next p) (by omega) _ rfl]
      cases y.text.charAt p with
      | none => rfl
      | some c =>
        cases hr : y.regionAtChar? p with
        | none => rfl
        | some r =>
          have hrp := of_regionAtChar hr
          simp only
          rw [ih (limit - r.stop) (by omega) _ rfl]
    · rw [if_neg hlt, if_neg hlt]

end SameBelow

end Lexed

end BraceScopes
