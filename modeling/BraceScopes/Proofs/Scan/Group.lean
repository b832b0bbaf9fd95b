import BraceScopes.Proofs.Scan.Trivia
import BraceScopes.Scan.Group
/-!
Balanced groups that end before a place depend on nothing after it.
-/
namespace BraceScopes

namespace Lexed

namespace SameBelow

variable {n : Nat} {x y : Lexed}

theorem isIdentChar (h : SameBelow n x y) (m : Mode) (c : Char) :
    x.isIdentChar m c = y.isIdentChar m c := by
  unfold Lexed.isIdentChar
  rw [h.rules]

theorem balanceBack (h : SameBelow n x y) (limit : Nat) (stack : List Char) {p : Nat} (hp : p ≤ n) :
    x.balanceBack limit stack p = y.balanceBack limit stack p := by
  induction p using Nat.strongRecOn generalizing stack with
  | ind p ih =>
    unfold Lexed.balanceBack
    rw [h.text.charBefore hp]
    by_cases hlt : limit < p
    · rw [if_pos hlt, if_pos hlt]
      cases hq : y.text.charBefore p with
      | none => rfl
      | some found =>
        obtain ⟨q, c⟩ := found
        have hqp := Text.charBefore_lt hq
        have at_q : ∀ stack, x.balanceBack limit stack q = y.balanceBack limit stack q :=
          fun stack => ih q hqp stack (by omega)
        simp only [at_q]
        rw [h.regionAtChar q (by omega)]
        cases hr : y.regionAtChar? q with
        | none => rfl
        | some r =>
          have hrq := of_regionAtChar hr
          exact ih r.start (by omega) stack (by omega)
    · rw [if_neg hlt, if_neg hlt]

theorem balanceForward (h : SameBelow n x y) {limit : Nat} (hlimit : limit ≤ n) (stack : List Char)
    (p : Nat) : x.balanceForward limit stack p = y.balanceForward limit stack p := by
  induction hk : limit - p using Nat.strongRecOn generalizing stack p with
  | ind k ih =>
    unfold Lexed.balanceForward
    by_cases hlt : p < limit
    · have hnext := y.text.lt_next p
      have at_next : ∀ stack, x.balanceForward limit stack (y.text.next p) =
          y.balanceForward limit stack (y.text.next p) :=
        fun stack => ih (limit - y.text.next p) (by omega) stack _ rfl
      rw [if_pos hlt, if_pos hlt, h.text.agree p (by omega), h.text.agree.next (by omega),
        h.regionAtChar p (by omega)]
      simp only [at_next]
      cases hr : y.regionAtChar? p with
      | none => rfl
      | some r =>
        have hrp := of_regionAtChar hr
        exact ih (limit - r.stop) (by omega) stack _ rfl
    · rw [if_neg hlt, if_neg hlt]

theorem groupStart (h : SameBelow n x y) (m : Mode) (limit : Nat) {close : Nat} (hclose : close < n) :
    x.groupStart m limit close = y.groupStart m limit close := by
  unfold Lexed.groupStart
  rw [h.text.agree close hclose, h.isCode hclose, h.openOf close hclose]
  cases y.text.charAt close with
  | none => rfl
  | some c => simp only [h.balanceBack limit [c] (Nat.le_of_lt hclose)]

/-- Where angle brackets pair, groups are read character by character up to the limit. -/
theorem groupEnd_angle (h : SameBelow n x y) {limit : Nat} (hlimit : limit ≤ n) {o : Nat} (ho : o < n) :
    x.groupEnd .angle limit o = y.groupEnd .angle limit o := by
  unfold Lexed.groupEnd
  rw [h.text.agree o ho, h.isCode ho]
  cases y.text.charAt o with
  | none => rfl
  | some c => simp only [h.balanceForward hlimit]

end SameBelow

end Lexed

end BraceScopes
