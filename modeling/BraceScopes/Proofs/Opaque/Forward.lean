import BraceScopes.Proofs.Opaque.Code
import BraceScopes.Proofs.Scan.Forward
import BraceScopes.Proofs.Scan.Matches
/-!
Reading forward over code gives the same in two texts that differ only inside comments and literals:
from one gap of code it leads to another, and the characters on the way are code.
-/
namespace BraceScopes

open BraceScopes.Lex

namespace Lexed

namespace SameCode

variable {x y : Lexed} {p q limit : Nat} {c : Char} {r : Region}

/-- What stands at a gap of code before another one: a character of code, the same in both texts, or a
comment or literal that ends before the other gap. -/
theorem at_codeGap (h : SameCode x y) (hp : x.CodeGap p) (hlimit : x.CodeGap limit) (hlt : p < limit) :
    (∃ c, x.CodeChar p c ∧ y.CodeChar p c ∧ x.text.next p = y.text.next p ∧
        x.CodeGap (y.text.next p) ∧ y.text.next p ≤ limit) ∨
      ∃ r, x.RegionAt p r ∧ y.RegionAt p r ∧ x.CodeGap r.stop ∧ r.stop ≤ limit := by
  rcases h.left.at_codeGap hp hlimit hlt with ⟨c, hc, hgap, hle⟩ | ⟨r, hr, hgap, hle⟩
  · rw [h.next hc] at hgap hle
    exact .inl ⟨c, hc, h.codeChar hc, h.next hc, hgap, hle⟩
  · exact .inr ⟨r, hr, h.regionAt hr, hgap, hle⟩

theorem skipTriviaForward (h : SameCode x y) (hlimit : x.CodeGap limit) (hp : x.CodeGap p)
    (hle : p ≤ limit) : x.skipTriviaForward limit p = y.skipTriviaForward limit p ∧
      x.CodeGap (y.skipTriviaForward limit p) := by
  induction hk : limit - p using Nat.strongRecOn generalizing p with
  | ind k ih =>
    rcases Nat.lt_or_eq_of_le hle with hlt | rfl
    · rcases h.at_codeGap hp hlimit hlt with ⟨c, hx, hy, hnext, hgap, hle'⟩ | ⟨r, hx, hy, hgap, hle'⟩
      · have hpn := y.text.lt_next p
        have rest := ih (limit - y.text.next p) (by omega) hgap hle' rfl
        rw [skipTriviaForward_code hx hlt, skipTriviaForward_code hy hlt, hnext]
        split
        next => exact rest
        next => exact ⟨rfl, hp⟩
      · have hlt' := (h.left.delimited hx.region).nonempty
        have hstart := hx.start
        have rest := ih (limit - r.stop) (by omega) hgap hle' rfl
        rw [h.left.skipTriviaForward_region hx hlt, h.right.skipTriviaForward_region hy hlt]
        split
        next => exact rest
        next => exact ⟨rfl, hp⟩
    · rw [skipTriviaForward_eq_limit (Nat.le_refl p), skipTriviaForward_eq_limit (Nat.le_refl p)]
      exact ⟨rfl, hlimit⟩

theorem balanceForward (h : SameCode x y) (hlimit : x.CodeGap limit) (hp : x.CodeGap p)
    (hle : p ≤ limit) (stack : List Char) :
    x.balanceForward limit stack p = y.balanceForward limit stack p := by
  induction hk : limit - p using Nat.strongRecOn generalizing p stack with
  | ind k ih =>
    rcases Nat.lt_or_eq_of_le hle with hlt | rfl
    · rcases h.at_codeGap hp hlimit hlt with ⟨c, hx, hy, hnext, hgap, hle'⟩ | ⟨r, hx, hy, hgap, hle'⟩
      · have hpn := y.text.lt_next p
        have at_next : ∀ stack, x.balanceForward limit stack (y.text.next p) =
            y.balanceForward limit stack (y.text.next p) :=
          fun stack => ih (limit - y.text.next p) (by omega) hgap hle' stack rfl
        rw [balanceForward_code hx hlt, balanceForward_code hy hlt, hnext]
        simp only [at_next]
      · have hlt' := (h.left.delimited hx.region).nonempty
        have hstart := hx.start
        rw [balanceForward_region hx hlt, balanceForward_region hy hlt]
        exact ih (limit - r.stop) (by omega) hgap hle' stack rfl
    · rw [balanceForward_limit (Nat.le_refl p), balanceForward_limit (Nat.le_refl p)]

theorem identEnd (h : SameCode x y) (hlimit : x.CodeGap limit) (hp : x.CodeGap p) (hle : p ≤ limit) :
    x.identEnd .angle limit p = y.identEnd .angle limit p ∧ x.CodeGap (y.identEnd .angle limit p) ∧
      y.identEnd .angle limit p ≤ limit := by
  induction hk : limit - p using Nat.strongRecOn generalizing p with
  | ind k ih =>
    rcases Nat.lt_or_eq_of_le hle with hlt | rfl
    · rcases h.at_codeGap hp hlimit hlt with ⟨c, hx, hy, hnext, hgap, hle'⟩ | ⟨r, hx, hy, hgap, hle'⟩
      · have hpn := y.text.lt_next p
        have rest := ih (limit - y.text.next p) (by omega) hgap hle' rfl
        rw [identEnd_code hx hlt, identEnd_code hy hlt, h.isIdentChar, hnext]
        split
        next => exact rest
        next => exact ⟨rfl, hp, hle⟩
      · rw [h.left.identEnd_region hx, h.right.identEnd_region hy]
        exact ⟨rfl, hp, hle⟩
    · rw [identEnd_limit (Nat.le_refl p), identEnd_limit (Nat.le_refl p)]
      exact ⟨rfl, hp, hle⟩

theorem stepForward (h : SameCode x y) (hlimit : x.CodeGap limit) (hp : x.CodeGap p) (hlt : p < limit) :
    x.stepForward? limit p = y.stepForward? limit p ∧
      ∀ q, y.stepForward? limit p = some q → x.CodeGap q ∧ q ≤ limit := by
  rcases h.at_codeGap hp hlimit hlt with ⟨c, hx, hy, hnext, hgap, hle⟩ | ⟨r, hx, hy, -, -⟩
  · have after : ∀ d, c = d → d.utf8Size = 1 → x.CodeGap (p + 1) ∧ p + 1 ≤ limit := by
      rintro d rfl hsize
      rw [Text.next_of_charAt hy.char, hsize] at hgap hle
      exact ⟨hgap, hle⟩
    obtain ⟨hident, hend, hendle⟩ := h.identEnd hlimit hp (Nat.le_of_lt hlt)
    rw [stepForward_code hx, stepForward_code hy, h.isIdentChar, hident]
    split
    next =>
      refine ⟨rfl, fun q hq => ?_⟩
      cases hq
      exact ⟨hend, hendle⟩
    next =>
      split
      next hc =>
        simp only [Bool.or_eq_true, beq_iff_eq] at hc
        have hopen : x.CodeGap (p + 1) ∧ p + 1 ≤ limit := by
          rcases hc with (hc | hc) | hc <;> exact after _ hc rfl
        have hgroup : x.groupEnd .angle limit p = y.groupEnd .angle limit p := by
          rw [groupEnd_angle_code hx, groupEnd_angle_code hy,
            h.balanceForward hlimit hopen.1 hopen.2]
        rw [hgroup]
        refine ⟨rfl, fun q hq => ?_⟩
        obtain ⟨k, hk, rfl⟩ := Option.map_eq_some_iff.mp hq
        rw [groupEnd_angle_code hy] at hk
        obtain ⟨d, b, hd, pair, hkl⟩ := closer_of_balanceForward (Option.ite_none_right_eq_some.mp hk).2
        rw [← hd.next_closer pair]
        have hcode := h.symm.codeGap (h.right.codeGap_next hd)
        exact ⟨hcode, Text.next_le_of_isBoundary hd.char hkl (h.codeGap hlimit).boundary⟩
      next =>
        split
        next hc =>
          refine ⟨rfl, fun q hq => ?_⟩
          cases hq
          simp only [Bool.or_eq_true, beq_iff_eq] at hc
          rcases hc with hc | hc <;> exact after _ hc rfl
        next => exact ⟨rfl, fun q hq => by simp at hq⟩
  · rw [stepForward_region hx, stepForward_region hy]
    exact ⟨rfl, fun q hq => by simp at hq⟩

theorem skipsForwardTo (h : SameCode x y) (hlimit : x.CodeGap limit) (hp : x.CodeGap p)
    (hle : p ≤ limit) : x.skipsForwardTo limit p = y.skipsForwardTo limit p := by
  induction hk : limit - p using Nat.strongRecOn generalizing p with
  | ind k ih =>
    obtain ⟨hskip, hgap⟩ := h.skipTriviaForward hlimit hp hle
    obtain ⟨hge, hskiple⟩ := y.of_skipTriviaForward hle
    unfold Lexed.skipsForwardTo
    rw [hskip]
    by_cases hend : y.skipTriviaForward limit p = limit
    · rw [dif_pos hend, dif_pos hend]
    · obtain ⟨hstep, hafter⟩ := h.stepForward hlimit hgap (Nat.lt_of_le_of_ne hskiple hend)
      rw [dif_neg hend, dif_neg hend, hstep]
      cases hq : y.stepForward? limit (y.skipTriviaForward limit p) with
      | none => rfl
      | some q =>
        have hlt := lt_of_stepForward (Nat.lt_of_le_of_ne hskiple hend) hq
        obtain ⟨hqgap, hqle⟩ := hafter q hq
        exact ih (limit - q) (by omega) hqgap hqle rfl

end SameCode

end Lexed

end BraceScopes
