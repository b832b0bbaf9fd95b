import BraceScopes.Lex.Index
import BraceScopes.Text.Blank
/-!
Skipping what has no meaning in code: white space and comments.
-/
namespace BraceScopes

namespace Lexed

/-- Moves back from a gap outside all literals over white space and comments, not below `bound`. -/
def retreat (ix : Lexed) (bound p : Nat) : Nat :=
  if bound < p then
    match _h : ix.text.charBefore p with
    | none => p
    | some (q, c) =>
      if isBlank c then retreat ix bound q
      else
        match _hr : ix.regionAtChar? q with
        | some r => if r.kind = .comment then retreat ix bound r.start else p
        | none => p
  else bound
termination_by p
decreasing_by
  · exact Text.charBefore_lt _h
  · have := Text.charBefore_lt _h
    have := of_regionAtChar _hr
    omega

/-- Moves back over white space and comments, not below `bound`, and first out of the comment or
string around the gap. -/
def skipTriviaBack (ix : Lexed) (p bound : Nat) : Nat :=
  match ix.regionAtGap? p with
  | some r => ix.retreat bound r.start
  | none => ix.retreat bound p

/-- Moves forward over white space and comments, not past `limit`. -/
def skipTriviaForward (ix : Lexed) (limit p : Nat) : Nat :=
  if p < limit then
    match ix.text.charAt p with
    | none => p
    | some c =>
      if isBlank c then skipTriviaForward ix limit (ix.text.next p)
      else
        match _hr : ix.regionAtChar? p with
        | some r => if r.kind = .comment then skipTriviaForward ix limit r.stop else p
        | none => p
  else limit
termination_by limit - p
decreasing_by
  · have := ix.text.lt_next p
    omega
  · have := of_regionAtChar _hr
    omega

/-- Skipping forward ends between its start and its limit. -/
theorem of_skipTriviaForward {ix : Lexed} {limit p : Nat} (h : p ≤ limit) :
    p ≤ ix.skipTriviaForward limit p ∧ ix.skipTriviaForward limit p ≤ limit := by
  fun_induction skipTriviaForward ix limit p with
  | case2 p hlt c hc hb ih =>
    have := ix.text.lt_next p
    by_cases hl : ix.text.next p ≤ limit
    · have := ih hl
      omega
    · unfold skipTriviaForward
      simp [show ¬ ix.text.next p < limit by omega, h]
  | case3 p hlt c hc hb r hr hk ih =>
    have := of_regionAtChar hr
    by_cases hl : r.stop ≤ limit
    · have := ih hl
      omega
    · unfold skipTriviaForward
      simp [show ¬ r.stop < limit by omega, h]
  | case1 | case4 | case5 => omega
  | case6 => omega

theorem skipTriviaForward_eq_limit {ix : Lexed} {limit p : Nat} (h : limit ≤ p) :
    ix.skipTriviaForward limit p = limit := by
  unfold skipTriviaForward
  simp [show ¬ p < limit by omega]

theorem retreat_le {ix : Lexed} {bound p : Nat} (h : bound ≤ p) : ix.retreat bound p ≤ p := by
  fun_induction retreat ix bound p with
  | case1 => exact Nat.le_refl _
  | case2 p hlt q c hq hb ih =>
    have := Text.charBefore_lt hq
    by_cases hbq : bound ≤ q
    · have := ih hbq
      omega
    · have : ix.retreat bound q = bound := by
        unfold retreat
        simp [show ¬ bound < q by omega]
      omega
  | case3 p hlt q c hq hb r hr hk ih =>
    have := Text.charBefore_lt hq
    have := of_regionAtChar hr
    by_cases hbq : bound ≤ r.start
    · have := ih hbq
      omega
    · have : ix.retreat bound r.start = bound := by
        unfold retreat
        simp [show ¬ bound < r.start by omega]
      omega
  | case4 => exact Nat.le_refl _
  | case5 => exact Nat.le_refl _
  | case6 => exact h

theorem retreat_eq_bound {ix : Lexed} {bound p : Nat} (h : p ≤ bound) : ix.retreat bound p = bound := by
  unfold retreat
  simp [show ¬ bound < p by omega]

/-- Skipping back does not go forward, unless it begins below the bound. -/
theorem skipTriviaBack_le (ix : Lexed) (p bound : Nat) : ix.skipTriviaBack p bound ≤ max p bound := by
  unfold skipTriviaBack
  split
  next r hr =>
    have := of_regionAtGap hr
    by_cases hb : bound ≤ r.start
    · have := ix.retreat_le hb
      omega
    · rw [retreat_eq_bound (by omega)]
      omega
  next =>
    by_cases hb : bound ≤ p
    · have := ix.retreat_le hb
      omega
    · rw [retreat_eq_bound (by omega)]
      omega

end Lexed

end BraceScopes
