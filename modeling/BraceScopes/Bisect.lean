/-!
Binary search for the place where a test turns from true to false.
-/
namespace BraceScopes

/-- The first index of `[lo, hi)` at which `p` fails, for a test that never turns true again. -/
def bisect (p : Nat → Bool) (lo hi : Nat) : Nat :=
  if lo < hi then
    let mid := lo + (hi - lo) / 2
    if p mid then bisect p (mid + 1) hi else bisect p lo mid
  else lo
termination_by hi - lo

theorem le_bisect (p : Nat → Bool) (lo hi : Nat) : lo ≤ bisect p lo hi := by
  fun_induction bisect p lo hi <;> omega

theorem bisect_le (p : Nat → Bool) {lo hi : Nat} (h : lo ≤ hi) : bisect p lo hi ≤ hi := by
  fun_induction bisect p lo hi <;> omega

/-- Below the result the test holds, from the result on it fails. -/
theorem lt_bisect_iff (p : Nat → Bool) {lo hi i : Nat}
    (down : ∀ a b, a ≤ b → b < hi → p b = true → p a = true) (hlo : lo ≤ i) (hhi : i < hi) :
    i < bisect p lo hi ↔ p i = true := by
  fun_induction bisect p lo hi with
  | case1 lo hi hlt mid hp ih =>
    by_cases hi' : mid + 1 ≤ i
    · exact ih down hi' hhi
    · have hpi : p i = true := down i mid (by omega) (by omega) hp
      have hle := le_bisect p (mid + 1) hi
      exact iff_of_true (by omega) hpi
  | case2 lo hi hlt mid hp ih =>
    by_cases hi' : i < mid
    · exact ih (fun a b hab hb => down a b hab (by omega)) hlo hi'
    · have hnp : ¬ p i = true := fun hpi => hp (down mid i (by omega) hhi hpi)
      have hle := bisect_le p (show lo ≤ mid by omega)
      exact iff_of_false (by omega) hnp
  | case3 lo hi hlt => omega

end BraceScopes
