import BraceScopes.Proofs.Scan.Group
import BraceScopes.Scan.Clause
/-!
Searches for tokens and clauses before a place depend on nothing after it.
-/
namespace BraceScopes

namespace Lexed

section Bounds

variable {ix : Lexed} {pat : Pattern} {p bound count : Nat} {m : Span}

theorem codeMatches_bounds (tok : pat.Token) {limit : Nat} (h : m ∈ ix.codeMatches pat limit p) :
    m.start < m.stop ∧ m.stop ≤ limit := by
  fun_induction codeMatches ix pat limit p with
  | case1 => simp at h
  | case2 p k hk rest hcode ih =>
    rcases List.mem_cons.mp h with rfl | h
    · exact tok.of_find hk
    · exact ih h
  | case3 p k hk rest hcode ih => exact ih h

theorem searchWindow_bounds (tok : pat.Token) {window : Nat} {hw : 0 < window}
    (h : ix.searchWindow pat p bound count window hw = some m) :
    m.start < m.stop ∧ m.stop ≤ p := by
  fun_induction searchWindow ix pat p bound count window hw with
  | case1 window hw start found usable k hk =>
    cases h
    have hmem : m ∈ usable := by
      unfold fromEnd? at hk
      split at hk
      next => exact List.mem_of_getElem? hk
      next => simp at hk
    have hin : m ∈ found := by
      by_cases hlt : bound < start
      · simp only [usable, hlt, ↓reduceDIte] at hmem
        exact List.mem_of_mem_drop hmem
      · simpa only [usable, hlt, ↓reduceDIte] using hmem
    exact codeMatches_bounds tok hin
  | case2 window hw start found usable hnone hlt ih => exact ih h
  | case3 => simp at h

/-- A token that is found before a gap ends by the gap. -/
theorem searchBack_bounds (tok : pat.Token) (h : ix.searchBack pat p bound count = some m) :
    m.start < m.stop ∧ m.stop ≤ p := by
  unfold searchBack at h
  split at h
  next => simp at h
  next => exact searchWindow_bounds tok h

theorem clauseBefore_bounds (tok : pat.Token) (h : ix.clauseBefore? pat p bound = some m) :
    m.start < m.stop ∧ m.stop ≤ p := by
  have each : ∀ k count, ∀ m ∈ ix.searchBackFrom pat p bound count k,
      m.start < m.stop ∧ m.stop ≤ p := by
    intro k
    induction k with
    | zero => simp [searchBackFrom]
    | succ k ih =>
      intro count m hm
      rw [searchBackFrom] at hm
      split at hm
      next l hl =>
        rcases List.mem_cons.mp hm with rfl | hm
        · exact searchBack_bounds tok hl
        · exact ih (count + 1) m hm
      next => simp at hm
  exact each _ 1 m (List.mem_of_find?_eq_some h)

end Bounds

namespace SameBelow

variable {n limit p bound : Nat} {x y : Lexed} {pat : Pattern}

theorem codeMatches (h : SameBelow n x y) (tok : pat.Token) (hlimit : limit ≤ n) (p : Nat) :
    x.codeMatches pat limit p = y.codeMatches pat limit p := by
  induction hk : limit + 1 - p using Nat.strongRecOn generalizing p with
  | ind k ih =>
    unfold Lexed.codeMatches
    rw [tok.find_congr h.text hlimit]
    cases hm : pat.find? y.text limit p with
    | none => rfl
    | some m =>
      obtain ⟨hstop, hlimit'⟩ := tok.of_find hm
      have hle := (Pattern.of_find hm).1
      simp only
      rw [Pattern.resume_eq hstop, Pattern.resume_eq hstop, h.isCode (by omega),
        ih (limit + 1 - m.stop) (by omega) _ rfl]

theorem searchWindow (h : SameBelow n x y) (tok : pat.Token) (hp : p ≤ n) (hpos : 0 < p)
    (bound count : Nat) {window : Nat} (hw : 0 < window) :
    x.searchWindow pat p bound count window hw = y.searchWindow pat p bound count window hw := by
  induction hk : p - window using Nat.strongRecOn generalizing window with
  | ind k ih =>
    have hfloor := y.text.floor_le (p - window)
    unfold Lexed.searchWindow
    simp only
    rw [h.text.floor (by omega), h.codeMatches tok hp]
    split
    next => rfl
    next =>
      split
      next hlt => exact ih (p - 2 * window) (by omega) _ rfl
      next => rfl

theorem searchBack (h : SameBelow n x y) (tok : pat.Token) (hp : p ≤ n) (bound count : Nat) :
    x.searchBack pat p bound count = y.searchBack pat p bound count := by
  unfold Lexed.searchBack
  split
  next => rfl
  next hnot => exact h.searchWindow tok hp (by omega) bound count _

theorem searchBackAll (h : SameBelow n x y) (tok : pat.Token) (hp : p ≤ n) (bound : Nat) :
    x.searchBackAll pat p bound = y.searchBackAll pat p bound := by
  have upTo : ∀ k count, x.searchBackFrom pat p bound count k = y.searchBackFrom pat p bound count k := by
    intro k
    induction k with
    | zero => exact fun _ => rfl
    | succ k ih =>
      intro count
      rw [Lexed.searchBackFrom, Lexed.searchBackFrom, h.searchBack tok hp, ih]
  exact upTo _ 1

theorem identEnd (h : SameBelow n x y) (m : Mode) (hlimit : limit ≤ n) (p : Nat) :
    x.identEnd m limit p = y.identEnd m limit p := by
  induction hk : limit - p using Nat.strongRecOn generalizing p with
  | ind k ih =>
    unfold Lexed.identEnd
    by_cases hlt : p < limit
    · have hnext := y.text.lt_next p
      have same : x.isIdentChar m = y.isIdentChar m := funext (h.isIdentChar m)
      rw [h.text.agree p (by omega), h.text.agree.next (by omega), same,
        ih (limit - y.text.next p) (by omega) _ rfl]
    · simp only [hlt, decide_false, Bool.false_and, Bool.false_eq_true, ↓reduceIte]

theorem stepForward (h : SameBelow n x y) (hlimit : limit ≤ n) (hp : p < n) :
    x.stepForward? limit p = y.stepForward? limit p := by
  unfold Lexed.stepForward?
  rw [h.text.agree p hp, h.isCode hp, h.identEnd .angle hlimit, h.groupEnd_angle hlimit hp]
  cases y.text.charAt p with
  | none => rfl
  | some c => simp only [h.isIdentChar]

theorem skipsForwardTo (h : SameBelow n x y) {target : Nat} (htarget : target ≤ n) (p : Nat) :
    x.skipsForwardTo target p = y.skipsForwardTo target p := by
  induction hk : target - p using Nat.strongRecOn generalizing p with
  | ind k ih =>
    unfold Lexed.skipsForwardTo
    rw [h.skipTriviaForward htarget]
    by_cases hend : y.skipTriviaForward target p = target
    · rw [dif_pos hend, dif_pos hend]
    · have hp : p ≤ target := Nat.le_of_not_le fun hle => hend (skipTriviaForward_eq_limit hle)
      have hskip := y.of_skipTriviaForward hp
      rw [dif_neg hend, dif_neg hend, h.stepForward htarget (by omega)]
      cases hq : y.stepForward? target (y.skipTriviaForward target p) with
      | none => rfl
      | some q =>
        have hlt := lt_of_stepForward (by omega) hq
        exact ih (target - q) (by omega) _ rfl

theorem clauseBefore (h : SameBelow n x y) (tok : pat.Token) {target : Nat} (htarget : target ≤ n)
    (bound : Nat) : x.clauseBefore? pat target bound = y.clauseBefore? pat target bound := by
  unfold Lexed.clauseBefore?
  rw [h.searchBackAll tok htarget]
  congr 1
  exact funext fun m => h.skipsForwardTo htarget m.stop

end SameBelow

end Lexed

end BraceScopes
