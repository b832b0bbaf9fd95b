import BraceScopes.Proofs.Lex.Code
import BraceScopes.Scan.Trivia
/-!
Going back over trivia from a gap of Java code. White space is tested before comments are, so the walk
may go over the last blanks of a comment or of a literal that ends with its line; it leaves the comment
by its start, and stays inside the literal.
-/
namespace BraceScopes

theorem IsDelimiter.not_blank {c : Char} (h : IsDelimiter c) : isBlank c = false := by
  rcases h with rfl | rfl | rfl <;> rfl

namespace Lexed

/-- White space and comments of code from `p` to `q`. -/
inductive Trivia (ix : Lexed) : Nat → Nat → Prop
  | nil (p : Nat) : Trivia ix p p
  | blank {p q : Nat} {c : Char} (char : ix.CodeChar p c) (blank : isBlank c = true)
      (rest : Trivia ix (ix.text.next p) q) : Trivia ix p q
  | comment {p q : Nat} {r : Region} (region : ix.RegionAt p r) (kind : r.kind = .comment)
      (rest : Trivia ix r.stop q) : Trivia ix p q

/-- The character before gap `p` belongs to the region `r`. -/
def EndsIn (ix : Lexed) (p : Nat) (r : Region) : Prop :=
  ∃ a c, ix.text.charBefore p = some (a, c) ∧ ix.regionAtChar? a = some r

/-- Where going back over trivia from `p` may end. -/
inductive Retreat (ix : Lexed) (bound p : Nat) : Nat → Prop
  | bound (trivia : ix.Trivia bound p) : Retreat ix bound p bound
  | code {a : Nat} {c : Char} (char : ix.CodeChar a c) (solid : isBlank c = false) (above : bound ≤ a)
      (trivia : ix.Trivia (ix.text.next a) p) : Retreat ix bound p (ix.text.next a)
  | literal {q : Nat} {r : Region} (region : ix.RegionAt r.start r) (kind : r.kind = .string)
      (above : bound ≤ r.start) (inside : ix.EndsIn q r) (before : q ≤ r.stop)
      (trivia : ix.Trivia r.stop p) : Retreat ix bound p q

variable {ix : Lexed} {bound p q : Nat} {c : Char} {r : Region}

namespace Trivia

theorem trans {m : Nat} (h : ix.Trivia p m) (h' : ix.Trivia m q) : ix.Trivia p q := by
  induction h with
  | nil => exact h'
  | blank char blank _ ih => exact .blank char blank (ih h')
  | comment region kind _ ih => exact .comment region kind (ih h')

theorem le (hix : ix.IsJava) (h : ix.Trivia p q) : p ≤ q := by
  induction h with
  | nil => exact Nat.le_refl _
  | @blank p q c char blank rest ih =>
    have := ix.text.lt_next p
    omega
  | comment region kind rest ih =>
    have := (hix.delimited region.region).nonempty
    have := region.start
    omega

end Trivia

theorem retreat_of_charBefore (hlt : bound < p) (h : ix.text.charBefore p = some (q, c)) :
    ix.retreat bound p =
      if isBlank c then ix.retreat bound q
      else match ix.regionAtChar? q with
        | some r => if r.kind = .comment then ix.retreat bound r.start else p
        | none => p := by
  rw [retreat, if_pos hlt]
  split
  next hnone => simp [h] at hnone
  next a d ha =>
    cases ha.symm.trans h
    split
    next => rfl
    next =>
      split
      next r hr => simp only [hr]
      next hr => simp only [hr]

namespace IsJava

variable (hix : ix.IsJava)

include hix

/-- A comment or literal before a character that is no blank ends with a delimiter. -/
theorem isDelimiter_last {a : Nat} {d : Char} (ha : ix.text.charAt a = some c)
    (hr : ix.regionAtChar? a = some r) (hstop : ix.text.next a = r.stop)
    (hd : ix.text.charAt r.stop = some d) (hsolid : isBlank d = false) : IsDelimiter c := by
  have hne : ∀ e, isBlank e = true → d ≠ e := by
    rintro e he rfl
    simp [hsolid] at he
  exact (hix.delimited hr).last ha hstop hd (hne _ (by decide)) (hne _ (by decide))

theorem retreat_comment {a : Nat} (hr : ix.regionAtChar? a = some r) (hkind : r.kind = .comment)
    (hbound : bound ≤ r.start) (hp : ix.text.isBoundary p = true) (hstart : r.start ≤ p)
    (hstop : p ≤ r.stop) : ix.retreat bound p = ix.retreat bound r.start := by
  induction p using Nat.strongRecOn with
  | ind p ih =>
    rcases Nat.lt_or_eq_of_le hstart with hlt | heq
    · obtain ⟨q, c, hc, rfl⟩ := Text.exists_charBefore hp (by omega)
      have hqp := ix.text.lt_next q
      have hrq : r.start ≤ q := by
        refine Nat.le_of_not_lt fun hq => ?_
        have := Text.next_le_of_isBoundary hc hq (hix.delimited hr).isBoundary_start
        omega
      rw [retreat_of_charBefore (by omega) (Text.charBefore_next hc),
        ih q hqp (Text.isBoundary_of_charAt hc) hrq (by omega),
        hix.regionAtChar_inside hr hrq (by omega)]
      simp only [hkind, ↓reduceIte, ite_self]
    · rw [heq]

theorem retreat_literal {a : Nat} (hr : ix.regionAtChar? a = some r) (hkind : r.kind = .string)
    (hbound : bound ≤ r.start) (hp : ix.text.isBoundary p = true) (hstart : r.start < p)
    (hstop : p ≤ r.stop) : ix.EndsIn (ix.retreat bound p) r ∧ ix.retreat bound p ≤ p := by
  induction p using Nat.strongRecOn with
  | ind p ih =>
    obtain ⟨q, c, hc, rfl⟩ := Text.exists_charBefore hp (by omega)
    have hqp := ix.text.lt_next q
    have hdelim := hix.delimited hr
    have hrq : r.start ≤ q := by
      refine Nat.le_of_not_lt fun hq => ?_
      have := Text.next_le_of_isBoundary hc hq hdelim.isBoundary_start
      omega
    have hin := hix.regionAtChar_inside hr hrq (by omega)
    have hback := Text.charBefore_next hc
    rw [retreat_of_charBefore (by omega) hback]
    split
    next hblank =>
      have hne : r.start ≠ q := by
        rintro rfl
        obtain ⟨d, hd, hdelim⟩ := hdelim.opening
        obtain rfl := Option.some.inj (hc.symm.trans hd)
        simp [hdelim.not_blank] at hblank
      obtain ⟨hends, hle⟩ := ih q hqp (Text.isBoundary_of_charAt hc) (by omega) (by omega)
      exact ⟨hends, by omega⟩
    next =>
      simp only [hin, hkind, reduceCtorEq, ↓reduceIte]
      exact ⟨⟨q, c, hback, hin⟩, Nat.le_refl _⟩

/-- Going back over trivia ends at the bound, behind a character of code that is no blank, or inside a
literal. -/
theorem retreat_spec (hb : ix.CodeGap bound) (hp : ix.CodeGap p) (hle : bound ≤ p) :
    ix.Retreat bound p (ix.retreat bound p) := by
  suffices hall : ∀ q, ix.CodeGap q → bound ≤ q → ix.Trivia q p → ix.Retreat bound p (ix.retreat bound q) from
    hall p hp hle (.nil p)
  intro q
  induction q using Nat.strongRecOn with
  | ind q ih =>
    intro hq hle htrivia
    rcases Nat.lt_or_eq_of_le hle with hlt | rfl
    · rcases hix.before_codeGap hq (by omega) with ⟨a, c, hc, rfl⟩ | ⟨a, c, r, hc, rfl, hr, hstop⟩
      · have haq := ix.text.lt_next a
        have hba : bound ≤ a := by
          refine Nat.le_of_not_lt fun ha => ?_
          have := Text.next_le_of_isBoundary hc.char ha hb.boundary
          omega
        rw [retreat_of_charBefore hlt hc.charBefore, hc.code]
        cases hblank : isBlank c with
        | true => exact ih a haq (hix.codeGap_of_code hc) hba (.blank hc hblank htrivia)
        | false => exact .code hc hblank hba htrivia
      · have hregion := hix.regionAt_start hr
        have hba : bound ≤ r.start := by
          have := hix.codeGap_outside hb hr
          omega
        have hra := (of_regionAtChar hr).1
        have haq := ix.text.lt_next a
        rw [← hstop] at htrivia
        cases hkind : r.kind with
        | comment =>
          rw [hix.retreat_comment hr hkind hba hq.boundary (by omega) (by omega)]
          exact ih r.start (by omega) (hix.codeGap_start hr) hba (.comment hregion hkind htrivia)
        | string =>
          obtain ⟨hends, hback⟩ :=
            hix.retreat_literal hr hkind hba hq.boundary (by omega) (by omega)
          exact .literal hregion hkind hba hends (by omega) htrivia
    · rw [retreat_eq_bound (Nat.le_refl _)]
      exact .bound htrivia

end IsJava

end Lexed

end BraceScopes
