import BraceScopes.Proofs.ArgList.Entries
import BraceScopes.Proofs.Scan.Forward
/-!
Where going forward over a list of types leads. From the start of a list it leads to the end; from
inside a group it never leads out of the group.
-/
namespace BraceScopes

namespace Lexed

variable {ix : Lexed} {p q e s k o limit target : Nat} {c a : Char} {stack : List Char}
  {us : List Piece}

namespace IsJava

variable (hix : ix.IsJava)

include hix

theorem skipTriviaForward_trivia (h : ix.Trivia p q) (hle : q ≤ limit) :
    ix.skipTriviaForward limit p = ix.skipTriviaForward limit q := by
  induction h with
  | nil => rfl
  | @blank p q c char blank rest ih =>
    have := ix.text.lt_next p
    have := rest.le hix
    rw [skipTriviaForward_code char (by omega), if_pos blank, ih hle]
  | @comment p q r region kind rest ih =>
    have := (hix.delimited region.region).nonempty
    have := region.start
    have := rest.le hix
    rw [hix.skipTriviaForward_region region (by omega), if_pos kind, ih hle]

theorem identEnd_word (h : ix.Word .angle s e) (he : ix.CodeGap e) (hle : e ≤ limit)
    (whole : e = limit ∨ ∀ c, ix.CodeChar e c → ix.isIdentChar .angle c = false) :
    ix.identEnd .angle limit s = e := by
  induction h with
  | nil e =>
    rcases Nat.lt_or_eq_of_le hle with hlt | rfl
    · have hnot := whole.resolve_left (Nat.ne_of_lt hlt)
      cases hr : ix.regionAtChar? e with
      | some r => exact hix.identEnd_region (hix.codeGap_region he hr)
      | none =>
        cases hc : ix.text.charAt e with
        | none => rw [identEnd, hc]; simp
        | some c => rw [identEnd_code ⟨hc, hr⟩ hlt, hnot c ⟨hc, hr⟩]; rfl
    · exact identEnd_limit (Nat.le_refl _)
  | @char s e c char ident rest ih =>
    have := ix.text.lt_next s
    have := rest.le
    rw [identEnd_code char (by omega), if_pos ident, ih he hle whole]

/-- One step of the walk, over trivia and then over a piece. -/
theorem skipsForwardTo_step (htrivia : ix.Trivia p s) (hc : ix.CodeChar s c) (solid : isBlank c = false)
    (hlt : s < target) (hstep : ix.stepForward? target s = some e) :
    ix.skipsForwardTo target p = ix.skipsForwardTo target e := by
  have hs : ix.skipTriviaForward target p = s := by
    rw [hix.skipTriviaForward_trivia htrivia (Nat.le_of_lt hlt), skipTriviaForward_code hc hlt, solid]
    rfl
  rw [skipsForwardTo, dif_neg (by omega)]
  split
  next hnone => simp [hs, hstep] at hnone
  next e' he' =>
    rw [hs, hstep] at he'
    cases he'
    rfl

theorem skipsForwardTo_units (h : ix.Units p q us) (hq : ix.CodeGap q) (hle : q ≤ target)
    (hend : q = target ∨ ∀ c, ix.CodeChar q c → ix.isIdentChar .angle c = false) :
    ix.skipsForwardTo target p = ix.skipsForwardTo target q := by
  induction h with
  | @nil p q trivia =>
    have hsame := hix.skipTriviaForward_trivia trivia hle
    rw [skipsForwardTo, skipsForwardTo, hsame]
  | @ident p s e q us trivia word nonempty whole rest ih =>
    have heq := (hix.le_of_units rest).1
    obtain ⟨c, hc, hident⟩ := word.first nonempty
    have hgap := hix.codeGap_word word (hix.codeGap_of_code hc)
    have hend' : e = target ∨ ∀ c, ix.CodeChar e c → ix.isIdentChar .angle c = false := by
      rcases whole with rfl | whole
      · exact hend
      · exact .inr whole
    rw [hix.skipsForwardTo_step trivia hc (hix.not_isBlank_of_ident hident) (by omega)
      (by rw [stepForward_code hc, if_pos hident, hix.identEnd_word word hgap (by omega) hend']),
      ih hq hle hend]
  | @group p o k q a us trivia group kind rest ih =>
    have hkq := (hix.le_of_units rest).1
    have hok := group.inner.le hix
    obtain ⟨c, -, pair⟩ := group.closer
    have hident : ix.isIdentChar .angle a = false :=
      hix.not_ident_of_isGroupOpener (isGroupOpener_of_pair pair)
    have hopener : (a == '(' || a == '[' || a == '<') = true ∧ isBlank a = false := by
      rcases isGroupOpener_iff.mp (isGroupOpener_of_pair pair) with rfl | rfl | rfl | rfl
      · exact ⟨rfl, rfl⟩
      · exact ⟨rfl, rfl⟩
      · exact absurd rfl kind
      · exact ⟨rfl, rfl⟩
    have hstep : ix.stepForward? target o = some (k + 1) := by
      rw [stepForward_code group.opener, hident, hopener.1, hix.groupEnd_group group (by omega)]
      rfl
    rw [hix.skipsForwardTo_step trivia group.opener hopener.2 (by omega) hstep, ih hq hle hend]

/-- From the start of a list of types the walk leads to its end. -/
theorem skipsForwardTo_entries {uss : List (List Piece)} (h : ix.Entries p q uss) (hq : ix.CodeGap q) :
    ix.skipsForwardTo q p = true := by
  induction h with
  | @one p q us units =>
    rw [hix.skipsForwardTo_units units hq (Nat.le_refl _) (.inl rfl), skipsForwardTo,
      dif_pos (skipTriviaForward_eq_limit (Nat.le_refl _))]
  | @comma p k q us uss units comma rest ih =>
    have hkq := ArgList.le_of_entries hix rest
    have hident : ix.isIdentChar .angle ',' = false := ArgList.not_ident_comma hix
    have hstep : ix.stepForward? q k = some (k + 1) := by
      rw [stepForward_code comma, hident]
      rfl
    rw [hix.skipsForwardTo_units units (hix.codeGap_of_code comma) (by omega)
      (.inr fun c hc => by obtain rfl := hc.unique comma; exact hident),
      hix.skipsForwardTo_step (.nil k) comma rfl (by omega) hstep, ih hq]

/-- Going over trivia stays in balanced code. -/
theorem skipTriviaForward_balanced (h : ix.Balanced p k) (hc : ix.CodeChar k c)
    (hcloser : groupOpenerOf c = some a) (hlt : k < limit) :
    ∃ s, ix.skipTriviaForward limit p = s ∧ p ≤ s ∧ ix.Balanced s k := by
  induction h with
  | nil k =>
    refine ⟨k, ?_, Nat.le_refl _, .nil k⟩
    rw [skipTriviaForward_code hc hlt, not_isBlank_of_isCloser (Mode.isCloser_of_pair hcloser)]
    rfl
  | @char p k d char plain rest ih =>
    have hlt' := ix.text.lt_next p
    have hle := rest.le hix
    rw [skipTriviaForward_code char (by omega)]
    split
    next =>
      obtain ⟨s, hs, hps, hbalanced⟩ := ih hc hlt
      exact ⟨s, hs, by omega, hbalanced⟩
    next => exact ⟨p, rfl, Nat.le_refl _, .char char plain rest⟩
  | @region p k r region rest ih =>
    have hnonempty := (hix.delimited region.region).nonempty
    have hstart := region.start
    have hle := rest.le hix
    rw [hix.skipTriviaForward_region region (by omega)]
    split
    next =>
      obtain ⟨s, hs, hps, hbalanced⟩ := ih hc hlt
      exact ⟨s, hs, by omega, hbalanced⟩
    next => exact ⟨p, rfl, Nat.le_refl _, .region region rest⟩
  | @group p m k a d opener inner closer pair rest ihi ihr =>
    have hle := rest.le hix
    have hle' := inner.le hix
    have solid : isBlank a = false := by
      rcases isGroupOpener_iff.mp (isGroupOpener_of_pair pair) with rfl | rfl | rfl | rfl <;> rfl
    rw [skipTriviaForward_code opener (by omega), solid]
    exact ⟨p, rfl, Nat.le_refl _, .group opener inner closer pair rest⟩

theorem identEnd_balanced (h : ix.Balanced p k) (hc : ix.CodeChar k c)
    (hcloser : groupOpenerOf c = some a) (hlt : k < limit) :
    ix.Balanced (ix.identEnd .angle limit p) k := by
  induction h with
  | nil k =>
    rw [identEnd_code hc hlt, hix.not_ident_of_pair hcloser]
    exact .nil k
  | @char p k d char plain rest ih =>
    have := ix.text.lt_next p
    have := rest.le hix
    rw [identEnd_code char (by omega)]
    split
    next => exact ih hc hlt
    next => exact .char char plain rest
  | region region rest ih =>
    rw [hix.identEnd_region region]
    exact .region region rest
  | @group p m k a d opener inner closer pair rest ihi ihr =>
    have := inner.le hix
    have := rest.le hix
    rw [identEnd_code opener (by omega), hix.not_ident_of_isGroupOpener (isGroupOpener_of_pair pair)]
    exact .group opener inner closer pair rest

/-- One step over balanced code ends in balanced code, and there is none over a closing bracket. -/
theorem stepForward_balanced (h : ix.Balanced p k) (hc : ix.CodeChar k c)
    (hcloser : groupOpenerOf c = some a) (hlt : k < limit) (hstep : ix.stepForward? limit p = some e) :
    ix.Balanced e k := by
  cases h with
  | nil =>
    rw [stepForward_code hc, hix.not_ident_of_pair hcloser] at hstep
    rcases groupOpenerOf_eq_some.mp hcloser with ⟨rfl, -⟩ | ⟨rfl, -⟩ | ⟨rfl, -⟩ | ⟨rfl, -⟩ <;>
      simp at hstep
  | @char _ _ d char plain rest =>
    have hnext := Text.next_of_charAt char.char
    rw [stepForward_code char] at hstep
    split at hstep
    next =>
      cases hstep
      exact hix.identEnd_balanced (.char char plain rest) hc hcloser hlt
    next =>
      split at hstep
      next hopener =>
        have hplain := plain.2.2
        simp only [Bool.or_eq_true, beq_iff_eq] at hopener
        rcases hopener with (rfl | rfl) | rfl <;> simp [isGroupOpener, isOpener] at hplain
      next =>
        split at hstep
        next hmark =>
          cases hstep
          simp only [Bool.or_eq_true, beq_iff_eq] at hmark
          rcases hmark with rfl | rfl <;> rw [hnext] at rest <;> exact rest
        next => simp at hstep
  | region region rest => simp [stepForward_region region] at hstep
  | @group _ m _ b d opener inner closer pair rest =>
    have hle := rest.le hix
    have hgroup : ix.Group b p m := ⟨opener, inner, d, closer, pair⟩
    rw [stepForward_code opener, hix.not_ident_of_isGroupOpener (isGroupOpener_of_pair pair),
      hix.groupEnd_group hgroup (by omega)] at hstep
    simp only [Bool.false_eq_true, ↓reduceIte] at hstep
    split at hstep
    next =>
      cases hstep
      exact rest
    next =>
      split at hstep
      next hmark =>
        simp only [Bool.or_eq_true, beq_iff_eq] at hmark
        rcases isGroupOpener_iff.mp (isGroupOpener_of_pair pair) with rfl | rfl | rfl | rfl <;>
          simp at hmark
      next => simp at hstep

/-- From inside a group the walk does not lead past the end of the group. -/
theorem skipsForwardTo_closer (h : ix.Balanced p k) (hc : ix.CodeChar k c)
    (hcloser : groupOpenerOf c = some a) (hlt : k < target) : ix.skipsForwardTo target p = false := by
  induction hn : k - p using Nat.strongRecOn generalizing p with
  | ind n ih =>
    obtain ⟨s, hs, hps, hbalanced⟩ := hix.skipTriviaForward_balanced h hc hcloser hlt
    have hsk := hbalanced.le hix
    rw [skipsForwardTo, dif_neg (by omega)]
    split
    next => rfl
    next e he =>
      rw [hs] at he
      have hrest := hix.stepForward_balanced hbalanced hc hcloser hlt he
      have := lt_of_stepForward (by omega) he
      have := hrest.le hix
      exact ih (k - e) (by omega) hrest rfl

end IsJava

end Lexed

end BraceScopes
