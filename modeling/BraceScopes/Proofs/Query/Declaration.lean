import BraceScopes.Proofs.Detect.Nested
import BraceScopes.Proofs.Scan.Sliced
/-!
Where the declaration around a place begins. From any place and down to any bound, also where these lie
inside a character, a comment or a literal, the walk back stops at a place from which it goes no
further, above the bound, and without a bound on the level where it began.
-/
namespace BraceScopes

open BraceScopes.Lex

namespace Lexed

/-- The gap at or before `p` where the text can be sliced, moved out of the comment or literal around
it. -/
def outward (ix : Lexed) (p : Nat) : Nat :=
  match ix.regionAtGap? (ix.text.floor p) with
  | some r => r.start
  | none => ix.text.floor p

variable {ix : Lexed} {m : Mode} {bound p q : Nat} {c : Char} {u : Piece}

theorem outward_le (ix : Lexed) (p : Nat) : ix.outward p ≤ ix.text.floor p := by
  unfold outward
  split
  next r hr => exact Nat.le_of_lt (of_regionAtGap hr)
  next => exact Nat.le_refl _

theorem outward_eq_self (hp : ix.CodeGap p) : ix.outward p = p := by
  rw [outward, Text.floor_eq_self hp.boundary, hp.code]

theorem declarationStart_eq_extendBack : ix.declarationStart p bound =
    ix.extendBack (ix.text.floor bound) (max (ix.identStart .normal (ix.outward p)) (ix.text.floor bound)) :=
  rfl

theorem le_identRun (hb : ix.text.isBoundary bound = true) (hp : ix.text.isBoundary p = true)
    (hle : bound ≤ p) : bound ≤ ix.identRun m bound p := by
  fun_induction identRun ix m bound p with
  | case1 p hlt h => exact hle
  | case2 p hlt q c h hident ih =>
    exact ih (Text.isBoundary_of_charBefore hp h) (Text.le_of_charBefore hb hp hlt h)
  | case3 p hlt q c h hident => exact hle
  | case4 p hlt => exact hle

/-- Right above the bound nothing is read. -/
theorem leadingPiece_bound (ix : Lexed) (bound : Nat) : ix.leadingPiece? bound bound = none := by
  have hskip := ix.skipTriviaBack_le bound bound
  rw [Nat.max_self] at hskip
  simp [leadingPiece?, pieceBefore?, hskip]

theorem leadingPiece_extendBack (ix : Lexed) (bound p : Nat) :
    ix.leadingPiece? bound (ix.extendBack bound p) = none := by
  fun_induction extendBack ix bound p with
  | case1 p h => exact h
  | case2 p q h ih => exact ih

namespace IsJava

variable (hix : ix.IsJava)

include hix

theorem le_pieceBefore (hb : ix.text.isBoundary bound = true) (hp : ix.text.isBoundary p = true)
    (h : ix.pieceBefore? m p bound = some u) : bound ≤ u.start := by
  obtain ⟨q, c, hc, hle, ⟨r, -, hr, -, hu⟩ | ⟨-, ⟨-, hu⟩ | ⟨-, -, hu⟩ | ⟨-, hu⟩⟩⟩ :=
    hix.of_pieceBefore hb hp h
  · omega
  · exact (of_groupStart hu).1
  · exact hu ▸ le_identRun hb (Text.isBoundary_of_charAt hc) hle
  · omega

/-- An identifier or a group begins with code, also above a bound that does not lie in code. -/
theorem codeGap_pieceBefore (hb : ix.text.isBoundary bound = true) (hp : ix.text.isBoundary p = true)
    (h : ix.pieceBefore? m p bound = some u) (hkind : u.kind = .ident ∨ ∃ a, u.kind = .group a) :
    ix.CodeGap u.start := by
  obtain ⟨q, c, -, hle, ⟨r, -, -, hliteral, -⟩ | ⟨hc, ⟨-, hu⟩ | ⟨-, -, hu⟩ | ⟨hpunct, -⟩⟩⟩ :=
    hix.of_pieceBefore hb hp h
  · simp [hliteral] at hkind
  · obtain ⟨b, hopener, -⟩ := hix.codeChar_groupStart hc hu
    exact hix.codeGap_of_code hopener
  · obtain ⟨-, hword, -⟩ := hix.identRun_spec (m := m) hb (hix.codeGap_of_code hc) hle
    exact hu ▸ hix.codeGap_word_start hword (hix.codeGap_of_code hc)
  · simp [hpunct] at hkind

theorem of_leadingPiece (hb : ix.text.isBoundary bound = true) (hp : ix.text.isBoundary p = true)
    (h : ix.leadingPiece? bound p = some q) : bound ≤ q ∧ ix.CodeGap q := by
  obtain ⟨u, hu, ⟨hkind, rfl⟩ | ⟨-, a, ha, hident, -, rfl⟩⟩ := leadingPiece_eq_some.mp h
  · refine ⟨hix.le_pieceBefore hb hp hu, hix.codeGap_pieceBefore hb hp hu (hkind.imp_right ?_)⟩
    rintro (hkind | hkind)
    · exact ⟨_, hkind⟩
    · exact ⟨_, hkind⟩
  · have hstart := hix.isBoundary_pieceBefore hb hp hu
    exact ⟨hix.le_pieceBefore hb hstart ha, hix.codeGap_pieceBefore hb hstart ha (.inl hident)⟩

theorem of_extendBack (hb : ix.text.isBoundary bound = true) (hp : ix.CodeGap p) (hle : bound ≤ p) :
    bound ≤ ix.extendBack bound p ∧ ix.CodeGap (ix.extendBack bound p) := by
  fun_induction extendBack ix bound p with
  | case1 p h => exact ⟨hle, hp⟩
  | case2 p q h ih =>
    obtain ⟨hbq, hq⟩ := hix.of_leadingPiece hb hp.boundary h
    exact ih hq hbq

theorem codeGap_outward (p : Nat) : ix.CodeGap (ix.outward p) := by
  unfold outward
  split
  next r hr =>
    have hmem := (hix.regionAtGap_eq_some.mp hr).1
    exact hix.codeGap_start
      (hix.regionAtChar_eq_some.mpr ⟨hmem, Nat.le_refl r.start, hix.nonempty_of_mem hmem⟩)
  next hr => exact ⟨ix.text.isBoundary_floor p, hr⟩

theorem codeGap_identStart (hp : ix.CodeGap p) : ix.CodeGap (ix.identStart .normal p) := by
  obtain ⟨-, hword, -⟩ := hix.identRun_spec (m := .normal) ix.text.isBoundary_zero hp (Nat.zero_le p)
  exact hix.codeGap_word_start hword hp

/-- Where the walk back over a declaration has come to its end no identifier is cut, unless by the
bound. -/
theorem identStart_eq_self (hb : ix.text.isBoundary bound = true) (hp : ix.CodeGap p)
    (hlt : bound < p) (h : ix.leadingPiece? bound p = none) : ix.identStart .normal p = p := by
  refine hix.identRun_stops hp (.inr ?_) (Nat.zero_le p)
  rintro a c rfl hc
  refine Bool.eq_false_iff.mpr fun hident => ?_
  have hangle : ix.isIdentChar .angle c = true := by simp [isIdentChar_angle, hident]
  have hle := Text.le_of_charBefore hb hp.boundary hlt hc.charBefore
  have hpiece := hix.pieceBefore_code (m := .angle) hp hc (hix.not_isBlank_of_ident hident) hle (.nil _)
  rw [pieceEndingAt_code hc, hix.not_isCloser_of_ident hangle, hangle] at hpiece
  have hlead := leadingPiece_eq_some.mpr ⟨_, hpiece, .inl ⟨.inl rfl, rfl⟩⟩
  simp [h] at hlead

theorem sameLevel_extendBack (hp : ix.CodeGap p) : ix.SameLevel (ix.extendBack 0 p) p := by
  fun_induction extendBack ix 0 p with
  | case1 p h => rfl
  | case2 p q h ih =>
    have hq := (hix.of_leadingPiece ix.text.isBoundary_zero hp.boundary h).2
    exact (ih hq).trans (hix.leadsTo_leadingPiece hp h).level

theorem sameLevel_identStart (hp : ix.CodeGap p) : ix.SameLevel (ix.identStart .normal p) p := by
  obtain ⟨-, hword, -⟩ := hix.identRun_spec (m := .normal) ix.text.isBoundary_zero hp (Nat.zero_le p)
  exact hix.sameLevel_balanced (hword.balanced hix)

/-- The walk back begins at the bound, where it ends at once, or with an identifier of code. -/
theorem declarationStart_cases (p bound : Nat) :
    ix.declarationStart p bound = ix.text.floor bound ∨
      ix.text.floor bound < ix.declarationStart p bound ∧ ix.CodeGap (ix.declarationStart p bound) := by
  have hb := ix.text.isBoundary_floor bound
  have hstart := hix.codeGap_identStart (hix.codeGap_outward p)
  rw [declarationStart_eq_extendBack]
  rcases Nat.le_total (ix.identStart .normal (ix.outward p)) (ix.text.floor bound) with hle | hle
  · rw [Nat.max_eq_right hle, extendBack_of_none (ix.leadingPiece_bound _)]
    exact .inl rfl
  · rw [Nat.max_eq_left hle]
    obtain ⟨hge, hgap⟩ := hix.of_extendBack hb hstart hle
    rcases Nat.lt_or_eq_of_le hge with hlt | heq
    · exact .inr ⟨hlt, hgap⟩
    · exact .inl heq.symm

/-- From where the walk back has come to its end it does not go on. -/
theorem declarationStart_declarationStart (p bound : Nat) :
    ix.declarationStart (ix.declarationStart p bound) bound = ix.declarationStart p bound := by
  generalize hr : ix.declarationStart p bound = r
  have hcases := hix.declarationStart_cases p bound
  rw [hr] at hcases
  rcases hcases with rfl | ⟨hlt, hgap⟩
  · have hle : ix.identStart .normal (ix.outward (ix.text.floor bound)) ≤ ix.text.floor bound := by
      have hident := ix.identRun_le .normal 0 (ix.outward (ix.text.floor bound))
      have hout := ix.outward_le (ix.text.floor bound)
      rw [Text.floor_eq_self (ix.text.isBoundary_floor bound)] at hout
      exact Nat.le_trans hident hout
    rw [declarationStart_eq_extendBack, Nat.max_eq_right hle,
      extendBack_of_none (ix.leadingPiece_bound _)]
  · have hnone : ix.leadingPiece? (ix.text.floor bound) r = none := by
      rw [← hr]
      exact ix.leadingPiece_extendBack _ _
    rw [declarationStart_eq_extendBack, outward_eq_self hgap,
      hix.identStart_eq_self (ix.text.isBoundary_floor bound) hgap hlt hnone,
      Nat.max_eq_left (Nat.le_of_lt hlt), extendBack_of_none hnone]

/-- Without a bound the walk back stays on the level where it begins. -/
theorem sameLevel_declarationStart (p : Nat) : ix.SameLevel (ix.declarationStart p 0) (ix.outward p) := by
  have hp := hix.codeGap_outward p
  have hstart := hix.codeGap_identStart hp
  rw [declarationStart_eq_extendBack, Text.floor_eq_self ix.text.isBoundary_zero, Nat.max_zero]
  exact (hix.sameLevel_extendBack hstart).trans (hix.sameLevel_identStart hp)

/-- On its way the walk back slices the text between characters only. -/
theorem sliced_declarationStart (p bound : Nat) :
    Sliced.declarationStart ix p bound = some (ix.declarationStart p bound) := by
  have hb := ix.text.isBoundary_floor bound
  have hp := (hix.codeGap_outward p).boundary
  have hrun : Sliced.identRun ix .normal 0 (ix.outward p) = some (ix.identRun .normal 0 (ix.outward p)) :=
    sliced_identRun hp
  have hstart : ix.text.isBoundary (ix.identRun .normal 0 (ix.outward p)) = true := isBoundary_identRun hp
  change (Sliced.identRun ix .normal 0 (ix.outward p)).bind _ = _
  rw [hrun]
  refine hix.sliced_extendBack hb ?_
  rcases Nat.le_total (ix.identRun .normal 0 (ix.outward p)) (ix.text.floor bound) with hle | hle
  · rw [Nat.max_eq_right hle]
    exact hb
  · rw [Nat.max_eq_left hle]
    exact hstart

end IsJava

end Lexed

/-- Finding the start of a declaration never slices the text inside a character. It ends between two
characters, not below the bound, and at a place from which it goes no further. Without a bound the same
brackets are open there as where it began. -/
theorem declarationStart_closure (t : Text) (p bound : Nat) :
    let ix := Lexed.ofText t .java
    let r := ix.declarationStart p bound
    Lexed.Sliced.declarationStart ix p bound = some r ∧ t.isBoundary r = true ∧ t.floor bound ≤ r ∧
      ix.declarationStart r bound = r ∧
      (classify t .java (ix.declarationStart p 0)).enclosing =
        (classify t .java (ix.outward p)).enclosing := by
  intro ix r
  have hix : ix.IsJava := Lexed.isJava_ofText t
  have boundary : ∀ b, t.isBoundary (ix.declarationStart p b) = true ∧
      t.floor b ≤ ix.declarationStart p b := by
    intro b
    have hcases := hix.declarationStart_cases p b
    rw [Lexed.ofText_text] at hcases
    rcases hcases with heq | ⟨hlt, hgap⟩
    · rw [heq]
      exact ⟨t.isBoundary_floor b, Nat.le_refl _⟩
    · have hgap := hgap.boundary
      rw [Lexed.ofText_text] at hgap
      exact ⟨hgap, Nat.le_of_lt hlt⟩
  have hlevel := hix.sameLevel_declarationStart p
  have hout := (hix.codeGap_outward p).boundary
  rw [Lexed.SameLevel, Lexed.ofText_text] at hlevel
  rw [Lexed.ofText_text] at hout
  refine ⟨hix.sliced_declarationStart p bound, (boundary bound).1, (boundary bound).2,
    hix.declarationStart_declarationStart p bound, ?_⟩
  rw [enclosing_of_le (Text.isBoundary_le_size (boundary 0).1),
    enclosing_of_le (Text.isBoundary_le_size hout), hlevel]

-- The bounds lie inside the argument of the annotation, and inside its second character.
example : let ix := Lexed.ofText (.ofString "@A(\"é\") int x") .java
    ix.declarationStart 14 0 = 0 ∧ ix.declarationStart 14 4 = 9 ∧ ix.declarationStart 5 5 = 4 := by
  decide +kernel

end BraceScopes
