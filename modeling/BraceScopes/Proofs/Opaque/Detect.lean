import BraceScopes.Proofs.Detect.Cases
import BraceScopes.Proofs.Opaque.ArgList
import BraceScopes.Proofs.Scan.Leading
/-!
What a brace opens does not depend on what comments and literals hold: in two texts with the same code
the usual detectors say the same of it. Only a name can differ, where it holds the text of a literal.
-/
namespace BraceScopes

open BraceScopes.Lex

namespace Lexed

/-- What is said of a brace in two texts. -/
structure SameDetection (x y : Lexed) (d e : Detection) : Prop where
  kind : d.kind = e.kind
  start : d.start = e.start
  name : SameLiterals x y → d.name = e.name

namespace SameCode

variable {x y : Lexed} {m : Mode} {p q b bound stop : Nat} {u : Piece} {d : Detection} {k : Span}

theorem piece (h : SameCode x y) (hb : x.CodeGap bound) (hp : x.CodeGap p) (hle : bound ≤ p)
    (hu : x.pieceBefore? m p bound = some u) (hkind : u.kind ≠ .literal) :
    y.pieceBefore? m p bound = some u := by
  have halike := h.pieceBefore (m := m) hb hp hle
  rw [hu] at halike
  generalize y.pieceBefore? m p bound = o at halike
  cases halike with
  | some halike =>
    rcases halike with rfl | ⟨hlit, -⟩
    · rfl
    · exact absurd hlit hkind

theorem piece_zero (h : SameCode x y) (hp : x.CodeGap p) (hu : x.pieceBefore? m p 0 = some u)
    (hkind : u.kind ≠ .literal) : y.pieceBefore? m p 0 = some u :=
  h.piece h.left.codeGap_zero hp (Nat.zero_le p) hu hkind

theorem last_piece (h : SameCode x y) (hp : x.CodeGap p) (hu : x.pieceBefore? m p 0 = some u) :
    x.Last m 0 p (some u) :=
  hu ▸ h.left.pieceBefore_spec h.left.codeGap_zero hp (Nat.zero_le p)

theorem codeGap_piece (h : SameCode x y) (hp : x.CodeGap p) (hu : x.pieceBefore? m p 0 = some u) :
    x.CodeGap u.start :=
  h.left.codeGap_of_last (h.last_piece hp hu)

/-- An identifier that is read back spells the same in both texts. -/
theorem slice_piece (h : SameCode x y) (hp : x.CodeGap p) (hu : x.pieceBefore? m p 0 = some u)
    (hkind : u.kind = .ident) : x.text.slice u.start u.stop = y.text.slice u.start u.stop := by
  have hlast := h.last_piece hp hu
  cases hlast with
  | ident word nonempty above stops trivia => exact h.slice_word word nonempty
  | group | punct | literal => simp at hkind

theorem word_piece (h : SameCode x y) (hp : x.CodeGap p) (hu : x.pieceBefore? m p 0 = some u)
    (hkind : u.kind = .ident) : x.text.word u.start u.stop = y.text.word u.start u.stop := by
  rw [Text.word, Text.word, h.slice_piece hp hu hkind]

theorem identStart (h : SameCode x y) (hp : x.CodeGap p) :
    x.identStart .normal p = y.identStart .normal p ∧ x.CodeGap (y.identStart .normal p) := by
  obtain ⟨-, hword, hstops⟩ := h.left.identRun_spec (m := .normal) x.text.isBoundary_zero hp (Nat.zero_le p)
  rw [Lexed.identStart, Lexed.identStart, (h.word hword).identRun (Nat.zero_le _)]
  generalize x.identRun .normal 0 p = e at hword hstops
  have hgap : x.CodeGap e := by
    rcases Nat.lt_or_eq_of_le hword.le with hlt | rfl
    · obtain ⟨c, hc, -⟩ := hword.first hlt
      exact h.left.codeGap_of_code hc
    · exact hp
  rw [h.right.identRun_stops (h.codeGap hgap) (h.stops hstops) (Nat.zero_le e)]
  exact ⟨rfl, hgap⟩

theorem leadingPiece (h : SameCode x y) (hp : x.CodeGap p) (hq : x.leadingPiece? 0 p = some q) :
    y.leadingPiece? 0 p = some q ∧ x.CodeGap q := by
  obtain ⟨u, hu, ⟨hkind, rfl⟩ | ⟨hkind, a, ha, hident, hat, rfl⟩⟩ := leadingPiece_eq_some.mp hq
  · have hu' := h.piece_zero hp hu (by rcases hkind with hkind | hkind | hkind <;> simp [hkind])
    exact ⟨leadingPiece_eq_some.mpr ⟨u, hu', .inl ⟨hkind, rfl⟩⟩, h.codeGap_piece hp hu⟩
  · have hgap := h.codeGap_piece hp hu
    have hu' := h.piece_zero hp hu (by simp [hkind])
    have ha' := h.piece_zero hgap ha (by simp [hident])
    have hat' : y.text.charAt a.start = some '@' := by
      have hlast := h.last_piece hgap ha
      cases hlast with
      | ident word nonempty above stops trivia =>
        obtain ⟨c, hc, -⟩ := word.first nonempty
        rw [(h.codeChar hc).char, ← hc.char, hat]
      | group | punct | literal => simp at hident
    exact ⟨leadingPiece_eq_some.mpr ⟨u, hu', .inr ⟨hkind, a, ha', hident, hat', rfl⟩⟩,
      h.codeGap_piece hgap ha⟩

theorem extendBack (h : SameCode x y) (hp : x.CodeGap p) : x.extendBack 0 p = y.extendBack 0 p := by
  induction p using Nat.strongRecOn with
  | ind p ih =>
    cases hq : x.leadingPiece? 0 p with
    | some q =>
      obtain ⟨hq', hgap⟩ := h.leadingPiece hp hq
      rw [extendBack_of_leadingPiece hq, extendBack_of_leadingPiece hq', ih q (leadingPiece_lt hq) hgap]
    | none =>
      have hnone : y.leadingPiece? 0 p = none := by
        cases hq' : y.leadingPiece? 0 p with
        | none => rfl
        | some q => simp [(h.symm.leadingPiece (h.codeGap hp) hq').1] at hq
      rw [extendBack_of_none hq, extendBack_of_none hnone]

theorem declarationStart (h : SameCode x y) (hp : x.CodeGap p) :
    x.declarationStart p 0 = y.declarationStart p 0 := by
  obtain ⟨hident, hgap⟩ := h.identStart hp
  rw [declarationStart_eq h.left hp, declarationStart_eq h.right (h.codeGap hp), hident,
    h.extendBack hgap]

theorem array (h : SameCode x y) (cfg : ScopeConfig) (hb : x.CodeGap b)
    (hd : Detect.array cfg x b = some d) : Detect.array cfg y b = some d := by
  obtain ⟨skipped, q, hstep, hany, rfl⟩ := Detect.array_eq_some.mp hd
  obtain ⟨c, hc⟩ : ∃ c, skipped.closingChar = some c := by
    cases hc : skipped.closingChar with
    | none => simp [hc] at hany
    | some c => exact ⟨c, rfl⟩
  obtain ⟨a, ha, solid, htrivia⟩ := h.left.code_of_stepBack hb hstep hc
  obtain ⟨skipped', q', hstep', hc'⟩ := h.right.stepBack_closing (h.codeGap hb) (h.codeChar ha) solid
    (h.next ha ▸ h.trivia htrivia)
  rw [hc, ← hc'] at hany
  exact Detect.array_eq_some.mpr ⟨skipped', q', hstep', hany, rfl⟩

theorem typeNameBefore (h : SameCode x y) (hp : x.CodeGap p) (hkind : u.kind = .ident)
    (hu : Detect.typeNameBefore? x p = some u) :
    Detect.typeNameBefore? y p = some u ∧ x.CodeGap u.start ∧
      x.text.word u.start u.stop = y.text.word u.start u.stop := by
  obtain ⟨v, hv, ⟨hgroup, hu⟩ | ⟨hgroup, rfl⟩⟩ := Detect.typeNameBefore_eq_some.mp hu
  · have hgap := h.codeGap_piece hp hv
    have hv' := h.piece_zero hp hv (by simp [hgroup])
    have hu' := h.piece_zero hgap hu (by simp [hkind])
    exact ⟨Detect.typeNameBefore_eq_some.mpr ⟨v, hv', .inl ⟨hgroup, hu'⟩⟩, h.codeGap_piece hgap hu,
      h.word_piece hgap hu hkind⟩
  · have hv' := h.piece_zero hp hv (by simp [hkind])
    exact ⟨Detect.typeNameBefore_eq_some.mpr ⟨v, hv', .inr ⟨hgroup, rfl⟩⟩, h.codeGap_piece hp hv,
      h.word_piece hp hv hkind⟩

theorem anonClass (h : SameCode x y) (cfg : ScopeConfig) (hb : x.CodeGap b)
    (hd : Detect.anonClass cfg x b = some d) : Detect.anonClass cfg y b = some d := by
  obtain ⟨args, ty, new, hargs, hkind, hty, hident, hnew, hword, rfl⟩ := Detect.anonClass_eq_some.mp hd
  obtain ⟨hty', hgap, hname⟩ := h.typeNameBefore (h.codeGap_piece hb hargs) hident hty
  have hnewident : new.kind = .ident := by
    simp only [isWord, Bool.and_eq_true, beq_iff_eq] at hword
    exact hword.1
  have hword' : y.isWord new "new" = true := by
    rw [isWord, ← h.slice_piece hgap hnew hnewident]
    exact hword
  rw [hname]
  exact Detect.anonClass_eq_some.mpr ⟨args, ty, new, h.piece_zero hb hargs (by simp [hkind]), hkind, hty',
    hident, h.piece_zero hgap hnew (by simp [hnewident]), hword', rfl⟩

theorem simpleStatement (h : SameCode x y) (cfg : ScopeConfig) (hb : x.CodeGap b)
    (hd : Detect.simpleStatement cfg x b = some d) : Detect.simpleStatement cfg y b = some d := by
  obtain ⟨u, hu, ⟨hkind, harrow, rfl⟩ | ⟨hkind, hword, rfl⟩⟩ := Detect.simpleStatement_eq_some.mp hd
  · have hu' := h.piece_zero hb hu (by simp [hkind])
    have hlast := h.last_piece hb hu
    have hgap := h.codeGap_piece hb hu
    refine Detect.simpleStatement_eq_some.mpr ⟨u, hu', .inl ⟨hkind, ?_, rfl⟩⟩
    cases hlast with
    | punct char solid closer ident above trivia =>
      rw [← h.charBefore_any hgap (· == '-') ?_ (.inl ⟨_, char, solid⟩)]
      · exact harrow
      · rintro c (rfl | rfl | rfl) <;> rfl
    | group | ident | literal => simp at hkind
  · have hu' := h.piece_zero hb hu (by simp [hkind])
    rw [h.word_piece hb hu hkind] at hword ⊢
    exact Detect.simpleStatement_eq_some.mpr ⟨u, hu', .inr ⟨hkind, hword, rfl⟩⟩

theorem headerEnd (h : SameCode x y) (hstop : x.CodeGap stop) (hle : bound ≤ stop) :
    Detect.headerEnd x bound stop = Detect.headerEnd y bound stop ∧
      x.CodeGap (Detect.headerEnd y bound stop) ∧ bound ≤ Detect.headerEnd y bound stop := by
  induction stop using Nat.strongRecOn with
  | ind stop ih =>
    unfold Detect.headerEnd
    rw [h.clauseBefore Pattern.solid_typeClause hstop]
    cases hk : y.clauseBefore? .typeClause stop bound with
    | none => exact ⟨rfl, hstop, hle⟩
    | some k =>
      rw [← h.clauseBefore Pattern.solid_typeClause hstop] at hk
      obtain ⟨hbk, hstart, -, -⟩ := h.codeGap_clauseBefore Pattern.solid_typeClause hstop hk
      simp only
      split
      next hlt => exact ih k.start hlt hstart hbk
      next => exact ⟨rfl, hstop, hle⟩

theorem bodyStart (h : SameCode x y) (hp : p ≤ x.text.size) : x.bodyStart p = y.bodyStart p := by
  rw [Lexed.bodyStart, Lexed.bodyStart, h.left.enclosing_eq hp, h.right.enclosing_eq (h.size ▸ hp),
    h.events]

theorem typeKeyword (h : SameCode x y) (hb : x.CodeGap b) (hk : Detect.typeKeyword? x b = some k) :
    Detect.typeKeyword? y b = some k ∧ x.CodeGap k.start ∧ x.CodeGap k.stop ∧ k.stop ≤ b ∧
      x.text.word k.start k.stop = y.text.word k.start k.stop := by
  obtain ⟨hk, hdot⟩ := Detect.typeKeyword_eq_some.mp hk
  have hsize := Text.isBoundary_le_size hb.boundary
  obtain ⟨hstart, hstop, hle⟩ := h.codeGap_searchBack Pattern.solid_typeKeyword hb hk
  obtain ⟨-, hmatch, -⟩ := (searchBack_eq_some Pattern.solid_typeKeyword).mp hk
  obtain ⟨w, hw, hchars⟩ := h.left.codeChars_of_match Pattern.solid_typeKeyword hmatch
  obtain ⟨hne, hword⟩ := Pattern.solid_typeKeyword w hw
  refine ⟨Detect.typeKeyword_eq_some.mpr ⟨?_, ?_⟩, hstart, hstop, hle, ?_⟩
  · rw [← h.bodyStart hsize, ← h.searchBack Pattern.solid_declarationBoundary hb,
      ← h.searchBack Pattern.solid_typeKeyword hb]
    exact hk
  · obtain ⟨c, hc, hcode⟩ := hchars.first hne
    have solid : isBlank c = false := by
      refine Bool.eq_false_iff.mpr fun hblank => ?_
      simpa [isWordChar_of_isBlank hblank] using (hword c hc).1
    rw [← h.charBefore_any hstart (· == '.') ?_ (.inl ⟨c, hcode, solid⟩)]
    · exact hdot
    · rintro c (rfl | rfl | rfl) <;> rfl
  · rw [Text.word, Text.word, hchars.slice hstart, (h.codeChars hchars).slice (h.codeGap hstart)]

theorem classLike (h : SameCode x y) (cfg : ScopeConfig) (hb : x.CodeGap b)
    (hd : Detect.classLike cfg x b = some d) :
    ∃ e, Detect.classLike cfg y b = some e ∧ SameDetection x y d e := by
  obtain ⟨k, arg, hk, hargs, hname, rfl⟩ := Detect.classLike_eq_some.mp hd
  obtain ⟨hk', hstart, hstop, hle, hword⟩ := h.typeKeyword hb hk
  obtain ⟨hend, hgap, hbound⟩ := h.headerEnd hb hle
  rw [hend] at hargs
  obtain ⟨args', hargs', hsame⟩ := h.parse hstop hgap hbound hargs
  obtain ⟨arg', rest, harg, hrest, rfl⟩ := List.forall₂_cons_left_iff.mp hsame
  cases hrest
  obtain ⟨c, solid, hc, hc'⟩ := harg.first
  have hname' : Detect.bareName arg'.ty ≠ "" := by
    rw [ne_eq, bareName_eq_empty hc' solid, ← bareName_eq_empty hc solid]
    exact hname
  refine ⟨_, Detect.classLike_eq_some.mpr ⟨k, arg', hk', hargs', hname', rfl⟩, ?_, ?_, fun hl => ?_⟩
  · rw [hword]
  · rw [h.declarationStart hstart]
  · rw [harg.text hl]

/-- The inside of parentheses begins and ends between characters of code. -/
theorem codeGap_inside (h : SameCode x y) (hlast : x.Last .normal 0 p (some u))
    (hkind : u.kind = .group '(') :
    x.CodeGap (u.start + 1) ∧ x.CodeGap (u.stop - 1) ∧ u.start + 1 ≤ u.stop - 1 := by
  cases hlast with
  | group char closer opener partner trivia =>
    cases hkind
    obtain ⟨a, pair⟩ := Option.isSome_iff_exists.mp (Mode.normal.isCloser_eq _ closer)
    have hlt := (of_groupStart partner).2
    have hopen := h.left.codeGap_next opener
    rw [Text.next_of_charAt opener.char] at hopen
    rw [char.next_closer pair, Nat.add_sub_cancel]
    exact ⟨hopen, h.left.codeGap_of_code char, hlt⟩
  | ident | punct | literal => simp at hkind

theorem params (h : SameCode x y) {throwing : Bool} (hb : x.CodeGap b)
    (hu : Detect.params? x b = some (u, throwing)) :
    Detect.params? y b = some (u, throwing) ∧
      ∃ p, x.CodeGap p ∧ x.pieceBefore? .normal p 0 = some u ∧ u.kind = .group '(' := by
  obtain ⟨v, hv, hcases⟩ := Detect.params_eq_some.mp hu
  rcases hcases with ⟨hkind, rfl, rfl⟩ | ⟨hkind, hthrows, rfl⟩
  · have hv' := h.piece_zero hb hv (by simp [hkind])
    exact ⟨Detect.params_eq_some.mpr ⟨v, hv', .inl ⟨hkind, rfl, rfl⟩⟩, b, hb, hv, hkind⟩
  · obtain ⟨paren, keyword, thrown, hparen, hkeyword, hthrown, hne, hparams, hgroup⟩ :=
      Detect.paramsBeforeThrows_eq_some.mp hthrows
    have hsize := Text.isBoundary_le_size hb.boundary
    obtain ⟨-, hstart, hstop, hle⟩ := h.codeGap_clauseBefore Pattern.solid_throwsClause hb hkeyword
    obtain ⟨thrown', hthrown', hsame⟩ := h.parse hstop hb hle hthrown
    have hne' : thrown' ≠ [] := by
      rintro rfl
      cases hsame
      exact hne rfl
    rw [h.bodyStart hsize, h.searchBack Pattern.solid_closeParen hb] at hparen
    rw [h.clauseBefore Pattern.solid_throwsClause hb] at hkeyword
    have hthrows' := Detect.paramsBeforeThrows_eq_some.mpr ⟨paren, keyword, thrown', hparen, hkeyword,
      hthrown', hne', h.piece_zero hstart hparams (by simp [hgroup]), hgroup⟩
    obtain ⟨v', hv', hkind'⟩ : ∃ v', y.pieceBefore? .normal b 0 = some v' ∧ v'.kind ≠ .group '(' := by
      have halike := h.pieceBefore (m := .normal) h.left.codeGap_zero hb (Nat.zero_le b)
      rw [hv] at halike
      generalize y.pieceBefore? .normal b 0 = o at halike
      cases halike with
      | some halike =>
        rcases halike with rfl | ⟨-, hlit, -⟩
        · exact ⟨_, rfl, hkind⟩
        · exact ⟨_, rfl, by simp [hlit]⟩
    exact ⟨Detect.params_eq_some.mpr ⟨v', hv', .inr ⟨hkind', hthrows', rfl⟩⟩, keyword.start, hstart,
      hparams, hgroup⟩

theorem methodOrStatement (h : SameCode x y) (cfg : ScopeConfig) (hb : x.CodeGap b)
    (hd : Detect.methodOrStatement cfg x b = some d) :
    ∃ e, Detect.methodOrStatement cfg y b = some e ∧ SameDetection x y d e := by
  obtain ⟨u, throwing, ident, hparams, hident, hkind, hcases⟩ := Detect.methodOrStatement_eq_some.mp hd
  obtain ⟨hparams', p, hp, hu, hgroup⟩ := h.params hb hparams
  have hgap := h.codeGap_piece hp hu
  have hident' := h.piece_zero hgap hident (by simp [hkind])
  rw [h.word_piece hgap hident hkind] at hcases
  rcases hcases with ⟨hstatement, rfl⟩ | ⟨hstatement, args, hargs, rfl⟩
  · exact ⟨_, Detect.methodOrStatement_eq_some.mpr
      ⟨u, throwing, ident, hparams', hident', hkind, .inl ⟨hstatement, rfl⟩⟩, rfl, rfl, fun _ => rfl⟩
  · obtain ⟨hopen, hclose, hle⟩ := h.codeGap_inside (h.last_piece hp hu) hgroup
    obtain ⟨args', hargs', hsame⟩ := h.parse hopen hclose hle hargs
    refine ⟨_, Detect.methodOrStatement_eq_some.mpr ⟨u, throwing, ident, hparams', hident', hkind,
      .inr ⟨hstatement, args', hargs', rfl⟩⟩, rfl, ?_, fun hl => ?_⟩
    · rw [h.declarationStart (h.codeGap_piece hgap hident)]
    · rw [map_ty_of_same hsame hl]

theorem detect_standard (h : SameCode x y) (cfg : ScopeConfig) (hb : x.CodeGap b) :
    ∀ a ∈ Detector.standard, ∀ d, a.detect cfg x b = some d →
      ∃ e, a.detect cfg y b = some e ∧ SameDetection x y d e := by
  have same : ∀ {d : Detection}, SameDetection x y d d := ⟨rfl, rfl, fun _ => rfl⟩
  intro a ha d hd
  simp only [Detector.standard, List.mem_cons, List.not_mem_nil, or_false] at ha
  rcases ha with rfl | rfl | rfl | rfl | rfl
  · exact ⟨d, h.array cfg hb hd, same⟩
  · exact ⟨d, h.anonClass cfg hb hd, same⟩
  · exact h.classLike cfg hb hd
  · exact ⟨d, h.simpleStatement cfg hb hd, same⟩
  · exact h.methodOrStatement cfg hb hd

/-- The same detector accepts a brace in both texts, or none does in either. -/
theorem firstAccepting_standard (h : SameCode x y) (cfg : ScopeConfig) (hb : x.CodeGap b) :
    Option.Rel (fun f g : String × Detection => f.1 = g.1 ∧ SameDetection x y f.2 g.2)
      (firstAccepting? Detector.standard cfg x b) (firstAccepting? Detector.standard cfg y b) := by
  have left := h.detect_standard cfg hb
  have right := h.symm.detect_standard cfg (h.codeGap hb)
  unfold firstAccepting?
  generalize Detector.standard = chain at left right
  induction chain with
  | nil => exact .none
  | cons a chain ih =>
    obtain ⟨hleft, left⟩ := List.forall_mem_cons.mp left
    obtain ⟨hright, right⟩ := List.forall_mem_cons.mp right
    rw [List.findSome?_cons, List.findSome?_cons]
    cases hd : a.detect cfg x b with
    | some d =>
      obtain ⟨e, he, hsame⟩ := hleft d hd
      rw [he]
      exact .some ⟨rfl, hsame⟩
    | none =>
      have hnone : a.detect cfg y b = none := by
        cases he : a.detect cfg y b with
        | none => rfl
        | some e =>
          obtain ⟨d, hd', -⟩ := hright e he
          simp [hd] at hd'
      rw [hnone]
      exact ih left right

end SameCode

end Lexed

end BraceScopes
