import BraceScopes.Proofs.Detect.Cases
import BraceScopes.Proofs.Scan.Lane
import BraceScopes.Proofs.Scan.Level
import BraceScopes.Proofs.Session.Structure
import BraceScopes.Proofs.Store.Links
/-!
Declarations are well nested: a declaration begins with a character of code, on the level of the brace
or semicolon that ends it. So it begins inside the scope that holds it, however broken the text is.
-/
namespace BraceScopes

open BraceScopes.Lex

namespace Lexed

/-- Code from `start` leads to `stop` on one level. -/
structure LeadsTo (ix : Lexed) (start stop : Nat) : Prop where
  lt : start < stop
  code : ∃ c, ix.CodeChar start c
  level : ix.SameLevel start stop

variable {ix : Lexed} {m : Mode} {bound limit p q k stop : Nat} {u : Piece} {d : Detection}
  {cfg : ScopeConfig} {ws : List (List Char)} {w : Span}

theorem LeadsTo.trans (h : ix.LeadsTo p k) (h' : ix.LeadsTo k q) : ix.LeadsTo p q :=
  ⟨Nat.lt_trans h.lt h'.lt, h.code, h.level.trans h'.level⟩

theorem LeadsTo.extend (h : ix.LeadsTo p k) (hle : k ≤ q) (hlevel : ix.SameLevel k q) : ix.LeadsTo p q :=
  ⟨Nat.lt_of_lt_of_le h.lt hle, h.code, h.level.trans hlevel⟩

theorem LeadsTo.codeGap (h : ix.LeadsTo p q) (hix : ix.IsJava) : ix.CodeGap p := by
  obtain ⟨c, hc⟩ := h.code
  exact hix.codeGap_of_code hc

theorem LeadsTo.enclosing {t : Text} (h : (Lexed.ofText t .java).LeadsTo p q) (hq : q ≤ t.size) :
    (BraceScopes.classify t .java p).enclosing = (BraceScopes.classify t .java q).enclosing := by
  have hlt := h.lt
  have hlevel := h.level
  rw [SameLevel, ofText_text] at hlevel
  rw [enclosing_of_le (Nat.le_trans (Nat.le_of_lt hlt) hq), enclosing_of_le hq, hlevel]

namespace IsJava

variable (hix : ix.IsJava)

include hix

theorem leadsTo_piece (hp : ix.CodeGap p) (hu : ix.pieceBefore? m p 0 = some u)
    (hkind : u.kind = .ident ∨ ∃ a, u.kind = .group a) : ix.LeadsTo u.start p := by
  have hlast := hix.pieceBefore_spec (m := m) hix.codeGap_zero hp (Nat.zero_le p)
  rw [hu] at hlast
  have hlevel := hix.sameLevel_last hlast fun c hc => by simp [hc] at hkind
  refine ⟨pieceBefore_lt hu, ?_, hlevel⟩
  cases hlast with
  | group char closer opener partner trivia => exact ⟨_, opener⟩
  | ident word nonempty above stops trivia =>
    obtain ⟨c, hc, -⟩ := word.first nonempty
    exact ⟨c, hc⟩
  | punct | literal => simp at hkind

/-- A piece before code that leads to `stop` leads there too. -/
theorem leadsTo_pieceBefore (h : ix.LeadsTo p stop) (hu : ix.pieceBefore? m p 0 = some u)
    (hkind : u.kind = .ident ∨ ∃ a, u.kind = .group a) : ix.LeadsTo u.start stop :=
  (hix.leadsTo_piece (h.codeGap hix) hu hkind).trans h

theorem leadsTo_leadingPiece (hp : ix.CodeGap p) (hq : ix.leadingPiece? 0 p = some q) :
    ix.LeadsTo q p := by
  obtain ⟨u, hu, ⟨hkind, rfl⟩ | ⟨hkind, a, ha, hident, -, rfl⟩⟩ := leadingPiece_eq_some.mp hq
  · refine hix.leadsTo_piece hp hu (hkind.imp_right ?_)
    rintro (hkind | hkind)
    · exact ⟨_, hkind⟩
    · exact ⟨_, hkind⟩
  · have hgroup := hix.leadsTo_piece hp hu (.inr ⟨_, hkind⟩)
    exact hix.leadsTo_pieceBefore hgroup ha (.inl hident)

/-- Taking in what belongs to a declaration before its name does not leave its level. -/
theorem leadsTo_extendBack (h : ix.LeadsTo p stop) : ix.LeadsTo (ix.extendBack 0 p) stop := by
  induction p using Nat.strongRecOn with
  | ind p ih =>
    cases hq : ix.leadingPiece? 0 p with
    | none =>
      rw [extendBack_of_none hq]
      exact h
    | some q =>
      have hlead := hix.leadsTo_leadingPiece (h.codeGap hix) hq
      rw [extendBack_of_leadingPiece hq]
      exact ih q hlead.lt (hlead.trans h)

theorem leadsTo_declarationStart (h : ix.LeadsTo p stop) :
    ix.LeadsTo (ix.declarationStart p 0) stop := by
  have hp := h.codeGap hix
  rw [declarationStart_eq hix hp]
  apply hix.leadsTo_extendBack
  obtain ⟨-, hword, -⟩ := hix.identRun_spec (m := .normal) ix.text.isBoundary_zero hp (Nat.zero_le p)
  change ix.Word .normal (ix.identStart .normal p) p at hword
  rcases Nat.lt_or_eq_of_le hword.le with hlt | heq
  · obtain ⟨d, hd, -⟩ := hword.first hlt
    have hlevel := hix.sameLevel_balanced (hword.balanced hix)
    exact LeadsTo.trans ⟨hlt, ⟨d, hd⟩, hlevel⟩ h
  · rw [heq]
    exact h

/-- A word that is found stands on one level. -/
theorem leadsTo_match (sol : (Pattern.words ws).Solid) (h : ix.CodeMatch (.words ws) limit w) :
    ix.LeadsTo w.start w.stop ∧ ix.CodeGap w.stop := by
  obtain ⟨cs, hcs, hchars⟩ := hix.codeChars_of_match sol h
  obtain ⟨hne, hword⟩ := sol cs hcs
  obtain ⟨c, -, hc⟩ := hchars.first hne
  have hplain : ∀ c ∈ cs, IsPlain c := fun c hc =>
    isPlain_of_class (f := isWordChar) (by decide) (hword c hc).1
  have hlevel := hix.sameLevel_balanced (hchars.balanced hplain)
  exact ⟨⟨hchars.lt hne, ⟨c, hc⟩, hlevel⟩, hix.codeGap_codeChars hchars (hix.codeGap_of_code hc)⟩

theorem leadsTo_clause (sol : (Pattern.words ws).Solid) (hstop : ix.CodeGap stop)
    (h : ix.clauseBefore? (.words ws) stop bound = some w) :
    bound ≤ w.start ∧ ix.LeadsTo w.start stop := by
  obtain ⟨hbound, hmatch, hskips, -⟩ := (clauseBefore_eq_some sol).mp h
  obtain ⟨hword, hgap⟩ := hix.leadsTo_match sol hmatch
  have hle := (hmatch.bounds sol).2
  exact ⟨hbound, hword.extend hle (hix.sameLevel_skipsForwardTo hstop hgap hle hskips)⟩

/-- Taking the clauses off a type header does not leave its level. -/
theorem headerEnd_spec (hstop : ix.CodeGap stop) (hle : bound ≤ stop) :
    ix.CodeGap (Detect.headerEnd ix bound stop) ∧ bound ≤ Detect.headerEnd ix bound stop ∧
      Detect.headerEnd ix bound stop ≤ stop ∧ ix.SameLevel (Detect.headerEnd ix bound stop) stop := by
  induction stop using Nat.strongRecOn with
  | ind stop ih =>
    unfold Detect.headerEnd
    cases hw : ix.clauseBefore? .typeClause stop bound with
    | none => exact ⟨hstop, hle, Nat.le_refl stop, rfl⟩
    | some w =>
      obtain ⟨hbound, hlead⟩ := hix.leadsTo_clause Pattern.solid_typeClause hstop hw
      have hlt := hlead.lt
      obtain ⟨hgap, hge, hend, hlevel⟩ := ih w.start hlt (hlead.codeGap hix) hbound
      simp only [hlt, ↓reduceIte]
      exact ⟨hgap, hge, by omega, hlevel.trans hlead.level⟩

theorem leadsTo_anonClass (hp : ix.CodeGap p) (h : Detect.anonClass cfg ix p = some d) :
    ∃ start, d.start = some start ∧ ix.LeadsTo start p := by
  obtain ⟨args, ty, new, hargs, hkind, hty, hident, hnew, hword, rfl⟩ := Detect.anonClass_eq_some.mp h
  have hlead := hix.leadsTo_piece hp hargs (.inr ⟨_, hkind⟩)
  have hname : ix.LeadsTo ty.start p := by
    obtain ⟨v, hv, ⟨hgroup, hty⟩ | ⟨-, rfl⟩⟩ := Detect.typeNameBefore_eq_some.mp hty
    · have harguments := hix.leadsTo_pieceBefore hlead hv (.inr ⟨_, hgroup⟩)
      exact hix.leadsTo_pieceBefore harguments hty (.inl hident)
    · exact hix.leadsTo_pieceBefore hlead hv (.inl hident)
  simp only [isWord, Bool.and_eq_true, beq_iff_eq] at hword
  exact ⟨_, rfl, hix.leadsTo_pieceBefore hname hnew (.inl hword.1)⟩

theorem leadsTo_classLike (hp : ix.CodeGap p) (h : Detect.classLike cfg ix p = some d) :
    ∃ start, d.start = some start ∧ ix.LeadsTo start p := by
  obtain ⟨keyword, arg, hkeyword, hargs, -, rfl⟩ := Detect.classLike_eq_some.mp h
  obtain ⟨-, hmatch, -⟩ :=
    (searchBack_eq_some Pattern.solid_typeKeyword).mp (Detect.typeKeyword_eq_some.mp hkeyword).1
  obtain ⟨hword, hgap⟩ := hix.leadsTo_match Pattern.solid_typeKeyword hmatch
  have hle := (hmatch.bounds Pattern.solid_typeKeyword).2
  obtain ⟨hend, hge, hstop, hclauses⟩ := hix.headerEnd_spec hp hle
  have hname := hix.sameLevel_parse hgap hend hge hargs
  exact ⟨_, rfl, hix.leadsTo_declarationStart (hword.extend hle (hname.trans hclauses))⟩

/-- A comment or literal that ends right before code ends with its delimiter, so any other character
there is code. -/
theorem codeChar_before {c d : Char} (hc : ix.CodeChar p c) (solid : isBlank c = false)
    (h : ix.text.charBefore p = some (k, d)) (hd : ¬ IsDelimiter d) :
    ix.CodeChar k d ∧ ix.text.next k = p := by
  have hgap := hix.codeGap_of_code hc
  obtain ⟨hat, hnext⟩ := (Text.charBefore_eq_some hgap.boundary).mp h
  refine ⟨⟨hat, Option.eq_none_iff_forall_ne_some.mpr fun r hr => ?_⟩, hnext⟩
  have hlt := Text.charBefore_lt h
  obtain ⟨hstart, hstop⟩ := of_regionAtChar hr
  have hle := Text.next_le_of_isBoundary hat hstop (hix.delimited hr).isBoundary_stop
  have hend : ix.text.next k = r.stop := by
    have := hix.codeGap_outside hgap hr
    omega
  exact hd (hix.isDelimiter_last hat hr hend (by rw [← hend, hnext, hc.char]) solid)

theorem leadsTo_simpleStatement (hp : ix.CodeGap p) (h : Detect.simpleStatement cfg ix p = some d) :
    ∃ start, d.start = some start ∧ ix.LeadsTo start p := by
  obtain ⟨u, hu, ⟨hkind, harrow, rfl⟩ | ⟨hkind, -, rfl⟩⟩ := Detect.simpleStatement_eq_some.mp h
  · have hlast := hix.pieceBefore_spec (m := .normal) hix.codeGap_zero hp (Nat.zero_le p)
    rw [hu] at hlast
    have hlevel := hix.sameLevel_last hlast fun c hc => by
      rw [hkind] at hc
      cases hc
      rfl
    -- A lambda begins with the dash of its arrow, which stands before the piece.
    obtain ⟨a, hdash⟩ : ∃ a, ix.text.charBefore u.start = some (a, '-') := by
      cases hbefore : ix.text.charBefore u.start with
      | none => simp [hbefore] at harrow
      | some x => exact ⟨x.1, by simpa [hbefore, Prod.ext_iff] using harrow⟩
    cases hlast with
    | @punct k c char solid closer ident above trivia =>
      have hlt : k < p := pieceBefore_lt hu
      obtain ⟨hcode, hnext⟩ := hix.codeChar_before char solid hdash (by simp [IsDelimiter])
      have harrow := hix.sameLevel_balanced (.char hcode (by decide) (.nil _))
      have hwidth : ix.text.next a = a + 1 := Text.next_of_charAt hcode.char
      have hstart : k - 1 = a := by omega
      rw [hnext] at harrow
      exact ⟨a, by rw [hstart], by omega, ⟨'-', hcode⟩, harrow.trans hlevel⟩
    | group | ident | literal => simp at hkind
  · exact ⟨_, rfl, hix.leadsTo_piece hp hu (.inl hkind)⟩

theorem leadsTo_params {throwing : Bool} (hp : ix.CodeGap p)
    (h : Detect.params? ix p = some (u, throwing)) : ix.LeadsTo u.start p := by
  obtain ⟨v, hv, ⟨hkind, rfl, -⟩ | ⟨-, hthrows, -⟩⟩ := Detect.params_eq_some.mp h
  · exact hix.leadsTo_piece hp hv (.inr ⟨_, hkind⟩)
  · obtain ⟨paren, keyword, thrown, -, hkeyword, -, -, hparams, hgroup⟩ :=
      Detect.paramsBeforeThrows_eq_some.mp hthrows
    obtain ⟨-, hclause⟩ := hix.leadsTo_clause Pattern.solid_throwsClause hp hkeyword
    exact hix.leadsTo_pieceBefore hclause hparams (.inr ⟨_, hgroup⟩)

/-- A method or statement begins on the level of the brace or semicolon that ends its header. -/
theorem leadsTo_methodOrStatement (hp : ix.CodeGap p)
    (h : Detect.methodOrStatement cfg ix p = some d) :
    ∃ start, d.start = some start ∧ ix.LeadsTo start p := by
  obtain ⟨params, throwing, ident, hparams, hident, hkind, hcases⟩ :=
    Detect.methodOrStatement_eq_some.mp h
  have hname := hix.leadsTo_pieceBefore (hix.leadsTo_params hp hparams) hident (.inl hkind)
  rcases hcases with ⟨-, rfl⟩ | ⟨-, args, -, rfl⟩
  · exact ⟨_, rfl, hname⟩
  · exact ⟨_, rfl, hix.leadsTo_declarationStart hname⟩

/-- Whatever the usual detectors accept begins on the level of its brace. -/
theorem leadsTo_detect (hp : ix.CodeGap p) (h : detectWith Detector.standard cfg ix p = some d)
    (hstart : d.start = some k) : ix.LeadsTo k p := by
  have found : (∃ start, d.start = some start ∧ ix.LeadsTo start p) → ix.LeadsTo k p := by
    rintro ⟨start, hsome, hlead⟩
    obtain rfl := Option.some.inj (hsome.symm.trans hstart)
    exact hlead
  obtain ⟨a, ha, hd⟩ := exists_of_detectWith h
  simp only [Detector.standard, List.mem_cons, List.not_mem_nil, or_false] at ha
  rcases ha with rfl | rfl | rfl | rfl | rfl
  · obtain ⟨-, -, -, -, rfl⟩ := Detect.array_eq_some.mp hd
    simp at hstart
  · change Detect.anonClass cfg ix p = some d at hd
    exact found (hix.leadsTo_anonClass hp hd)
  · change Detect.classLike cfg ix p = some d at hd
    exact found (hix.leadsTo_classLike hp hd)
  · exact found (hix.leadsTo_simpleStatement hp hd)
  · exact found (hix.leadsTo_methodOrStatement hp hd)

end IsJava

end Lexed

/-- Declarations are well nested. The declaration of a brace that the usual detectors accept begins with
a character of code before the brace, and the same brackets are open there and at the brace; so in the
store of a resolved session, a declaration begins inside the scope that holds it. -/
theorem declarations_nested (t : Text) (cfg : ScopeConfig) :
    (∀ b d start, .opened b ∈ events t .java → t.charAt b = some '{' →
      detectWith Detector.standard cfg (.ofText t .java) b = some d → d.start = some start →
        start < b ∧ (∃ c, (Lexed.ofText t .java).CodeChar start c) ∧
          (classify t .java start).enclosing = (classify t .java b).enclosing) ∧
    ∀ x ∈ (Session.ofText t .java cfg).resolve.store.scopes, ∀ parent start,
      x.parent = some parent → x.start = some start → parent < start ∧ start < x.openBrace := by
  have hix := Lexed.isJava_ofText t
  have leads : ∀ b d start, .opened b ∈ events t .java →
      detectWith Detector.standard cfg (.ofText t .java) b = some d → d.start = some start →
        (Lexed.ofText t .java).LeadsTo start b := by
    intro b d start hopened hd hstart
    obtain ⟨c, hc, -⟩ := hix.mem_opened.mp (by rwa [Lexed.ofText_text])
    exact hix.leadsTo_detect (hix.codeGap_of_code hc) hd hstart
  refine ⟨fun b d start hopened _ hd hstart => ?_, fun x hx parent start hparent hstart => ?_⟩
  · have hlead := leads b d start hopened hd hstart
    have hsize : b < t.size := (step_of_mem hopened).1
    exact ⟨hlead.lt, hlead.code, hlead.enclosing (Nat.le_of_lt hsize)⟩
  · obtain ⟨b, hb⟩ := Store.mem_scopes.mp hx
    have structured := (Session.resolved_new t .java cfg Detector.standard).scopeStructure
    obtain ⟨hopened, -⟩ := structured.brace b _ hb
    obtain ⟨hd, hopen, hnear⟩ := structured.scope b x hb
    have hlead := leads b _ start hopened hd hstart
    have hlevel := hlead.level
    obtain ⟨⟨hin, -⟩, -⟩ := nearestAnnotated_eq_some hopened (hnear.symm.trans hparent)
    rw [Lexed.SameLevel, Lexed.ofText_text] at hlevel
    rw [← hlevel] at hin
    rw [hopen]
    exact ⟨(opened_of_mem_stackBelow hin).2, hlead.lt⟩

/-- A method with an annotation, inside a class that stands in a parenthesis which is never closed. -/
theorem declarations_nested_unclosed :
    let t : Text := .ofString "( class A \x7b @B(1) C<D[]> m(E e) \x7b"
    let method : Scope := ⟨.method, "m(E)", some 12, 32, some 10⟩
    (.opened 32 ∈ events t .java ∧ t.charAt 32 = some '{' ∧
      detectWith Detector.standard {} (.ofText t .java) 32 = some ⟨.method, "m(E)", some 12⟩ ∧
      method ∈ (Session.ofText t .java {}).resolve.store.scopes) ∧
    (classify t .java 12).enclosing = (classify t .java 32).enclosing ∧ 10 < 12 ∧ 12 < 32 := by
  intro t method
  have opened : .opened 32 ∈ events t .java := by decide +kernel
  have brace : t.charAt 32 = some '{' := by decide +kernel
  have found : detectWith Detector.standard {} (.ofText t .java) 32 = some ⟨.method, "m(E)", some 12⟩ := by
    decide +kernel
  have stored : method ∈ (Session.ofText t .java {}).resolve.store.scopes := by decide +kernel
  obtain ⟨nested, links⟩ := declarations_nested t {}
  obtain ⟨-, -, level⟩ := nested 32 _ 12 opened brace found rfl
  exact ⟨⟨opened, brace, found, stored⟩, level, links method stored 10 12 rfl rfl⟩

end BraceScopes
