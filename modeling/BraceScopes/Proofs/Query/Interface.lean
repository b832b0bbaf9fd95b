import BraceScopes.Proofs.Query.Bodyless
import BraceScopes.Proofs.Scan.Heading
/-!
The methods that are reported for the body of an interface: the semicolons of code directly in the body
with a method header before them. A header need not be a member of its own. It is one if only what may
stand before a name stands between its name and the member before; otherwise it is the end of some other
member, such as a call that gives a constant its value.
-/
namespace BraceScopes

open BraceScopes.Lex

namespace Detect

/-- The name of the method whose declaration ends at `stop`. -/
def methodName? (ix : Lexed) (stop : Nat) : Option Piece := do
  let (params, _) ← params? ix stop
  ix.pieceBefore? .normal params.start 0

end Detect

namespace Lexed

/-- The character `c` of code at `a` begins the body of a brace or ends a member before. -/
def MemberMark (ix : Lexed) (brace a : Nat) (c : Char) : Prop :=
  ix.CodeChar a c ∧ (a = brace ∨ c = ';' ∨ c = '}')

/-- Skipping trivia back from `p` leads to the brace of the body, a semicolon or a closing brace. -/
def AfterMember (ix : Lexed) (brace p : Nat) : Prop :=
  ∃ a c, ix.text.charBefore (ix.skipTriviaBack p 0) = some (a, c) ∧ ix.MemberMark brace a c

/-- Nothing but a heading stands between `p` and the brace of the body, a semicolon or a closing brace. -/
def Headed (ix : Lexed) (brace p : Nat) : Prop :=
  ∃ a c us, ix.MemberMark brace a c ∧ ix.Units (ix.text.next a) p us ∧ Heading ix.text us

variable {ix : Lexed} {brace p a stop : Nat} {c : Char} {u : Piece}

theorem MemberMark.memberStart (h : ix.MemberMark brace a c) (hbrace : ix.CodeChar brace '{') :
    ix.MemberStart (ix.text.next a) := by
  obtain ⟨hc, rfl | rfl | rfl⟩ := h
  · obtain rfl := hc.unique hbrace
    exact ⟨_, .nil _, .inr ⟨_, _, hc, rfl, .inl rfl⟩⟩
  · exact ⟨_, .nil _, .inr ⟨_, _, hc, rfl, .inr (.inr rfl)⟩⟩
  · exact ⟨_, .nil _, .inr ⟨_, _, hc, rfl, .inr (.inl rfl)⟩⟩

theorem MemberMark.solid (h : ix.MemberMark brace a c) (hbrace : ix.CodeChar brace '{') :
    isBlank c = false := by
  obtain ⟨hc, rfl | rfl | rfl⟩ := h
  · obtain rfl := hc.unique hbrace
    rfl
  · rfl
  · rfl

namespace IsJava

variable (hix : ix.IsJava)

include hix

/-- What is reached by skipping trivia back, if it is code, has only trivia behind it. -/
theorem trivia_of_skipTriviaBack (hp : ix.CodeGap p)
    (h : ix.text.charBefore (ix.skipTriviaBack p 0) = some (a, c)) (hc : ix.CodeChar a c) :
    ix.Trivia (ix.text.next a) p := by
  rw [skipTriviaBack_codeGap hp] at h
  generalize hq : ix.retreat 0 p = q at h
  have hretreat := hix.retreat_spec hix.codeGap_zero hp (Nat.zero_le p)
  rw [hq] at hretreat
  cases hretreat with
  | bound trivia => simp [Text.charBefore] at h
  | code char solid above trivia =>
    rw [char.charBefore] at h
    cases h
    exact trivia
  | literal region kind above inside before trivia =>
    obtain ⟨b, d, hb, hr⟩ := inside
    rw [hb] at h
    cases h
    simp [hc.code] at hr

/-- A declaration begins right behind another member exactly if nothing but a heading stands between that
member and the place it was read back from. -/
theorem afterMember_extendBack_iff (hbrace : ix.CodeChar brace '{') (hp : ix.CodeGap p) :
    ix.AfterMember brace (ix.extendBack 0 p) ↔ ix.Headed brace p := by
  obtain ⟨us, hus, hheading, hgap⟩ := hix.heading_of_extendBack hp
  constructor
  · rintro ⟨a, c, hbefore, hmark⟩
    have htrivia := hix.trivia_of_skipTriviaBack hgap hbefore hmark.1
    exact ⟨a, c, us, hmark, hus.trivia htrivia, hheading⟩
  · rintro ⟨a, c, vs, hmark, hvs, hheading'⟩
    have htrivia := hix.extendBack_of_heading (hmark.memberStart hbrace) hheading' hvs hp
    have hskip : ix.skipTriviaBack (ix.extendBack 0 p) 0 = ix.text.next a := by
      rw [skipTriviaBack_codeGap hgap, hix.retreat_trivia htrivia (Nat.zero_le _),
        retreat_solid hmark.1 (hmark.solid hbrace) (Nat.zero_le a)]
    exact ⟨a, c, by rw [hskip, hmark.1.charBefore], hmark⟩

/-- A declaration is read back from the start of its name. -/
theorem declarationStart_name (hp : ix.CodeGap p) (h : ix.pieceBefore? .normal p 0 = some u)
    (hu : u.kind = .ident) :
    ix.declarationStart u.start 0 = ix.extendBack 0 u.start ∧ ix.CodeGap u.start := by
  have hlast := hix.pieceBefore_spec (m := .normal) hix.codeGap_zero hp (Nat.zero_le p)
  rw [h] at hlast
  have hgap := hix.codeGap_of_last hlast
  refine ⟨?_, hgap⟩
  cases hlast with
  | ident word nonempty above stops trivia =>
    rw [declarationStart_eq hix hgap, identStart, hix.identRun_stops hgap stops (Nat.zero_le _)]
  | group | punct | literal => cases hu

end IsJava

end Lexed

namespace Session

variable {s : Session} {ix : Lexed} {brace p : Nat} {x : Scope}

theorem bodyless_openBrace (h : s.bodyless? ix brace p = some x) : x.openBrace = p := by
  obtain ⟨d, -, -, rfl⟩ := bodyless_eq_some.mp h
  rfl

theorem codeMatch_semicolon {limit : Nat} {m : Span} : ix.CodeMatch .semicolon limit m ↔
    m.start < limit ∧ ix.CodeChar m.start ';' ∧ m.stop = m.start + 1 := by
  constructor
  · rintro ⟨hfound, hcode⟩
    simp only [Pattern.semicolon, Pattern.matchAt?, Option.ite_none_right_eq_some] at hfound
    obtain ⟨hlt, hfound⟩ := hfound
    obtain ⟨c, hc, hfound⟩ := Option.bind_eq_some_iff.mp hfound
    obtain ⟨hmem, hstop⟩ := Option.ite_none_right_eq_some.mp hfound
    obtain rfl : c = ';' := by simpa using hmem
    exact ⟨hlt, Lexed.codeChar_of_isCode hc hcode, (Option.some.inj hstop).symm⟩
  · rintro ⟨hlt, hc, hstop⟩
    refine ⟨?_, hc.isCode⟩
    simp [Pattern.semicolon, Pattern.matchAt?, hlt, hc.char, hstop, show ';'.utf8Size = 1 from rfl]

/-- The body of a brace holds the code at which the brace is open. -/
theorem lt_bodyEnd (hix : ix.IsJava) {c : Char} (hc : ix.CodeChar p c) (hcloser : openerOf c = none)
    (hopen : brace ∈ stackBelow p (events ix.text .java)) : p < bodyEnd ix brace := by
  have sorted := pairwise_events ix.text .java
  have reads : ix.Reads (events ix.text .java) := by
    have h := Lexed.reads_ofText ix.text .java
    rwa [← hix.eq] at h
  obtain ⟨hopened, hlt⟩ := opened_of_mem_stackBelow hopen
  unfold bodyEnd
  cases hclose : ix.closeOf brace with
  | none => exact Text.lt_size_of_charAt hc.char
  | some k =>
    have hbracket := reads.bracketAt_of_opened sorted hopened
    rw [Lexed.closeOf, hbracket, Option.bind_some] at hclose
    obtain ⟨-, hclosed⟩ := Option.ite_none_right_eq_some.mp hclose
    have hnot : ¬ k < p := by
      intro hkp
      refine (reads.closedBefore_iff sorted hopened hlt).mp ?_ hopen
      rw [Lexed.closedBefore, hbracket, Option.bind_some, hclosed]
      simpa using hkp
    have hmem := ((closerOf_eq_some sorted).mp hclosed).1
    obtain ⟨d, hd, hsome⟩ := hix.mem_closed.mp hmem
    refine Nat.lt_of_le_of_ne (Nat.le_of_not_lt hnot) ?_
    rintro rfl
    obtain rfl := hc.unique hd
    simp [hcloser] at hsome

/-- The methods that are reported for a body end with a semicolon of code directly in it. -/
theorem mem_bodylessIn (hix : ix.IsJava) : x ∈ s.bodylessIn ix brace ↔
    ix.CodeChar x.openBrace ';' ∧ (ix.classify x.openBrace).enclosing.head? = some brace ∧
      s.bodyless? ix brace x.openBrace = some x := by
  simp only [bodylessIn, List.mem_filterMap, List.mem_filter, Lexed.searchForwardAll_eq
    Pattern.solid_semicolon, Lexed.mem_codeMatches Pattern.solid_semicolon, codeMatch_semicolon,
    directlyIn, beq_iff_eq]
  constructor
  · rintro ⟨m, ⟨⟨-, -, hc, -⟩, hdirect⟩, hx⟩
    rw [bodyless_openBrace hx]
    exact ⟨hc, hdirect, hx⟩
  · rintro ⟨hc, hdirect, hx⟩
    have hopen : brace ∈ stackBelow x.openBrace (events ix.text .java) := by
      rw [← hix.enclosing_eq (Nat.le_of_lt (Text.lt_size_of_charAt hc.char))]
      exact List.mem_of_head? hdirect
    have hlt := (opened_of_mem_stackBelow hopen).2
    have hend := lt_bodyEnd hix hc rfl hopen
    exact ⟨⟨x.openBrace, x.openBrace + 1⟩, ⟨⟨hlt, hend, hc, rfl⟩, hdirect⟩, hx⟩

theorem bodylessIn_ascending :
    (s.bodylessIn ix brace).Pairwise fun x y => x.openBrace < y.openBrace := by
  rw [bodylessIn, List.pairwise_filterMap, Lexed.searchForwardAll_eq Pattern.solid_semicolon]
  refine ((Lexed.codeMatches_ascending Pattern.solid_semicolon).filter _).imp ?_
  intro m m' hlt x hx x' hx'
  rw [bodyless_openBrace hx, bodyless_openBrace hx']
  exact hlt

/-- Where a method that is reported has its name, and where its declaration is read back from there. -/
theorem start_of_bodyless (hix : ix.IsJava) (hp : ix.CodeGap p) (h : s.bodyless? ix brace p = some x) :
    ∃ start name, x.start = some start ∧ Detect.methodName? ix p = some name ∧
      start = ix.extendBack 0 name.start ∧ ix.CodeGap name.start ∧ ix.LeadsTo start p := by
  obtain ⟨d, hd, hkind, rfl⟩ := bodyless_eq_some.mp h
  obtain ⟨start, hstart, hlead⟩ := hix.leadsTo_methodOrStatement hp hd
  obtain ⟨params, throwing, name, hparams, hname, hident, ⟨-, rfl⟩ | ⟨-, args, -, rfl⟩⟩ :=
    Detect.methodOrStatement_eq_some.mp hd
  · cases hkind
  · have hgap := (hix.leadsTo_params hp hparams).codeGap hix
    obtain ⟨heq, hgap'⟩ := hix.declarationStart_name hgap hname hident
    have hfound : Detect.methodName? ix p = some name := by
      simp [Detect.methodName?, hparams, hname]
    obtain rfl := Option.some.inj hstart
    exact ⟨_, name, rfl, hfound, heq, hgap', hlead⟩

theorem interfaceAbstractMethods_eq {t : Text} {cfg : ScopeConfig} {owner : Scope}
    (howner : owner ∈ (Session.ofText t .java cfg).resolve.store.scopes)
    (hkind : owner.kind = .interfaceBody) :
    ((Session.ofText t .java cfg).resolve.interfaceAbstractMethods owner).1 =
      (Session.ofText t .java cfg).resolve.bodylessIn (.ofText t .java) owner.openBrace := by
  obtain ⟨-, hbrace⟩ := opened_of_scope howner
  have hchar : (Lexed.ofText t .java).text.charAt owner.openBrace = some '{' := by
    rw [Lexed.ofText_text]
    exact hbrace
  rw [interfaceAbstractMethods, if_neg (not_not.mpr hkind)]
  exact congrArg Prod.fst (if_pos hchar)

end Session

/-- The methods that are reported for an interface are the semicolons of code directly in its body that the
detector reads as the end of a method, in the order of the text and once each. Each begins on the level of
the semicolon, where reading back from its name leads. It is a member of its own, which means that
skipping trivia back from there leads to the brace of the interface, a semicolon or a closing brace, exactly
if nothing but a heading stands between such a place and the name. -/
theorem interfaceAbstractMethods_own_iff (t : Text) (cfg : ScopeConfig) (owner : Scope)
    (howner : owner ∈ (Session.ofText t .java cfg).resolve.store.scopes)
    (hkind : owner.kind = .interfaceBody) :
    let ix := Lexed.ofText t .java
    let s := (Session.ofText t .java cfg).resolve
    let found := (s.interfaceAbstractMethods owner).1
    found.Pairwise (fun x y => x.openBrace < y.openBrace) ∧
    (∀ x, x ∈ found ↔ ix.CodeChar x.openBrace ';' ∧
      (classify t .java x.openBrace).enclosing.head? = some owner.openBrace ∧
        s.bodyless? ix owner.openBrace x.openBrace = some x) ∧
    ∀ x ∈ found, ∃ start name, x.start = some start ∧
      Detect.methodName? ix x.openBrace = some name ∧ start ≤ name.start ∧ start < x.openBrace ∧
      (classify t .java start).enclosing.head? = some owner.openBrace ∧
      (ix.AfterMember owner.openBrace start ↔ ix.Headed owner.openBrace name.start) := by
  intro ix s found
  have hix : ix.IsJava := Lexed.isJava_ofText t
  have hfound : found = s.bodylessIn ix owner.openBrace :=
    Session.interfaceAbstractMethods_eq howner hkind
  have hmem : ∀ x, x ∈ found ↔ ix.CodeChar x.openBrace ';' ∧
      (classify t .java x.openBrace).enclosing.head? = some owner.openBrace ∧
        s.bodyless? ix owner.openBrace x.openBrace = some x := by
    intro x
    rw [hfound, Session.mem_bodylessIn hix, (classify_ofText t .java).1]
  refine ⟨?_, hmem, fun x hx => ?_⟩
  · rw [hfound]
    exact Session.bodylessIn_ascending
  · obtain ⟨hc, hdirect, hbodyless⟩ := (hmem x).mp hx
    obtain ⟨start, name, hstart, hname, heq, hgap, hlead⟩ :=
      Session.start_of_bodyless hix (hix.codeGap_of_code hc) hbodyless
    have hsize : x.openBrace ≤ t.size := by
      have hlt := Text.lt_size_of_charAt hc.char
      rw [Lexed.ofText_text] at hlt
      exact Nat.le_of_lt hlt
    have hbrace : ix.CodeChar owner.openBrace '{' := by
      obtain ⟨hopened, hchar⟩ := Session.opened_of_scope howner
      rw [← Lexed.ofText_text t .java] at hopened hchar
      obtain ⟨c, hcode, -⟩ := hix.mem_opened.mp hopened
      obtain rfl := Option.some.inj (hcode.char.symm.trans hchar)
      exact hcode
    obtain ⟨us, hus, -⟩ := hix.heading_of_extendBack hgap
    refine ⟨start, name, hstart, hname, ?_, hlead.lt, ?_, ?_⟩
    · rw [heq]
      exact (hix.le_of_units hus).1
    · rw [hlead.enclosing hsize]
      exact hdirect
    · rw [heq]
      exact hix.afterMember_extendBack_iff hbrace hgap

/-- The call that gives a constant its value is reported as a method. Before it stands an equals sign. -/
theorem interfaceAbstractMethods_call :
    let t : Text := .ofString "interface I \x7b int X = f(); \x7d"
    let ix := Lexed.ofText t .java
    let owner : Scope := ⟨.interfaceBody, "I", some 0, 12, none⟩
    let call : Scope := ⟨.method, "f()", some 22, 25, some 12⟩
    (owner ∈ (Session.ofText t .java {}).resolve.store.scopes ∧ owner.kind = .interfaceBody) ∧
      ((Session.ofText t .java {}).resolve.interfaceAbstractMethods owner).1 = [call] ∧
      ¬ ix.AfterMember 12 22 ∧ ¬ ix.Headed 12 22 := by
  intro t ix owner call
  have stored : owner ∈ (Session.ofText t .java {}).resolve.store.scopes := by decide +kernel
  have hfound : ((Session.ofText t .java {}).resolve.interfaceAbstractMethods owner).1 = [call] := by
    decide +kernel
  have before : ix.text.charBefore (ix.skipTriviaBack 22 0) = some (20, '=') := by decide +kernel
  have named : Detect.methodName? ix 25 = some ⟨.ident, 22, 23⟩ := by decide +kernel
  have alone : ¬ ix.AfterMember 12 22 := by
    rintro ⟨a, c, hbefore, -, hmark⟩
    rw [before] at hbefore
    cases hbefore
    simp at hmark
  obtain ⟨-, -, methods⟩ := interfaceAbstractMethods_own_iff t {} owner stored rfl
  obtain ⟨start, name, hstart, hname, -, -, -, own⟩ := methods call (by rw [hfound]; simp)
  obtain rfl := Option.some.inj hstart
  obtain rfl := Option.some.inj (named.symm.trans hname)
  exact ⟨⟨stored, rfl⟩, hfound, alone, fun headed => alone (own.mpr headed)⟩

end BraceScopes
