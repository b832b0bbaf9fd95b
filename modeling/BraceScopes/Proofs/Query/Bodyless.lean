import BraceScopes.Proofs.Detect.Nested
import BraceScopes.Proofs.Session.Reachable
/-!
The abstract methods that are reported for the bodies of classes. Every report is a semicolon of code
under the brace of a class, with a declaration that begins on the level of the semicolon. Whether the
reports come in the order of the text, once each and under their own class depends on the text.
-/
namespace BraceScopes

open BraceScopes.Lex

namespace Session

/-- The scopes whose bodies are searched for abstract methods. -/
def abstractOwners (s : Session) : List Scope :=
  s.store.scopes.filter fun scope => scope.kind.isClassLike && scope.kind != .interfaceBody

/-- The keywords that stand directly in the body of a brace. -/
def abstractKeywords (ix : Lexed) (brace : Nat) : List Span :=
  (ix.searchForwardAll .abstractKeyword (brace + 1) (bodyEnd ix brace)).filter fun keyword =>
    directlyIn ix brace keyword.start

/-- The method that is reported for a keyword in the body of a brace. -/
def abstractAfter? (s : Session) (ix : Lexed) (brace : Nat) (keyword : Span) : Option Scope :=
  match ix.searchForward .memberEnd keyword.stop (bodyEnd ix brace) 1 with
  | some found =>
    if ix.text.charAt found.start = some ';' then s.bodyless? ix brace found.start else none
  | none => none

theorem abstractIn_eq (s : Session) (ix : Lexed) (brace : Nat) :
    s.abstractIn ix brace = (abstractKeywords ix brace).filterMap (s.abstractAfter? ix brace) := rfl

/-- What is known of a method that is reported for a keyword: it ends with the first semicolon of code
after the keyword. -/
structure Reported (s : Session) (ix : Lexed) (brace : Nat) (keyword : Span) (x : Scope) : Prop where
  after : keyword.stop ≤ x.openBrace
  semicolon : ix.CodeChar x.openBrace ';'
  first : ∀ p, keyword.stop ≤ p → p < x.openBrace → ¬ ix.CodeChar p ';'
  bodyless : s.bodyless? ix brace x.openBrace = some x

variable {s : Session} {ix : Lexed} {brace p : Nat} {k k' : Span} {x x' : Scope}

theorem bodyless_eq_some : s.bodyless? ix brace p = some x ↔
    ∃ d, Detect.methodOrStatement s.config ix p = some d ∧ d.kind = .method ∧
      x = ⟨.method, d.name, d.start, p, some brace⟩ := by
  unfold bodyless?
  cases Detect.methodOrStatement s.config ix p with
  | none => simp
  | some d => simp [eq_comm]

theorem reported_of_abstractAfter (h : s.abstractAfter? ix brace k = some x) :
    s.Reported ix brace k x := by
  unfold abstractAfter? at h
  split at h
  next m hm =>
    obtain ⟨hsemicolon, hx⟩ := Option.ite_none_right_eq_some.mp h
    obtain ⟨hle, hmatch, hfirst⟩ := Lexed.searchForward_first Pattern.solid_memberEnd hm
    have hend := (hmatch.bounds Pattern.solid_memberEnd).2
    have hstart := (hmatch.bounds Pattern.solid_memberEnd).1
    have hopen : x.openBrace = m.start := by
      obtain ⟨d, -, -, rfl⟩ := bodyless_eq_some.mp hx
      rfl
    rw [← hopen] at hle hx hsemicolon
    refine ⟨hle, Lexed.codeChar_of_isCode hsemicolon (hopen ▸ hmatch.code), fun p hp hlt hc => ?_, hx⟩
    have hfound : Pattern.memberEnd.matchAt? ix.text (bodyEnd ix brace) p = some (p + 1) := by
      have hlimit : p < bodyEnd ix brace := by omega
      simp [Pattern.memberEnd, Pattern.matchAt?, hlimit, hc.char, show ';'.utf8Size = 1 from rfl]
    have hmin : m.start ≤ p := hfirst ⟨p, p + 1⟩ hp ⟨hfound, hc.isCode⟩
    omega
  next => simp at h

theorem keywords_ascending : (abstractKeywords ix brace).Pairwise fun k k' => k.stop < k'.stop := by
  have sol := Pattern.solid_abstractKeyword
  rw [abstractKeywords, Lexed.searchForwardAll_eq sol]
  refine ((Lexed.codeMatches_ascending sol).imp_of_mem fun {k k'} hk hk' hlt => ?_).filter _
  have hmatch := ((Lexed.mem_codeMatches sol).mp hk).2
  have hmatch' := ((Lexed.mem_codeMatches sol).mp hk').2
  exact Nat.lt_of_le_of_lt (sol.separate hmatch.found hmatch'.found hlt) (hmatch'.bounds sol).1

/-- The brace is the innermost bracket around a keyword directly in its body. -/
theorem head_of_keyword (hix : ix.IsJava) (hk : k ∈ abstractKeywords ix brace) :
    (stackBelow k.start (events ix.text .java)).head? = some brace := by
  have sol := Pattern.solid_abstractKeyword
  obtain ⟨hmem, hdirect⟩ := List.mem_filter.mp hk
  rw [Lexed.searchForwardAll_eq sol] at hmem
  obtain ⟨c, hc⟩ := sol.charAt ((Lexed.mem_codeMatches sol).mp hmem).2.found
  rw [← hix.enclosing_eq (Nat.le_of_lt (Text.lt_size_of_charAt hc))]
  simpa [directlyIn] using hdirect

theorem head_iff_sameLevel (hix : ix.IsJava) (hk : k ∈ abstractKeywords ix brace) :
    (stackBelow p (events ix.text .java)).head? = some brace ↔ ix.SameLevel k.start p := by
  have hkeyword := head_of_keyword hix hk
  constructor
  · intro hhead
    rw [Lexed.SameLevel, stackBelow_of_head (pairwise_events ix.text .java) hkeyword,
      stackBelow_of_head (pairwise_events ix.text .java) hhead]
  · intro hlevel
    rw [← hlevel, hkeyword]

namespace Reported

theorem parent (h : s.Reported ix brace k x) : x.parent = some brace := by
  obtain ⟨d, -, -, heq⟩ := bodyless_eq_some.mp h.bodyless
  exact congrArg Scope.parent heq

theorem leadsTo (h : s.Reported ix brace k x) (hix : ix.IsJava) :
    ∃ start, x.start = some start ∧ ix.LeadsTo start x.openBrace := by
  obtain ⟨d, hd, -, heq⟩ := bodyless_eq_some.mp h.bodyless
  obtain ⟨start, hstart, hlead⟩ :=
    hix.leadsTo_methodOrStatement (hix.codeGap_of_code h.semicolon) hd
  exact ⟨start, (congrArg Scope.start heq).trans hstart, hlead⟩

/-- A later keyword does not lead to an earlier semicolon. -/
theorem mono (h : s.Reported ix brace k x) (h' : s.Reported ix brace k' x') (hle : k.stop ≤ k'.stop) :
    x.openBrace ≤ x'.openBrace := by
  have := h'.after
  exact Nat.le_of_not_lt fun hlt => h.first x'.openBrace (by omega) hlt h'.semicolon

theorem unique (h : s.Reported ix brace k x) (h' : s.Reported ix brace k' x')
    (heq : x.openBrace = x'.openBrace) : x = x' := by
  have hx := h.bodyless
  rw [heq, h'.bodyless] at hx
  exact (Option.some.inj hx).symm

end Reported

/-- What a text has to keep to for its abstract methods to be reported in order: between a keyword and its
semicolon no bracket is left open or closed too often, no two keywords share a semicolon, and a class that
holds an abstract method comes after the abstract methods of the classes around it. -/
structure Orderly (s : Session) : Prop where
  closed : ∀ owner ∈ s.abstractOwners, ∀ k ∈ abstractKeywords s.lexed owner.openBrace, ∀ x,
    s.abstractAfter? s.lexed owner.openBrace k = some x → s.lexed.SameLevel k.start x.openBrace
  once : ∀ owner ∈ s.abstractOwners, ∀ k ∈ abstractKeywords s.lexed owner.openBrace,
    ∀ k' ∈ abstractKeywords s.lexed owner.openBrace, ∀ x,
      s.abstractAfter? s.lexed owner.openBrace k = some x →
        s.abstractAfter? s.lexed owner.openBrace k' = some x → k = k'
  outerFirst : ∀ outer ∈ s.abstractOwners, ∀ inner ∈ s.abstractOwners,
    outer.openBrace ∈ (classify s.text s.rules inner.openBrace).enclosing →
      ∀ x ∈ s.abstractIn s.lexed outer.openBrace, ∀ y ∈ s.abstractIn s.lexed inner.openBrace,
        x.openBrace < inner.openBrace

theorem reported_of_mem (h : x ∈ s.abstractIn ix brace) :
    ∃ k ∈ abstractKeywords ix brace, s.abstractAfter? ix brace k = some x ∧ s.Reported ix brace k x := by
  obtain ⟨k, hk, hx⟩ := List.mem_filterMap.mp h
  exact ⟨k, hk, hx, reported_of_abstractAfter hx⟩

/-- The methods of one body come in order, and each is reported as often as keywords lead to it. -/
theorem abstractIn_ascending_iff :
    (s.abstractIn ix brace).Pairwise (fun x y => x.openBrace < y.openBrace) ↔
      ∀ k ∈ abstractKeywords ix brace, ∀ k' ∈ abstractKeywords ix brace, ∀ x,
        s.abstractAfter? ix brace k = some x → s.abstractAfter? ix brace k' = some x → k = k' := by
  rw [abstractIn_eq, List.pairwise_filterMap]
  constructor
  · intro ascending k hk k' hk' x hx hx'
    by_contra hne
    have apart : (abstractKeywords ix brace).Pairwise fun k k' => ∀ x,
        s.abstractAfter? ix brace k = some x → s.abstractAfter? ix brace k' ≠ some x :=
      ascending.imp fun hlt x hx hx' => Nat.lt_irrefl _ (hlt x hx x hx')
    have : Std.Symm fun k k' : Span => ∀ x,
        s.abstractAfter? ix brace k = some x → s.abstractAfter? ix brace k' ≠ some x :=
      ⟨fun k k' h x hx' hx => h x hx hx'⟩
    exact apart.forall hk hk' hne x hx hx'
  · intro once
    refine keywords_ascending.imp_of_mem fun {k k'} hk hk' hlt x hx x' hx' => ?_
    have hreport := reported_of_abstractAfter hx
    have hreport' := reported_of_abstractAfter hx'
    refine Nat.lt_of_le_of_ne (hreport.mono hreport' (Nat.le_of_lt hlt)) fun heq => ?_
    obtain rfl := hreport.unique hreport' heq
    obtain rfl := once k hk k' hk' x hx hx'
    omega

/-- The methods that are reported for a body have its brace as the innermost bracket around them. -/
def Direct (s : Session) (ix : Lexed) (brace : Nat) : Prop :=
  ∀ x ∈ s.abstractIn ix brace, (stackBelow x.openBrace (events ix.text .java)).head? = some brace

theorem direct_iff_sameLevel (hix : ix.IsJava) : s.Direct ix brace ↔
    ∀ k ∈ abstractKeywords ix brace, ∀ x, s.abstractAfter? ix brace k = some x →
      ix.SameLevel k.start x.openBrace := by
  constructor
  · intro direct k hk x hx
    exact (head_iff_sameLevel hix hk).mp (direct x (List.mem_filterMap.mpr ⟨k, hk, hx⟩))
  · intro level x hx
    obtain ⟨k, hk, hx, -⟩ := reported_of_mem hx
    exact (head_iff_sameLevel hix hk).mpr (level k hk x hx)

variable {t : Text} {cfg : ScopeConfig} {outer inner : Scope}

theorem Reported.le_size (h : s.Reported (.ofText t .java) brace k x) : x.openBrace ≤ t.size := by
  have hlt := Text.lt_size_of_charAt h.semicolon.char
  rw [Lexed.ofText_text] at hlt
  exact Nat.le_of_lt hlt

/-- A method that is reported begins before its semicolon, on the same level. -/
theorem Reported.enclosing (h : s.Reported (.ofText t .java) brace k x) :
    ∃ start, x.start = some start ∧ start < x.openBrace ∧
      (classify t .java start).enclosing = (classify t .java x.openBrace).enclosing := by
  obtain ⟨start, hstart, hlead⟩ := h.leadsTo (Lexed.isJava_ofText t)
  exact ⟨start, hstart, hlead.lt, hlead.enclosing h.le_size⟩

theorem direct_iff_enclosing : s.Direct (.ofText t .java) brace ↔
    ∀ x ∈ s.abstractIn (.ofText t .java) brace, ∀ start, x.start = some start →
      (classify t .java x.openBrace).enclosing.head? = x.parent ∧
        (classify t .java start).enclosing.head? = x.parent := by
  rw [Direct, Lexed.ofText_text]
  constructor
  · intro direct x hx start hstart
    obtain ⟨k, -, -, hreport⟩ := reported_of_mem hx
    obtain ⟨start', hstart', -, hlevel⟩ := hreport.enclosing
    obtain rfl := Option.some.inj (hstart.symm.trans hstart')
    rw [hlevel, enclosing_of_le hreport.le_size, hreport.parent]
    exact ⟨direct x hx, direct x hx⟩
  · intro nested x hx
    obtain ⟨k, -, -, hreport⟩ := reported_of_mem hx
    obtain ⟨start, hstart, -, -⟩ := hreport.enclosing
    rw [← enclosing_of_le hreport.le_size, ← hreport.parent]
    exact (nested x hx start hstart).1

/-- A gap directly in a body lies before what is directly in a later body, unless that body lies in the
first one and is over before the gap. -/
theorem lt_iff_before_brace {es : List Event} (sorted : es.Pairwise Event.Before) {p q o o' : Nat}
    (hp : (stackBelow p es).head? = some o) (hq : (stackBelow q es).head? = some o') (hlt : o < o')
    (hne : p ≠ o') : p < q ↔ (o ∈ stackBelow o' es → p < o') := by
  have hin : o ∈ stackBelow p es := List.mem_of_head? hp
  have hin' : o' ∈ stackBelow q es := List.mem_of_head? hq
  have hoq := (opened_of_mem_stackBelow hin').2
  constructor
  · intro hpq _
    -- Between the later brace and `q`, the later brace would be open at `p` and stand further in.
    refine Nat.lt_of_le_of_ne (Nat.le_of_not_lt fun hop => ?_) hne
    have := le_of_head sorted hp (mem_stackBelow_of_lt sorted hin' hop (Nat.le_of_lt hpq))
    omega
  · intro hbefore
    by_cases hopen : o ∈ stackBelow o' es
    · have := hbefore hopen
      omega
    · refine Nat.lt_trans (Nat.lt_of_not_le fun hop => ?_) hoq
      exact hopen (mem_stackBelow_of_lt sorted hin hlt hop)

theorem opened_of_scope (h : x ∈ (Session.ofText t .java cfg).resolve.store.scopes) :
    .opened x.openBrace ∈ events t .java ∧ t.charAt x.openBrace = some '{' := by
  have structured := (resolved_new t .java cfg Detector.standard).scopeStructure
  obtain ⟨b, hb⟩ := Store.mem_scopes.mp h
  obtain ⟨-, hopen, -⟩ := structured.scope b x hb
  rw [hopen]
  exact structured.brace b _ hb

theorem opened_of_owner (h : x ∈ (Session.ofText t .java cfg).resolve.abstractOwners) :
    .opened x.openBrace ∈ events t .java ∧ t.charAt x.openBrace = some '{' :=
  opened_of_scope (List.mem_filter.mp h).1

theorem owners_ascending : (Session.ofText t .java cfg).resolve.abstractOwners.Pairwise
    fun x y => x.openBrace < y.openBrace := by
  have coherent := (Coherent.new t .java cfg Detector.standard).resolve
  exact coherent.linked.scopes_ascending.filter _

/-- Methods directly in two bodies come in the order of the braces, unless the later brace is that of a
class which stands before a method of the class around it. -/
theorem reports_lt_iff (hinner : inner ∈ (Session.ofText t .java cfg).resolve.abstractOwners)
    (hlt : outer.openBrace < inner.openBrace) (direct : s.Direct (.ofText t .java) outer.openBrace)
    (direct' : s.Direct (.ofText t .java) inner.openBrace)
    (hx : x ∈ s.abstractIn (.ofText t .java) outer.openBrace)
    (hx' : x' ∈ s.abstractIn (.ofText t .java) inner.openBrace) :
    x.openBrace < x'.openBrace ↔ (outer.openBrace ∈ (classify t .java inner.openBrace).enclosing →
      x.openBrace < inner.openBrace) := by
  obtain ⟨hopened, hbrace⟩ := opened_of_owner hinner
  obtain ⟨k, -, -, hreport⟩ := reported_of_mem hx
  have hne : x.openBrace ≠ inner.openBrace := by
    intro heq
    have hsemicolon := hreport.semicolon.char
    rw [heq, Lexed.ofText_text, hbrace] at hsemicolon
    simp at hsemicolon
  rw [Direct, Lexed.ofText_text] at direct direct'
  rw [enclosing_of_opened hopened]
  exact lt_iff_before_brace (pairwise_events t .java) (direct x hx) (direct' x' hx') hlt hne

/-- What holds of scopes in the order of a list holds of them in the order of their braces. -/
theorem rel_of_lt {R : Scope → Scope → Prop} {xs : List Scope}
    (ascending : xs.Pairwise fun x y => x.openBrace < y.openBrace) (h : xs.Pairwise R) (hx : x ∈ xs)
    (hx' : x' ∈ xs) (hlt : x.openBrace < x'.openBrace) : R x x' := by
  induction xs with
  | nil => simp at hx
  | cons y ys ih =>
    obtain ⟨hy, hys⟩ := List.pairwise_cons.mp ascending
    obtain ⟨hrel, hrest⟩ := List.pairwise_cons.mp h
    rcases List.mem_cons.mp hx with rfl | hin
    · rcases List.mem_cons.mp hx' with rfl | hin'
      · omega
      · exact hrel x' hin'
    · rcases List.mem_cons.mp hx' with rfl | hin'
      · have := hy x hin
        omega
      · exact ih hys hrest hin hin'

/-- The reports come in order and directly under their braces exactly in an orderly session. -/
theorem orderly_iff (t : Text) (cfg : ScopeConfig) :
    let s := (Session.ofText t .java cfg).resolve
    ((s.abstractOwners.flatMap fun owner => s.abstractIn s.lexed owner.openBrace).Pairwise
        (fun x y => x.openBrace < y.openBrace) ∧
      ∀ owner ∈ s.abstractOwners, s.Direct s.lexed owner.openBrace) ↔ s.Orderly := by
  intro s
  have hix : s.lexed.IsJava := Lexed.isJava_ofText t
  rw [List.pairwise_flatMap]
  constructor
  · rintro ⟨⟨bodies, across⟩, direct⟩
    refine ⟨fun owner howner => (direct_iff_sameLevel hix).mp (direct owner howner),
      fun owner howner => abstractIn_ascending_iff.mp (bodies owner howner), ?_⟩
    intro outer houter inner hinner hin x hx y hy
    have hlt : outer.openBrace < inner.openBrace := by
      have hopen : outer.openBrace ∈ (classify t .java inner.openBrace).enclosing := hin
      rw [enclosing_of_opened (opened_of_owner hinner).1] at hopen
      exact (opened_of_mem_stackBelow hopen).2
    have hxy := rel_of_lt owners_ascending across houter hinner hlt x hx y hy
    exact (reports_lt_iff hinner hlt (direct outer houter) (direct inner hinner) hx hy).mp hxy hin
  · intro orderly
    have direct : ∀ owner ∈ s.abstractOwners, s.Direct s.lexed owner.openBrace :=
      fun owner howner => (direct_iff_sameLevel hix).mpr (orderly.closed owner howner)
    refine ⟨⟨fun owner howner => abstractIn_ascending_iff.mpr (orderly.once owner howner), ?_⟩, direct⟩
    refine owners_ascending.imp_of_mem fun {outer inner} houter hinner hlt x hx y hy => ?_
    refine (reports_lt_iff hinner hlt (direct outer houter) (direct inner hinner) hx hy).mpr ?_
    intro hin
    exact orderly.outerFirst outer houter inner hinner hin x hx y hy

end Session

open Session

/-- Every abstract method that is reported ends with a semicolon of code, under the brace of a class, an
enum or an anonymous class, and begins on the level of the semicolon. The reports come in the order of the
text, once each, with their brace as the innermost bracket around them, exactly in the texts that are
orderly. -/
theorem classAbstractMethods_ordered_iff (t : Text) (cfg : ScopeConfig) :
    let s := (Session.ofText t .java cfg).resolve
    let found := (Session.ofText t .java cfg).classAbstractMethods.1
    (∀ x ∈ found, (Lexed.ofText t .java).CodeChar x.openBrace ';' ∧
      (∃ owner ∈ s.store.scopes,
        (owner.kind = .classBody ∨ owner.kind = .enumBody ∨ owner.kind = .anonClass) ∧
          x.parent = some owner.openBrace) ∧
      ∃ start, x.start = some start ∧ start < x.openBrace ∧
        (classify t .java start).enclosing = (classify t .java x.openBrace).enclosing) ∧
    ((found.Pairwise (fun x y => x.openBrace < y.openBrace) ∧
      ∀ x ∈ found, ∀ start, x.start = some start →
        (classify t .java x.openBrace).enclosing.head? = x.parent ∧
          (classify t .java start).enclosing.head? = x.parent) ↔ s.Orderly) := by
  intro s found
  have hfound : found = s.abstractOwners.flatMap fun owner => s.abstractIn s.lexed owner.openBrace := rfl
  refine ⟨fun x hx => ?_, ?_⟩
  · rw [hfound, List.mem_flatMap] at hx
    obtain ⟨owner, howner, hx⟩ := hx
    obtain ⟨k, -, -, hreport⟩ := reported_of_mem hx
    obtain ⟨hstored, hkind⟩ := List.mem_filter.mp howner
    refine ⟨hreport.semicolon, ⟨owner, hstored, ?_, hreport.parent⟩, hreport.enclosing⟩
    cases hk : owner.kind <;> simp [hk, ScopeKind.isClassLike] at hkind ⊢
  · have own : (∀ x ∈ found, ∀ start, x.start = some start →
        (classify t .java x.openBrace).enclosing.head? = x.parent ∧
          (classify t .java start).enclosing.head? = x.parent) ↔
        ∀ owner ∈ s.abstractOwners, s.Direct (.ofText t .java) owner.openBrace := by
      simp only [direct_iff_enclosing, hfound, List.mem_flatMap]
      constructor
      · intro h owner howner x hx
        exact h x ⟨owner, howner, hx⟩
      · rintro h x ⟨owner, howner, hx⟩
        exact h owner howner x hx
    rw [own, hfound]
    exact orderly_iff t cfg

/-- The method of an outer class is reported before the methods of a class that stands in front of it. -/
theorem classAbstractMethods_not_ordered_nested :
    let t : Text :=
      .ofString "class A \x7b class B \x7b abstract void b(); \x7d abstract void a(); \x7d"
    (Session.ofText t .java {}).classAbstractMethods.1 =
      [⟨.method, "a()", some 41, 58, some 8⟩, ⟨.method, "b()", some 20, 37, some 18⟩] ∧
    ¬ (Session.ofText t .java {}).resolve.Orderly := by
  intro t
  have hfound : (Session.ofText t .java {}).classAbstractMethods.1 =
      [⟨.method, "a()", some 41, 58, some 8⟩, ⟨.method, "b()", some 20, 37, some 18⟩] := by
    decide +kernel
  refine ⟨hfound, fun orderly => ?_⟩
  have ascending := ((classAbstractMethods_ordered_iff t {}).2.mpr orderly).1
  rw [hfound] at ascending
  simp at ascending

-- Two keywords in front of one semicolon report the method twice.
example : (Session.ofText (.ofString "class A \x7b abstract abstract void a(); \x7d") .java
    {}).classAbstractMethods.1.map Scope.openBrace = [36, 36] := by
  decide +kernel

-- The semicolon stands in a parenthesis that is still open.
example : (Session.ofText (.ofString "class A \x7b abstract void a(b(); \x7d") .java
    {}).classAbstractMethods.1.map Scope.openBrace = [29] := by
  decide +kernel

end BraceScopes
