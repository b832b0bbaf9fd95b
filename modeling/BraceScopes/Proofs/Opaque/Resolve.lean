import BraceScopes.Proofs.Opaque.Detect
import BraceScopes.Proofs.Session.Resolved
/-!
Comments and literals are opaque to the scope structure: resolving two texts with the same code leaves
the same annotations, up to names that hold the text of a literal.
-/
namespace BraceScopes

open BraceScopes.Lex Resolve

/-- An annotation without the name of its scope. -/
def Annotation.unnamed : Annotation → Annotation
  | .scope s => .scope { s with name := "" }
  | .unknown => .unknown

namespace Lexed

/-- What two texts have at a brace when they are resolved. -/
structure SameEntry (x y : Lexed) (a a' : Annotation) : Prop where
  unnamed : a.unnamed = a'.unnamed
  whole : SameLiterals x y → a = a'

namespace SameCode

section Indexes

variable {x y : Lexed} {b : Nat}

theorem isBrace (h : SameCode x y) (hb : .opened b ∈ Lex.events x.text .java) :
    x.isBrace b = y.isBrace b := by
  obtain ⟨c, hc, -⟩ := h.left.mem_opened.mp hb
  rw [Lexed.isBrace, Lexed.isBrace, hc.char, (h.codeChar hc).char]

theorem ancestors_opened (h : SameCode x y) (hb : .opened b ∈ Lex.events x.text .java) :
    x.ancestors b = stackBelow b (Lex.events x.text .java) ∧
      y.ancestors b = stackBelow b (Lex.events x.text .java) := by
  have left := (reads_ofText x.text .java).ancestors_of_opened (pairwise_events x.text .java) hb
  have right := (reads_ofText y.text .java).ancestors_of_opened (pairwise_events y.text .java)
    (h.events ▸ hb)
  rw [← h.left.eq] at left
  rw [← h.right.eq, ← h.events] at right
  exact ⟨left, right⟩

theorem parentOf (h : SameCode x y) (hb : .opened b ∈ Lex.events x.text .java) :
    x.parentOf b = y.parentOf b := by
  obtain ⟨left, right⟩ := h.ancestors_opened hb
  rw [Lexed.parentOf, Lexed.parentOf, left, right]

theorem declarationAfter (h : SameCode x y) (cfg : ScopeConfig) (last : Option Declaration)
    (hb : .opened b ∈ Lex.events x.text .java) :
    Resolve.declarationAfter Detector.standard cfg x last b =
      Resolve.declarationAfter Detector.standard cfg y last b := by
  obtain ⟨c, hc, -⟩ := h.left.mem_opened.mp hb
  have hfound := h.firstAccepting_standard cfg (h.left.codeGap_of_code hc)
  rw [Resolve.declarationAfter, Resolve.declarationAfter, h.parentOf hb]
  generalize firstAccepting? Detector.standard cfg x b = f at hfound
  generalize firstAccepting? Detector.standard cfg y b = g at hfound
  cases hfound with
  | none => rfl
  | some hsame => simp only [Option.bind_some, hsame.2.start]

/-- The same braces are visited in both texts. -/
theorem classifyBack (h : SameCode x y) (cfg : ScopeConfig) (last : Option Declaration) {bs : List Nat}
    (hbs : ∀ b ∈ bs, .opened b ∈ Lex.events x.text .java) :
    (Resolve.classifyBack Detector.standard cfg x last bs).map (·.brace) =
      (Resolve.classifyBack Detector.standard cfg y last bs).map (·.brace) := by
  induction bs generalizing last with
  | nil => rfl
  | cons b bs ih =>
    obtain ⟨hb, hbs⟩ := List.forall_mem_cons.mp hbs
    have hcovers : (last.any fun d => d.covers x b) = last.any fun d => d.covers y b := by
      simp only [Declaration.covers, h.parentOf hb]
    rw [classifyBack_cons, classifyBack_cons, hcovers]
    split
    next => exact ih last hbs
    next =>
      rw [List.map_cons, List.map_cons, ih _ hbs, h.declarationAfter cfg last hb]
      rfl

/-- The nearest annotated brace is the same, if the braces around are annotated alike. -/
theorem annotatedAround (h : SameCode x y) {s s' : Store} (hb : .opened b ∈ Lex.events x.text .java)
    (before : ∀ o < b, Option.Rel (SameEntry x y) (s.get? o) (s'.get? o)) :
    Option.Rel (fun u v => u.1 = v.1 ∧ SameEntry x y u.2 v.2)
      (annotatedAround? x s b) (annotatedAround? y s' b) := by
  obtain ⟨left, right⟩ := h.ancestors_opened hb
  rw [annotatedAround?, annotatedAround?, left, right]
  have around : ∀ o ∈ stackBelow b (Lex.events x.text .java),
      .opened o ∈ Lex.events x.text .java ∧ o < b := fun o ho => opened_of_mem_stackBelow ho
  generalize stackBelow b (Lex.events x.text .java) = os at around
  induction os with
  | nil => exact .none
  | cons o os ih =>
    obtain ⟨⟨hopened, hlt⟩, around⟩ := List.forall_mem_cons.mp around
    rw [List.filter_cons, List.filter_cons, h.isBrace hopened]
    split
    next =>
      have hsame := before o hlt
      rw [List.findSome?_cons, List.findSome?_cons]
      generalize s.get? o = a at hsame
      generalize s'.get? o = a' at hsame
      cases hsame with
      | none => exact ih around
      | some hsame => exact .some ⟨rfl, hsame⟩
    next => exact ih around

theorem annotate (h : SameCode x y) (cfg : ScopeConfig) {s s' : Store}
    (hb : .opened b ∈ Lex.events x.text .java)
    (before : ∀ o < b, Option.Rel (SameEntry x y) (s.get? o) (s'.get? o)) :
    SameEntry x y (Resolve.annotate x s (visitOf Detector.standard cfg x b))
      (Resolve.annotate y s' (visitOf Detector.standard cfg y b)) := by
  obtain ⟨c, hc, -⟩ := h.left.mem_opened.mp hb
  have hfound := h.firstAccepting_standard cfg (h.left.codeGap_of_code hc)
  have haround := h.annotatedAround hb before
  have unknown : SameEntry x y .unknown .unknown := ⟨rfl, fun _ => rfl⟩
  unfold Resolve.annotate visitOf
  simp only
  generalize firstAccepting? Detector.standard cfg x b = f at hfound ⊢
  generalize firstAccepting? Detector.standard cfg y b = g at hfound ⊢
  generalize annotatedAround? x s b = u at haround ⊢
  generalize annotatedAround? y s' b = v at haround ⊢
  cases hfound with
  | none => exact unknown
  | @some f g hf =>
    -- Two scopes of one kind, start and parent differ in the name only.
    have scope : ∀ parent, SameEntry x y (.scope ⟨f.2.kind, f.2.name, f.2.start, b, parent⟩)
        (.scope ⟨g.2.kind, g.2.name, g.2.start, b, parent⟩) := by
      intro parent
      refine ⟨?_, fun hl => ?_⟩
      · simp only [hf.2.kind, hf.2.start, Annotation.unnamed]
      · rw [hf.2.kind, hf.2.start, hf.2.name hl]
    cases haround with
    | none => exact scope none
    | @some u v huv =>
      obtain ⟨o, a⟩ := u
      obtain ⟨o', a'⟩ := v
      obtain ⟨rfl, hsame⟩ := huv
      cases a with
      | unknown =>
        cases a' with
        | unknown => exact unknown
        | scope z' => cases hsame.unnamed
      | scope z =>
        cases a' with
        | unknown => cases hsame.unnamed
        | scope z' => exact scope (some o)

end Indexes

variable {s t : Text} {cfg : ScopeConfig}

theorem bracesFrom_zero (h : SameCode (.ofText s .java) (.ofText t .java)) :
    (ofText s .java).bracesFrom 0 = (ofText t .java).bracesFrom 0 := by
  refine (bracesFrom_ascending s .java 0).eq_of_mem_iff (bracesFrom_ascending t .java 0) fun b => ?_
  have hevents := h.events
  rw [ofText_text, ofText_text] at hevents
  rw [mem_bracesFrom_zero, mem_bracesFrom_zero, ← hevents]
  refine and_congr_right fun hb => ?_
  have hbrace := h.isBrace (b := b) (by rwa [ofText_text])
  rw [Lexed.isBrace, Lexed.isBrace, ofText_text, ofText_text] at hbrace
  rw [← beq_iff_eq, hbrace, beq_iff_eq]

theorem annotated (h : SameCode (.ofText s .java) (.ofText t .java)) :
    Resolve.annotated Detector.standard cfg (.ofText s .java) =
      Resolve.annotated Detector.standard cfg (.ofText t .java) := by
  rw [Resolve.annotated, Resolve.annotated, visits, visits, ← h.bracesFrom_zero]
  refine h.classifyBack cfg none fun b hb => ?_
  rw [ofText_text]
  exact (mem_bracesFrom_zero.mp (List.mem_reverse.mp hb)).1

/-- Two resolved texts with the same code are annotated alike. -/
theorem resolved (h : SameCode (.ofText s .java) (.ofText t .java)) {store store' : Store}
    (hs : Resolved Detector.standard cfg s .java store)
    (ht : Resolved Detector.standard cfg t .java store') (b : Nat) :
    Option.Rel (SameEntry (.ofText s .java) (.ofText t .java)) (store.get? b) (store'.get? b) := by
  induction b using Nat.strongRecOn with
  | ind b ih =>
    rw [hs b, ht b, h.annotated]
    split
    next hb =>
      rw [← h.annotated] at hb
      exact .some (h.annotate cfg (by rw [ofText_text]; exact (mem_annotated hb).1) ih)
    next => exact .none

end SameCode

theorem sameCode_of_agree {s t : Text} (hsize : s.size = t.size)
    (hevents : events s .java = events t .java)
    (hcode : ∀ p, (∀ r, .region r ∈ events s .java → ¬ (r.start ≤ p ∧ p < r.stop)) →
      s.charAt p = t.charAt p) :
    SameCode (.ofText s .java) (.ofText t .java) where
  left := isJava_ofText s
  right := isJava_ofText t
  events := by rw [ofText_text, ofText_text, hevents]
  size := by rw [ofText_text, ofText_text, hsize]
  agree p hp := by
    rw [ofText_text, ofText_text]
    refine hcode p fun r hr hin => ?_
    have hregion := (isJava_ofText s).regionAtChar_eq_some.mpr ⟨by rwa [ofText_text], hin⟩
    rw [hp] at hregion
    cases hregion

end Lexed

open Lexed

theorem map_eq_of_rel {α β : Type} {R : α → α → Prop} {f : α → β} {a a' : Option α}
    (h : Option.Rel R a a') (hf : ∀ u v, R u v → f u = f v) : a.map f = a'.map f := by
  cases h with
  | none => rfl
  | some huv => exact congrArg some (hf _ _ huv)

/-- Two texts of one size and one list of events, with the same characters outside comments and
literals, are resolved to the same scopes, names apart; and if they differ in comments only, then to the
same annotations altogether. -/
theorem resolve_congr_code (s t : Text) (cfg : ScopeConfig) (hsize : s.size = t.size)
    (hevents : events s .java = events t .java)
    (hcode : ∀ p, (∀ r, .region r ∈ events s .java → ¬ (r.start ≤ p ∧ p < r.stop)) →
      s.charAt p = t.charAt p) :
    let store := (Session.ofText s .java cfg).resolve.store
    let store' := (Session.ofText t .java cfg).resolve.store
    (∀ b, (store.get? b).map Annotation.unnamed = (store'.get? b).map Annotation.unnamed) ∧
      ((∀ p, (∀ r, .region r ∈ events s .java → r.kind = .comment → ¬ (r.start ≤ p ∧ p < r.stop)) →
        s.charAt p = t.charAt p) → store = store') := by
  intro store store'
  have same := sameCode_of_agree hsize hevents hcode
  have alike := same.resolved (Session.resolved_new s .java cfg Detector.standard)
    (Session.resolved_new t .java cfg Detector.standard)
  change ∀ b, Option.Rel _ (store.get? b) (store'.get? b) at alike
  refine ⟨fun b => map_eq_of_rel (alike b) fun _ _ hsame => hsame.unnamed, fun hcomments => ?_⟩
  have literals : SameLiterals (.ofText s .java) (.ofText t .java) := by
    intro p r hr hkind
    rw [ofText_text, ofText_text]
    refine hcomments p fun r' hr' hkind' hin => ?_
    have hregion := (isJava_ofText s).regionAtChar_eq_some.mpr ⟨by rwa [ofText_text], hin⟩
    rw [hr] at hregion
    cases hregion
    rw [hkind] at hkind'
    cases hkind'
  refine Store.ext_get? fun b => ?_
  have hb := map_eq_of_rel (f := id) (alike b) fun _ _ hsame => hsame.whole literals
  simpa using hb

/-- The comments of three texts hold different brackets, and one of them has another literal among its
type arguments: that changes the name of a method, and nothing else. -/
theorem resolve_congr_code_typeArguments :
    let s : Text := .ofString "class A/*\x7b*/ \x7b void f(B<\"x\"> b) \x7b \x7d \x7d"
    let t : Text := .ofString "class A/*)*/ \x7b void f(B<\"y\"> b) \x7b \x7d \x7d"
    let u : Text := .ofString "class A/*;*/ \x7b void f(B<\"x\"> b) \x7b \x7d \x7d"
    let store (t : Text) := (Session.ofText t .java {}).resolve.store
    (∀ b, ((store s).get? b).map Annotation.unnamed = ((store t).get? b).map Annotation.unnamed) ∧
      (store s).get? 32 = some (.scope ⟨.method, "f(B<\"x\">)", some 15, 32, some 13⟩) ∧
      (store t).get? 32 = some (.scope ⟨.method, "f(B<\"y\">)", some 15, 32, some 13⟩) ∧
      store s = store u := by
  intro s t u store
  have comment : .region ⟨.comment, 7, 12, true⟩ ∈ events s .java := by decide +kernel
  have literal : .region ⟨.string, 24, 27, true⟩ ∈ events s .java := by decide +kernel
  have sizes : s.size = 37 ∧ t.size = 37 ∧ u.size = 37 := by decide +kernel
  have past : ∀ v : Text, v.size = 37 → ∀ p, ¬ p < 37 → v.charAt p = none := by
    intro v hv p hp
    exact Text.charAt_eq_none_of_size_le (by omega)
  have left : ∀ p, p < 37 → p = 9 ∨ p = 25 ∨ s.charAt p = t.charAt p := by decide +kernel
  have right : ∀ p, p < 37 → p = 9 ∨ s.charAt p = u.charAt p := by decide +kernel
  have differ : ∀ p, (∀ r, .region r ∈ events s .java → ¬ (r.start ≤ p ∧ p < r.stop)) →
      s.charAt p = t.charAt p := by
    intro p hp
    by_cases hlt : p < 37
    · rcases left p hlt with rfl | rfl | heq
      · exact absurd (by decide) (hp _ comment)
      · exact absurd (by decide) (hp _ literal)
      · exact heq
    · rw [past s sizes.1 p hlt, past t sizes.2.1 p hlt]
  have comments : ∀ p, (∀ r, .region r ∈ events s .java → r.kind = .comment →
      ¬ (r.start ≤ p ∧ p < r.stop)) → s.charAt p = u.charAt p := by
    intro p hp
    by_cases hlt : p < 37
    · rcases right p hlt with rfl | heq
      · exact absurd (by decide) (hp _ comment rfl)
      · exact heq
    · rw [past s sizes.1 p hlt, past u sizes.2.2 p hlt]
  refine ⟨(resolve_congr_code s t {} (by decide +kernel) (by decide +kernel) differ).1, by decide +kernel,
    by decide +kernel, ?_⟩
  exact (resolve_congr_code s u {} (by decide +kernel) (by decide +kernel)
    fun p hp => comments p fun r hr _ => hp r hr).2 comments

end BraceScopes
