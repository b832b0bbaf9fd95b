import BraceScopes.Proofs.Resolve.Omitted
import BraceScopes.Proofs.Session.Resolved
import BraceScopes.Proofs.Session.UpToDate
/-!
The scope structure of a text, said without the passes that compute it. Resolving a new session computes
it, whatever the detectors are, and no other store describes it.
-/
namespace BraceScopes

open BraceScopes.Lex Resolve

/-- The chain accepts a brace and every annotated brace around it. -/
def AcceptedThroughout (chain : List Detector) (cfg : ScopeConfig) (t : Text) (r : Rules)
    (store : Store) (b : Nat) : Prop :=
  (detectWith chain cfg (.ofText t r) b).isSome = true ∧
    ∀ o ∈ (classify t r b).enclosing, t.charAt o = some '{' → (store.get? o).isSome = true →
      (detectWith chain cfg (.ofText t r) o).isSome = true

/-- The store holds the scopes of a text. Its keys are braces of code, and a brace of code is missing
exactly when it stands in the declaration of the next annotated brace that has one. An annotated brace
is a scope exactly when the chain accepts it and all annotated braces around it; then it is what the chain
says, with the nearest annotated brace as its parent. -/
structure ScopeStructure (chain : List Detector) (cfg : ScopeConfig) (t : Text) (r : Rules)
    (store : Store) : Prop where
  brace : ∀ b a, store.get? b = some a → .opened b ∈ events t r ∧ t.charAt b = some '{'
  omitted : ∀ b, .opened b ∈ events t r → t.charAt b = some '{' →
    (store.get? b = none ↔
      InDeclaration chain cfg (.ofText t r) (fun c => (store.get? c).isSome = true) b)
  isScope : ∀ b a, store.get? b = some a →
    ((∃ x, a = .scope x) ↔ AcceptedThroughout chain cfg t r store b)
  scope : ∀ b x, store.get? b = some (.scope x) →
    detectWith chain cfg (.ofText t r) b = some ⟨x.kind, x.name, x.start⟩ ∧ x.openBrace = b ∧
      x.parent = nearestAnnotated t r store b

variable {chain : List Detector} {cfg : ScopeConfig} {t : Text} {r : Rules} {store store' : Store}
  {b o : Nat}

theorem nearestAnnotated_eq_some (h : .opened b ∈ events t r)
    (hnear : nearestAnnotated t r store b = some o) :
    (o ∈ stackBelow b (events t r) ∧ t.charAt o = some '{' ∧ (store.get? o).isSome = true) ∧
      ∀ q ∈ stackBelow b (events t r), t.charAt q = some '{' → (store.get? q).isSome = true → q ≤ o := by
  rw [nearestAnnotated, enclosing_of_opened h] at hnear
  obtain ⟨hfound, inner, outer, hsplit, hinner⟩ := List.find?_eq_some_iff_append.mp hnear
  simp only [Bool.and_eq_true, beq_iff_eq] at hfound
  have descending := stackBelow_descending (pairwise_events t r) b
  rw [hsplit] at descending ⊢
  refine ⟨⟨by simp, hfound⟩, ?_⟩
  intro q hq hbrace hannotated
  rcases List.mem_append.mp hq with hq | hq
  · have hnot := hinner q hq
    simp [hbrace, hannotated] at hnot
  · rcases List.mem_cons.mp hq with rfl | hq
    · exact Nat.le_refl q
    · have := (List.pairwise_cons.mp (List.pairwise_append.mp descending).2.1).1 q hq
      omega

theorem acceptedThroughout_iff (h : .opened b ∈ events t r) :
    AcceptedThroughout chain cfg t r store b ↔
      (detectWith chain cfg (.ofText t r) b).isSome = true ∧
        ∀ o, nearestAnnotated t r store b = some o → AcceptedThroughout chain cfg t r store o := by
  -- The annotated braces around a brace are the nearest one and those around that one.
  have sorted := pairwise_events t r
  rw [AcceptedThroughout, enclosing_of_opened h]
  refine and_congr_right fun _ => ⟨?_, ?_⟩
  · intro hall o hnear
    obtain ⟨⟨ho, hbrace, hannotated⟩, -⟩ := nearestAnnotated_eq_some h hnear
    refine ⟨hall o ho hbrace hannotated, ?_⟩
    rw [enclosing_of_opened (opened_of_mem_stackBelow ho).1]
    intro q hq
    exact hall q (mem_stackBelow_trans sorted hq ho)
  · intro hnearest q hq hbrace hannotated
    cases hnear : nearestAnnotated t r store b with
    | none =>
      rw [nearestAnnotated, enclosing_of_opened h] at hnear
      have hnot := List.find?_eq_none.mp hnear q hq
      simp [hbrace, hannotated] at hnot
    | some o =>
      obtain ⟨⟨ho, -, -⟩, hlast⟩ := nearestAnnotated_eq_some h hnear
      obtain ⟨hopened, hob⟩ := opened_of_mem_stackBelow ho
      obtain ⟨haccepted, hall⟩ := hnearest o hnear
      rcases Nat.lt_or_eq_of_le (hlast q hq hbrace hannotated) with hlt | rfl
      · rw [enclosing_of_opened hopened] at hall
        exact hall q (mem_stackBelow_of_lt sorted hq hlt (Nat.le_of_lt hob)) hbrace hannotated
      · exact haccepted

namespace Resolve

/-- Unknown braces reach every depth: a resolved brace is a scope exactly when the chain accepts it and
the annotated braces around it. -/
theorem Resolved.isScope_iff (h : Resolved chain cfg t r store)
    (hb : b ∈ annotated chain cfg (.ofText t r)) :
    (∃ x, store.get? b = some (.scope x)) ↔ AcceptedThroughout chain cfg t r store b := by
  induction b using Nat.strongRecOn with
  | ind b ih =>
    obtain ⟨hopened, -⟩ := mem_annotated hb
    have hget := h b
    rw [if_pos hb] at hget
    have accepted : (detectWith chain cfg (.ofText t r) b).isSome =
        (visitOf chain cfg (.ofText t r) b).found.isSome := by
      rw [detectWith, Option.isSome_map]
      rfl
    rw [acceptedThroughout_iff hopened, accepted, hget]
    simp only [Option.some.injEq]
    rw [annotate_isScope_iff]
    refine and_congr_right fun _ => ?_
    change (∀ o a, annotatedAround? (.ofText t r) store b = some (o, a) → _) ↔ _
    rw [annotatedAround_eq hopened]
    cases hnear : nearestAnnotated t r store b with
    | none => simp
    | some o =>
      obtain ⟨⟨ho, -, hsome⟩, -⟩ := nearestAnnotated_eq_some hopened hnear
      have step := ih o (opened_of_mem_stackBelow ho).2 (h.isSome_iff.mp hsome)
      obtain ⟨a, ha⟩ := Option.isSome_iff_exists.mp hsome
      rw [ha] at step
      simpa [ha] using step

theorem Resolved.scopeStructure (h : Resolved chain cfg t r store) :
    ScopeStructure chain cfg t r store where
  brace b a hb := mem_annotated (h.of_get? hb).1
  omitted b hopened hbrace := by
    have hin : b ∈ (Lexed.ofText t r).bracesFrom 0 := Lexed.mem_bracesFrom_zero.mpr ⟨hopened, hbrace⟩
    have keys : ∀ c, b < c → ((store.get? c).isSome = true ↔ c ∈ annotated chain cfg (.ofText t r)) :=
      fun c _ => h.isSome_iff
    rw [← Option.not_isSome_iff_eq_none, h.isSome_iff, not_mem_annotated_iff hin]
    exact ⟨.congr fun c hc => (keys c hc).symm, .congr keys⟩
  isScope b a hb := by
    rw [← h.isScope_iff (h.of_get? hb).1, hb]
    simp
  scope b x hb := by
    obtain ⟨hmem, hscope⟩ := h.of_get? hb
    obtain ⟨hfound, hopen, hparent⟩ := annotate_eq_scope hscope
    exact ⟨hfound, hopen, hparent.symm.trans (map_annotatedAround (mem_annotated hmem).1)⟩

end Resolve

namespace ScopeStructure

theorem isSome_iff (h : ScopeStructure chain cfg t r store) (h' : ScopeStructure chain cfg t r store')
    (b : Nat) : (store.get? b).isSome = true ↔ (store'.get? b).isSome = true := by
  -- Whether a brace is missing depends on the braces after it, so the induction runs from the end.
  induction hn : t.size - b using Nat.strongRecOn generalizing b with
  | ind n ih =>
    by_cases hcode : .opened b ∈ events t r ∧ t.charAt b = some '{'
    · obtain ⟨hopened, hbrace⟩ := hcode
      have hsize : b < t.size := (step_of_mem hopened).1
      have after : ∀ c, b < c → ((store.get? c).isSome = true ↔ (store'.get? c).isSome = true) := by
        intro c hc
        exact ih (t.size - c) (by omega) c rfl
      have missing : store.get? b = none ↔ store'.get? b = none := by
        rw [h.omitted b hopened hbrace, h'.omitted b hopened hbrace]
        exact ⟨.congr after, .congr fun c hc => (after c hc).symm⟩
      rw [← Option.ne_none_iff_isSome, ← Option.ne_none_iff_isSome]
      exact not_congr missing
    · have absent : ∀ {s : Store}, ScopeStructure chain cfg t r s → ¬ (s.get? b).isSome = true := by
        intro s hs hsome
        obtain ⟨a, ha⟩ := Option.isSome_iff_exists.mp hsome
        exact hcode (hs.brace b a ha)
      exact iff_of_false (absent h) (absent h')

theorem acceptedThroughout_congr
    (keys : ∀ c, (store.get? c).isSome = true ↔ (store'.get? c).isSome = true) :
    AcceptedThroughout chain cfg t r store b ↔ AcceptedThroughout chain cfg t r store' b := by
  simp only [AcceptedThroughout, keys]

theorem nearestAnnotated_congr
    (keys : ∀ c, (store.get? c).isSome = true ↔ (store'.get? c).isSome = true) :
    nearestAnnotated t r store b = nearestAnnotated t r store' b := by
  have same : ∀ c, (store.get? c).isSome = (store'.get? c).isSome := fun c => Bool.eq_iff_iff.mpr (keys c)
  simp only [nearestAnnotated, same]

theorem unique (h : ScopeStructure chain cfg t r store) (h' : ScopeStructure chain cfg t r store') :
    store = store' := by
  have keys := h.isSome_iff h'
  refine Store.ext_get? fun b => ?_
  cases hb : store.get? b with
  | none =>
    have hnone := keys b
    cases hb' : store'.get? b with
    | none => rfl
    | some a => simp [hb, hb'] at hnone
  | some a =>
    obtain ⟨a', hb'⟩ := Option.isSome_iff_exists.mp ((keys b).mp (by rw [hb]; rfl))
    have same : (∃ x, a = .scope x) ↔ ∃ x, a' = .scope x := by
      rw [h.isScope b a hb, h'.isScope b a' hb', acceptedThroughout_congr keys]
    rw [hb']
    cases a with
    | unknown =>
      cases a' with
      | unknown => rfl
      | scope y =>
        obtain ⟨x, hx⟩ := same.mpr ⟨y, rfl⟩
        cases hx
    | scope x =>
      obtain ⟨y, rfl⟩ := same.mp ⟨x, rfl⟩
      obtain ⟨hfound, hopen, hparent⟩ := h.scope b x hb
      obtain ⟨hfound', hopen', hparent'⟩ := h'.scope b y hb'
      have hdetection := Option.some.inj (hfound.symm.trans hfound')
      obtain ⟨hkind, hname, hstart⟩ := Detection.mk.inj hdetection
      rw [← hopen'] at hopen
      rw [nearestAnnotated_congr keys, ← hparent'] at hparent
      cases x
      cases y
      simp only at hkind hname hstart hopen hparent
      subst hkind hname hstart hopen hparent
      rfl

end ScopeStructure

/-- After the first resolving of a new session, the store is the scope structure of its text, and it is
the only store that is. -/
theorem resolve_scopeStructure (t : Text) (r : Rules) (cfg : ScopeConfig) (chain : List Detector) :
    let store := (Session.new t r cfg chain).resolve.store
    ScopeStructure chain cfg t r store ∧
      ∀ other, ScopeStructure chain cfg t r other → other = store := by
  intro store
  have structured := (Session.resolved_new t r cfg chain).scopeStructure
  exact ⟨structured, fun other hother => hother.unique structured⟩

/-- A brace inside type arguments is left out, because the declaration of the anonymous class after it
begins before it; and the class is unknown, because the brace around it is. -/
theorem resolve_scopeStructure_typeArguments :
    let t : Text := .ofString "x \x7b new B<\x7b\x7d>() \x7b"
    let store := (Session.new t .java {} Detector.standard).resolve.store
    store.get? 10 = none ∧ store.get? 16 = some .unknown ∧
      InDeclaration Detector.standard {} (.ofText t .java) (fun c => (store.get? c).isSome = true) 10 ∧
      (detectWith Detector.standard {} (.ofText t .java) 16).isSome = true ∧
      ¬ AcceptedThroughout Detector.standard {} t .java store 16 := by
  intro t store
  have omitted : store.get? 10 = none := by decide +kernel
  have poisoned : store.get? 16 = some .unknown := by decide +kernel
  have opened : .opened 10 ∈ events t .java := by decide +kernel
  have brace : t.charAt 10 = some '{' := by decide +kernel
  have structured := (resolve_scopeStructure t .java {} Detector.standard).1
  refine ⟨omitted, poisoned, (structured.omitted 10 opened brace).mp omitted, by decide +kernel, ?_⟩
  intro accepted
  obtain ⟨x, hx⟩ := (structured.isScope 16 .unknown poisoned).mpr accepted
  cases hx

end BraceScopes
