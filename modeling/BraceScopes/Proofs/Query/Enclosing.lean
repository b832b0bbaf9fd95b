import BraceScopes.Proofs.Session.Reachable
import BraceScopes.Proofs.Session.Structure
/-!
Climbing by place and climbing by links agree: the scopes met by following the links from a scope are
those stored at the braces around it, so a question about a place may be answered from either.
-/
namespace BraceScopes

open BraceScopes.Lex

/-- The braces of code around gap `p`, innermost first. -/
def enclosingBraces (t : Text) (r : Rules) (p : Nat) : List Nat :=
  (classify t r p).enclosing.filter fun o => t.charAt o == some '{'

/-- The first scope of a chain that `accept` accepts, with the rest of the chain. -/
def Detached.first? (accept : Scope → Bool) : List Scope → Option Detached
  | [] => none
  | x :: xs => if accept x then some ⟨x, xs⟩ else first? accept xs

/-- The scopes stored at the braces around gap `p`, innermost first. -/
def Store.around (s : Store) (t : Text) (r : Rules) (p : Nat) : List Scope :=
  (enclosingBraces t r p).filterMap s.scope?

variable {t : Text} {r : Rules} {s : Store} {k p o : Nat} {x : Scope} {start : Option Nat}
  {inner outer : List Nat} {xs ys : List Scope} {chain : List Detector} {cfg : ScopeConfig}

/-- Behind a brace, in the list of those around a place, come the braces around it. -/
theorem enclosingBraces_of_split (h : enclosingBraces t r p = inner ++ o :: outer) :
    enclosingBraces t r o = outer := by
  obtain ⟨within, rest, hsplit, -, hrest⟩ := List.filter_eq_append_iff.mp h
  obtain ⟨between, around, rfl, -, -, houter⟩ := List.filter_eq_cons_iff.mp hrest
  rw [classify_enclosing, ← List.append_assoc] at hsplit
  have hopened : .opened o ∈ events t r :=
    (opened_of_mem_stackBelow (show o ∈ stackBelow _ _ by rw [hsplit]; simp)).1
  rw [enclosingBraces, enclosing_of_opened hopened,
    stackBelow_of_split (pairwise_events t r) hsplit, houter]

namespace Store

theorem around_of_none (h : (enclosingBraces t r p).findSome? s.scope? = none) : s.around t r p = [] :=
  List.filterMap_eq_nil_iff.mpr (List.findSome?_eq_none_iff.mp h)

/-- The scopes around a place are the first one and those around its brace. -/
theorem around_of_first (linked : s.Linked) (h : (enclosingBraces t r p).findSome? s.scope? = some x) :
    s.around t r p = x :: s.around t r x.openBrace := by
  obtain ⟨inner, o, outer, hsplit, hx, hinner⟩ := List.findSome?_eq_some_iff.mp h
  rw [linked.openBrace o x (scope?_eq_some.mp hx), around, around, enclosingBraces_of_split hsplit, hsplit,
    List.filterMap_append, List.filterMap_eq_nil_iff.mpr hinner, List.filterMap_cons_some hx]
  rfl

theorem LinkPath.unique (h : s.LinkPath start xs) (h' : s.LinkPath start ys) : xs = ys := by
  induction h generalizing ys with
  | stop =>
    cases h'
    rfl
  | link hp rest ih =>
    cases h' with
    | link hp' rest' =>
      rw [hp] at hp'
      cases hp'
      rw [ih rest']

/-- Along a path of links, a scope is detached with what is left of the path. -/
theorem LinkPath.find_detach (h : s.LinkPath start xs) (linked : s.Linked) (accept : Scope → Bool) :
    (xs.find? accept).map (fun x => s.detach x fun _ => true) = Detached.first? accept xs := by
  induction h with
  | stop => rfl
  | @link p x xs hp rest ih =>
    rw [List.find?_cons, Detached.first?]
    cases accept x with
    | false => exact ih
    | true =>
      have hancestors := (linked.linkPath_ancestors hp).unique rest
      rw [← linked.openBrace p x hp] at hancestors
      simp [detach, hancestors]

end Store

namespace ScopeStructure

/-- The link of a scope leads to the first scope around its brace: an annotated brace around a scope is
never unknown. -/
theorem first_eq_parent (h : ScopeStructure chain cfg t r s) (linked : s.Linked)
    (hk : s.get? k = some (.scope x)) :
    (enclosingBraces t r k).findSome? s.scope? = x.parent.bind s.scope? := by
  obtain ⟨-, -, hparent⟩ := h.scope k x hk
  cases hnear : nearestAnnotated t r s k with
  | none =>
    rw [hparent, hnear, Option.bind_none, List.findSome?_eq_none_iff]
    intro o ho
    obtain ⟨hin, hbrace⟩ := List.mem_filter.mp ho
    have hnone := List.find?_eq_none.mp hnear o hin
    simp only [hbrace, Bool.true_and, Bool.not_eq_true, Option.isSome_eq_false_iff,
      Option.isNone_iff_eq_none] at hnone
    rw [Store.scope?, hnone, Option.bind_none]
  | some o =>
    obtain ⟨-, y, hy⟩ := linked.parent k x o hk (hparent.trans hnear)
    have hscope := Store.scope?_eq_some.mpr hy
    obtain ⟨hfound, inner, outer, hsplit, hinner⟩ := List.find?_eq_some_iff_append.mp hnear
    rw [hparent, hnear, Option.bind_some, hscope, List.findSome?_eq_some_iff, enclosingBraces, hsplit]
    simp only [Bool.and_eq_true] at hfound
    refine ⟨inner.filter fun o => t.charAt o == some '{', o, outer.filter fun o => t.charAt o == some '{',
      ?_, hscope, fun q hq => ?_⟩
    · rw [List.filter_append, List.filter_cons, if_pos hfound.1]
    · obtain ⟨hq, hbrace⟩ := List.mem_filter.mp hq
      have hnone := hinner q hq
      simp only [hbrace, Bool.true_and, Bool.not_eq_true', Option.isSome_eq_false_iff,
        Option.isNone_iff_eq_none] at hnone
      rw [Store.scope?, hnone, Option.bind_none]

theorem linkPath_around (h : ScopeStructure chain cfg t r s) (linked : s.Linked)
    (hk : s.get? k = some (.scope x)) : s.LinkPath x.parent (s.around t r k) := by
  induction k using Nat.strongRecOn generalizing x with
  | ind k ih =>
    have hfirst := h.first_eq_parent linked hk
    cases hparent : x.parent with
    | none =>
      rw [hparent, Option.bind_none] at hfirst
      rw [Store.around_of_none hfirst]
      exact .stop
    | some o =>
      obtain ⟨hlt, y, hy⟩ := linked.parent k x o hk hparent
      rw [hparent, Option.bind_some, Store.scope?_eq_some.mpr hy] at hfirst
      rw [Store.around_of_first linked hfirst, linked.openBrace o y hy]
      exact .link hy (ih o hlt hy)

theorem ancestors_eq_around (h : ScopeStructure chain cfg t r s) (linked : s.Linked)
    (hk : s.get? k = some (.scope x)) : s.ancestors k = s.around t r k :=
  (linked.linkPath_ancestors hk).unique (h.linkPath_around linked hk)

end ScopeStructure

/-- The scopes of an interval are those whose brace lies in it. -/
theorem Store.scopes_range (linked : s.Linked) (i : Interval) :
    (s.range i).filterMap (·.2.scope?) = s.scopes.filter fun x => i.contains x.openBrace := by
  rw [range, scopes, List.filterMap_filter, List.filter_filterMap]
  refine List.filterMap_congr fun e he => ?_
  obtain ⟨k, a⟩ := e
  cases a with
  | unknown => simp
  | scope x =>
    have hk := linked.openBrace k x (get?_eq_some.mpr he)
    simp [Option.filter_some, hk]

/-- In a resolved session, whatever its rules and detectors are, climbing by place and climbing by links
agree. The ancestors of a scope are all scopes at the braces around it. A question about a place climbs
from the first scope around the place. And the scopes of an interval come with those around them. -/
theorem ancestors_eq_scopes_around (t : Text) (r : Rules) (cfg : ScopeConfig) (chain : List Detector) :
    let s := (Session.new t r cfg chain).resolve
    (∀ x ∈ s.store.scopes, s.store.ancestors x.openBrace = s.store.around t r x.openBrace) ∧
    (∀ offset accept, (s.enclosingScope offset accept).1 =
      ((enclosingBraces t r offset).findSome? s.store.scope?).bind fun x =>
        Detached.first? accept (x :: s.store.ancestors x.openBrace)) ∧
    ∀ i accept keep, (s.allScopes i accept keep).1 =
      ((s.store.scopes.filter fun x => i.contains x.openBrace).filter accept).map fun x =>
        ⟨x, (s.store.around t r x.openBrace).filter keep⟩ := by
  intro s
  have structured := (Session.resolved_new t r cfg chain).scopeStructure
  have linked : s.store.Linked := (Session.Coherent.new t r cfg chain).resolve.linked
  have ancestors : ∀ x ∈ s.store.scopes,
      s.store.ancestors x.openBrace = s.store.around t r x.openBrace := by
    intro x hx
    obtain ⟨k, hk⟩ := Store.mem_scopes.mp hx
    rw [linked.openBrace k x hk]
    exact structured.ancestors_eq_around linked hk
  refine ⟨ancestors, fun offset accept => ?_, fun i accept keep => ?_⟩
  · change ((s.store.around t r offset).find? accept).map (fun x => s.store.detach x fun _ => true) = _
    cases hfirst : (enclosingBraces t r offset).findSome? s.store.scope? with
    | none =>
      rw [Store.around_of_none hfirst]
      rfl
    | some x =>
      obtain ⟨o, -, ho⟩ := List.exists_of_findSome?_eq_some hfirst
      have hx := Store.scope?_eq_some.mp ho
      have path := linked.linkPath_ancestors hx
      rw [← linked.openBrace o x hx] at path hx
      rw [Store.around_of_first linked hfirst, ← ancestors x (Store.mem_scopes.mpr ⟨_, hx⟩)]
      exact (Store.LinkPath.link hx path).find_detach linked accept
  · change (((s.store.range i).filterMap (·.2.scope?)).filter accept).map
      (fun x => s.store.detach x keep) = _
    rw [Store.scopes_range linked]
    refine List.map_congr_left fun x hx => ?_
    have hstored := (List.mem_filter.mp (List.mem_filter.mp hx).1).1
    rw [Store.detach, ancestors x hstored]

/-- From inside a literal, past a brace that opens nothing known. -/
theorem ancestors_eq_scopes_around_literal :
    let t : Text := .ofString "class A \x7b void m() \x7b x \x7b \""
    let s := (Session.new t .java {} Detector.standard).resolve
    let body : Scope := ⟨.classBody, "A", some 0, 8, none⟩
    let method : Scope := ⟨.method, "m()", some 10, 19, some 8⟩
    s.store.get? 23 = some .unknown ∧ method ∈ s.store.scopes ∧ s.store.ancestors 19 = [body] ∧
      (s.enclosingScope 26 fun _ => true).1 = some ⟨method, [body]⟩ ∧
      (s.enclosingScope 26 fun x => x.kind == .classBody).1 = some ⟨body, []⟩ := by
  intro t s body method
  have stored : method ∈ s.store.scopes := by decide +kernel
  have first : (enclosingBraces t .java 26).findSome? s.store.scope? = some method := by decide +kernel
  have around : s.store.around t .java 19 = [body] := by decide +kernel
  obtain ⟨ancestors, enclosing, -⟩ := ancestors_eq_scopes_around t .java {} Detector.standard
  have climbed : s.store.ancestors 19 = [body] := (ancestors method stored).trans around
  refine ⟨by decide +kernel, stored, climbed, ?_, ?_⟩
  · rw [enclosing, first, Option.bind_some, climbed]
    rfl
  · rw [enclosing, first, Option.bind_some, climbed]
    rfl

end BraceScopes
