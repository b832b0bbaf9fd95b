import BraceScopes.Proofs.Store
/-!
The links between the scopes of a store. Where every link leads to an earlier scope, following the links
from a scope comes to an end, and the ancestors of the scope are all that is met on the way.
-/
namespace BraceScopes

namespace Store

/-- Following the links from `start` meets these scopes one after the other, and the last of them has no
link. -/
inductive LinkPath (s : Store) : Option Nat → List Scope → Prop
  | stop : LinkPath s none []
  | link {p : Nat} {x : Scope} {xs : List Scope} :
      s.get? p = some (.scope x) → LinkPath s x.parent xs → LinkPath s (some p) (x :: xs)

/-- Every scope is stored under its brace, and its link leads to an earlier scope of the store. -/
structure Linked (s : Store) : Prop where
  openBrace : ∀ k x, s.get? k = some (.scope x) → x.openBrace = k
  parent : ∀ k x p, s.get? k = some (.scope x) → x.parent = some p →
    p < k ∧ ∃ y, s.get? p = some (.scope y)

variable {s : Store} {k p : Nat} {x : Scope}

theorem scope?_eq_some : s.scope? k = some x ↔ s.get? k = some (.scope x) := by
  unfold scope?
  rw [Option.bind_eq_some_iff]
  constructor
  · rintro ⟨a, ha, hx⟩
    cases a with
    | scope y => cases hx; exact ha
    | unknown => cases hx
  · intro h
    exact ⟨.scope x, h, rfl⟩

theorem mem_scopes : x ∈ s.scopes ↔ ∃ k, s.get? k = some (.scope x) := by
  rw [scopes, List.mem_filterMap]
  constructor
  · rintro ⟨⟨k, a⟩, hmem, hx⟩
    exact ⟨k, scope?_eq_some.mp (Option.bind_eq_some_iff.mpr ⟨a, get?_eq_some.mpr hmem, hx⟩)⟩
  · rintro ⟨k, hk⟩
    exact ⟨(k, .scope x), get?_eq_some.mp hk, rfl⟩

theorem linked_empty : empty.Linked :=
  ⟨fun _ _ h => by simp at h, fun _ _ _ h => by simp at h⟩

theorem size_clearFrom_lt {a : Annotation} (h : s.get? p = some a) (hpk : p < k) :
    (s.clearFrom p).size < (s.clearFrom k).size := by
  have hmem : (p, a) ∈ (s.clearFrom k).entries := by
    apply get?_eq_some.mp
    rw [get?_clearFrom, if_pos hpk, h]
  have hagain : (s.clearFrom p).entries = (s.clearFrom k).entries.filter (·.1 < p) := by
    change s.entries.filter _ = (s.entries.filter _).filter _
    rw [List.filter_filter]
    refine List.filter_congr fun e _ => (Bool.and_eq_left_iff_imp.mpr fun he => ?_).symm
    simp only [decide_eq_true_eq] at he ⊢
    omega
  unfold size
  rw [hagain]
  exact List.length_filter_lt_length_iff_exists.mpr ⟨(p, a), hmem, by simp⟩

namespace Linked

theorem scopes_ascending (h : s.Linked) : s.scopes.Pairwise fun x y => x.openBrace < y.openBrace := by
  refine List.pairwise_filterMap.mpr (s.ascending.imp_of_mem fun {a b} ha hb hlt x hx y hy => ?_)
  obtain ⟨k, a⟩ := a
  obtain ⟨l, b⟩ := b
  cases a with
  | unknown => cases hx
  | scope x' =>
    cases b with
    | unknown => cases hy
    | scope y' =>
      cases hx
      cases hy
      rw [h.openBrace k x (get?_eq_some.mpr ha), h.openBrace l y (get?_eq_some.mpr hb)]
      exact hlt

theorem linkPath_climb (h : s.Linked) {n : Nat} (hk : s.get? k = some (.scope x))
    (hn : (s.clearFrom k).size ≤ n) : s.LinkPath x.parent (s.climb n x.parent) := by
  -- A link leads to a scope with fewer entries before it, so as many steps as entries are enough.
  induction n generalizing k x with
  | zero =>
    cases hp : x.parent with
    | none => exact .stop
    | some p =>
      obtain ⟨hlt, y, hy⟩ := h.parent k x p hk hp
      have := size_clearFrom_lt hy hlt
      omega
  | succ n ih =>
    cases hp : x.parent with
    | none => exact .stop
    | some p =>
      obtain ⟨hlt, y, hy⟩ := h.parent k x p hk hp
      have hfewer := size_clearFrom_lt hy hlt
      have rest := ih hy (by omega)
      rw [climb, scope?_eq_some.mpr hy]
      exact .link hy rest

theorem linkPath_ancestors (h : s.Linked) (hk : s.get? k = some (.scope x)) :
    s.LinkPath x.parent (s.ancestors k) := by
  have hle : (s.clearFrom k).size ≤ s.size := List.length_filter_le _ _
  have hpath := h.linkPath_climb hk hle
  unfold ancestors
  rw [scope?_eq_some.mpr hk]
  exact hpath

theorem descending (h : s.Linked) {start : Option Nat} {xs : List Scope} (path : s.LinkPath start xs)
    (hk : s.get? k = some (.scope x)) (hstart : x.parent = start) :
    (k :: xs.map (·.openBrace)).Pairwise (· > ·) := by
  induction path generalizing k x with
  | stop => simp
  | @link p y ys hp rest ih =>
    obtain ⟨hlt, -⟩ := h.parent k x p hk hstart
    have htail := ih hp rfl
    rw [List.map_cons, h.openBrace p y hp]
    refine List.pairwise_cons.mpr ⟨?_, htail⟩
    intro q hq
    rcases List.mem_cons.mp hq with rfl | hq
    · exact hlt
    · have := (List.pairwise_cons.mp htail).1 q hq
      omega

end Linked

theorem LinkPath.parent_getLast {start : Option Nat} {xs : List Scope} (path : s.LinkPath start xs)
    (hstart : x.parent = start) {y : Scope} (hlast : (x :: xs).getLast? = some y) : y.parent = none := by
  induction path generalizing x with
  | stop =>
    have heq : x = y := by simpa using hlast
    rw [← heq, hstart]
  | link hp rest ih =>
    rw [List.getLast?_cons_cons] at hlast
    exact ih rfl hlast

end Store

end BraceScopes
