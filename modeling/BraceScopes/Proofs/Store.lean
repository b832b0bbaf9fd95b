import BraceScopes.Store
/-!
A store seen as a function from braces to annotations.
-/
namespace BraceScopes

namespace Store

theorem get?_eq_some {s : Store} {b : Nat} {a : Annotation} :
    s.get? b = some a ↔ (b, a) ∈ s.entries := by
  obtain ⟨es, ascending⟩ := s
  change es.lookup b = some a ↔ (b, a) ∈ es
  induction es with
  | nil => simp
  | cons e es ih =>
    obtain ⟨k, c⟩ := e
    obtain ⟨hlt, hes⟩ := List.pairwise_cons.mp ascending
    rw [List.lookup_cons, List.mem_cons, Prod.mk.injEq]
    by_cases hb : b = k
    · subst hb
      have hnot : (b, a) ∉ es := fun hin => absurd (hlt _ hin) (Nat.lt_irrefl b)
      simp only [beq_self_eq_true, Option.some.injEq, true_and, hnot, or_false]
      exact eq_comm
    · rw [beq_false_of_ne hb]
      simp only [hb, false_and, false_or]
      exact ih hes

@[simp]
theorem get?_empty (b : Nat) : empty.get? b = none := rfl

theorem mem_put_iff {k : Nat} {a : Annotation} {es : List (Nat × Annotation)}
    (h : es.Pairwise fun x y => x.1 < y.1) {e : Nat × Annotation} :
    e ∈ put k a es ↔ e = (k, a) ∨ e ∈ es ∧ e.1 ≠ k := by
  induction es with
  | nil => simp [put]
  | cons x es ih =>
    obtain ⟨hlt, hes⟩ := List.pairwise_cons.mp h
    have later : ∀ {y}, y ∈ es → x.1 < y.1 := fun hy => hlt _ hy
    unfold put
    split
    next hk =>
      have : ∀ y ∈ x :: es, y.1 ≠ k := by
        intro y hy
        rcases List.mem_cons.mp hy with rfl | hy
        · omega
        · have := later hy
          omega
      grind
    next hk =>
      split
      next heq =>
        have : ∀ y ∈ es, y.1 ≠ k := by
          intro y hy
          have := later hy
          omega
        grind
      next hne =>
        rw [List.mem_cons, List.mem_cons, ih hes]
        grind

@[simp]
theorem get?_insert (s : Store) (k b : Nat) (a : Annotation) :
    (s.insert k a).get? b = if b = k then some a else s.get? b := by
  refine Option.ext fun c => ?_
  rw [get?_eq_some]
  change (b, c) ∈ put k a s.entries ↔ _
  rw [mem_put_iff s.ascending]
  by_cases hb : b = k
  · simp [hb, eq_comm]
  · simp [hb, get?_eq_some]

@[simp]
theorem get?_clearFrom (s : Store) (p b : Nat) :
    (s.clearFrom p).get? b = if b < p then s.get? b else none := by
  refine Option.ext fun c => ?_
  rw [get?_eq_some]
  change (b, c) ∈ s.entries.filter (·.1 < p) ↔ _
  rw [List.mem_filter]
  by_cases hb : b < p
  · simp [hb, get?_eq_some]
  · simp [hb]

/-- Stores with the same annotations are equal. -/
theorem ext_get? {s t : Store} (h : ∀ b, s.get? b = t.get? b) : s = t := by
  have distinct : ∀ u : Store, u.entries.Nodup := by
    intro u
    refine u.ascending.imp fun hlt heq => ?_
    rw [heq] at hlt
    exact Nat.lt_irrefl _ hlt
  have perm : s.entries.Perm t.entries := by
    refine (List.perm_ext_iff_of_nodup (distinct s) (distinct t)).mpr fun e => ?_
    rw [← get?_eq_some, ← get?_eq_some, h]
  have same : s.entries = t.entries :=
    perm.eq_of_pairwise (fun a b _ _ hab hba => absurd hab (Nat.lt_asymm hba)) s.ascending t.ascending
  cases s
  cases t
  cases same
  rfl

end Store

end BraceScopes
