import BraceScopes.Text.Edit
import Mathlib.Data.List.Pairwise
/-!
A batch is refused by looking at neighbours only. Standing clear of each other passes along a chain of
neighbours, so this settles every two edits of the batch.
-/
namespace BraceScopes

namespace Edit

variable {t : Text} {a b c e : Edit} {es : List Edit}

/-- The range of an edit stops within the text and does not cut a character. -/
structure Fits (e : Edit) (t : Text) : Prop where
  stop_le : e.range.stop ≤ t.size
  start : t.isBoundary e.range.start = true
  stop : t.isBoundary e.range.stop = true

/-- Both edits insert, and at one place. -/
def SameInsertion (a b : Edit) : Prop :=
  a.range.start = a.range.stop ∧ b.range.start = b.range.stop ∧ a.range.start = b.range.start

/-- Edits that can be made together: one is over where the other starts. -/
def Apart (a b : Edit) : Prop :=
  (a.range.stop ≤ b.range.start ∨ b.range.stop ≤ a.range.start) ∧ ¬SameInsertion a b

/-- Edits that can be made together, in order of place. -/
def Precedes (a b : Edit) : Prop := a.range.stop ≤ b.range.start ∧ ¬SameInsertion a b

/-- The order of a sorted batch. -/
def NotAfter (a b : Edit) : Prop :=
  a.range.start < b.range.start ∨ a.range.start = b.range.start ∧ a.range.stop ≤ b.range.stop

theorem before_eq_true : before a b = true ↔ NotAfter a b := by
  simp [before, NotAfter]

theorem NotAfter.trans (hab : NotAfter a b) (hbc : NotAfter b c) : NotAfter a c := by
  simp only [NotAfter] at *
  omega

theorem notAfter_total (a b : Edit) : NotAfter a b ∨ NotAfter b a := by
  simp only [NotAfter]
  omega

theorem sort_perm (es : List Edit) : (sort es).Perm es := List.mergeSort_perm es before

theorem sort_pairwise (es : List Edit) : (sort es).Pairwise NotAfter := by
  have hsorted : (sort es).Pairwise fun a b => before a b = true := by
    apply List.pairwise_mergeSort
    · intro a b c hab hbc
      exact before_eq_true.mpr ((before_eq_true.mp hab).trans (before_eq_true.mp hbc))
    · intro a b
      rw [Bool.or_eq_true, before_eq_true, before_eq_true]
      exact notAfter_total a b
  exact hsorted.imp before_eq_true.mp

theorem placeError?_eq_none : placeError? t e = none ↔ e.Fits t := by
  constructor
  · intro h
    simp only [placeError?] at h
    split at h
    · cases h
    split at h
    · cases h
    split at h
    · cases h
    · exact ⟨by omega, by simp_all, by simp_all⟩
  · intro h
    simp [placeError?, h.stop_le, h.start, h.stop]

theorem clash_eq_false : clash a.range b.range = false ↔ Precedes a b := by
  simp only [clash, Range.isEmpty, Precedes, SameInsertion, Bool.or_eq_false_iff,
    decide_eq_false_iff_not, Bool.and_eq_false_iff, beq_eq_false_iff_ne, Nat.not_lt]
  have ha := a.range.start_le_stop
  omega

theorem SameInsertion.symm (h : SameInsertion a b) : SameInsertion b a :=
  ⟨h.2.1, h.1, h.2.2.symm⟩

theorem Apart.symm (h : Apart a b) : Apart b a :=
  ⟨h.1.symm, fun same => h.2 same.symm⟩

theorem Precedes.apart (h : Precedes a b) : Apart a b := ⟨.inl h.1, h.2⟩

/-- Two insertions at one place leave no room for a third edit between them, only for one more
insertion there. -/
theorem Precedes.trans (hab : Precedes a b) (hbc : Precedes b c) : Precedes a c := by
  have hb := b.range.start_le_stop
  refine ⟨by have := hab.1; have := hbc.1; omega, ?_⟩
  rintro ⟨hac, -, hplace⟩
  apply hab.2
  have hstop := hab.1
  have hstart := hbc.1
  exact ⟨hac, by omega, by omega⟩

instance : Trans Precedes Precedes Precedes := ⟨Precedes.trans⟩

/-- In order of place, edits that can be made together can only stand one after the other. -/
theorem Apart.precedes (h : Apart a b) (order : NotAfter a b) : Precedes a b := by
  refine ⟨?_, h.2⟩
  have ha := a.range.start_le_stop
  have hb := b.range.start_le_stop
  have hsame := h.2
  simp only [SameInsertion, NotAfter] at hsame order
  rcases h.1 with before | after
  · exact before
  · omega

theorem clash?_eq_none (es : List Edit) : clash? es = none ↔ es.IsChain Precedes := by
  fun_induction clash? es with
  | case1 a b es hclash =>
    rw [List.isChain_cons_cons, ← clash_eq_false]
    simp [hclash]
  | case2 a b es hclash ih =>
    rw [List.isChain_cons_cons, ← clash_eq_false, ih]
    simp [hclash]
  | case3 es hshort =>
    match es with
    | [] => simp
    | [a] => simp
    | a :: b :: es => exact (hshort a b es rfl).elim

/-- No two neighbours of a sorted batch clash exactly if any two of its edits can be made together. -/
theorem clash?_sort_eq_none (es : List Edit) : clash? (sort es) = none ↔ es.Pairwise Apart := by
  rw [clash?_eq_none, List.isChain_iff_pairwise, ← (sort_perm es).pairwise_iff Apart.symm]
  constructor
  · exact fun h => h.imp Precedes.apart
  · intro h
    exact (List.pairwise_and_iff.mpr ⟨h, sort_pairwise es⟩).imp fun both => both.1.precedes both.2

theorem findSome?_placeError?_sort (es : List Edit) :
    (sort es).findSome? (placeError? t) = none ↔ ∀ e ∈ es, e.Fits t := by
  simp only [List.findSome?_eq_none_iff, placeError?_eq_none, (sort_perm es).mem_iff]

theorem batchError?_sort_eq_none (es : List Edit) :
    batchError? t (sort es) = none ↔ (∀ e ∈ es, e.Fits t) ∧ es.Pairwise Apart := by
  rw [batchError?, Option.or_eq_none_iff, findSome?_placeError?_sort, clash?_sort_eq_none]

theorem pairwise_apart_iff (es : List Edit) :
    es.Pairwise Apart ↔
      ∀ i j (hi : i < es.length) (hj : j < es.length), i ≠ j → es[i].Apart es[j] := by
  rw [List.pairwise_iff_getElem]
  constructor
  · intro h i j hi hj hne
    rcases Nat.lt_or_gt_of_ne hne with lt | gt
    · exact h i j hi hj lt
    · exact (h j i hj hi gt).symm
  · exact fun h i j hi hj lt => h i j hi hj (Nat.ne_of_lt lt)

/-- A batch is accepted exactly if each of its edits fits the text and any two of them can be made
together. Accepted or not, it is left in order of place. -/
theorem normalize_accepts_iff (t : Text) (es : List Edit) :
    ((normalize t es).2 = .ok () ↔
      (∀ e ∈ es, e.Fits t) ∧
      ∀ i j (hi : i < es.length) (hj : j < es.length), i ≠ j → es[i].Apart es[j]) ∧
    (normalize t es).1.Perm es ∧ (normalize t es).1.Pairwise NotAfter := by
  refine ⟨?_, sort_perm es, sort_pairwise es⟩
  rw [← pairwise_apart_iff, ← batchError?_sort_eq_none, normalize]
  cases batchError? t (sort es) with
  | none => simp
  | some error => simp

end Edit

end BraceScopes
