import BraceScopes.Proofs.Text.Batch
import BraceScopes.Proofs.Text.Slice
import Mathlib.Algebra.Ring.Int.Defs
/-!
What a batch of edits does to a text. Made from the last to the first, the edits leave the text in
between as it was, and the outcome does not depend on the order in which the batch is given.
-/
namespace BraceScopes

namespace Edit

variable {t : Text} {p : Nat} {e : Edit} {es es' : List Edit}

/-- The characters of a text from `p` on, with the ranges of some edits replaced. -/
def splice (t : Text) (p : Nat) : List Edit → List Char
  | [] => t.slice p t.size
  | e :: es => t.slice p e.range.start ++ e.replacement.chars ++ splice t e.range.stop es

/-- Edits that stand in a text one after the other, the first at `p` or later. -/
inductive InOrder (t : Text) : Nat → List Edit → Prop where
  | nil {p : Nat} : InOrder t p []
  | cons {p : Nat} {e : Edit} {es : List Edit} : p ≤ e.range.start → e.Fits t →
      InOrder t e.range.stop es → InOrder t p (e :: es)

theorem inOrder_of_pairwise (fits : ∀ e ∈ es, e.Fits t) (order : es.Pairwise Precedes)
    (hp : ∀ e ∈ es, p ≤ e.range.start) : InOrder t p es := by
  induction es generalizing p with
  | nil => exact .nil
  | cons e es ih =>
    obtain ⟨first, order⟩ := List.pairwise_cons.mp order
    refine .cons (hp e (by simp)) (fits e (by simp)) (ih ?_ order fun a ha => (first a ha).1)
    exact fun a ha => fits a (by simp [ha])

/-- Made from the last to the first, the edits of a batch replace their ranges and keep the rest. -/
theorem foldr_replace (h : InOrder t p es) (hp : t.isBoundary p = true) :
    (es.foldr (fun e out => out.replace e.range e.replacement) t).chars =
      t.slice 0 p ++ splice t p es := by
  induction h with
  | nil =>
    rw [List.foldr_nil, splice, t.slice_append_slice (Nat.zero_le _) (Text.isBoundary_le_size hp),
      t.slice_size]
  | @cons p e es hle hfits htail ih =>
    -- the later edits are made, and up to where this one stops the text is still `t`
    have hrest := ih hfits.stop
    have hlength := e.range.start_le_stop
    rw [← t.slice_append_slice (Nat.zero_le e.range.start) hlength, List.append_assoc] at hrest
    rw [List.foldr_cons, Text.chars_replace_of_append hrest
      (Text.byteLength_slice_zero hfits.start).symm ?_]
    · rw [splice, ← t.slice_append_slice (Nat.zero_le p) hle]
      simp only [List.append_assoc]
    · rw [Text.byteLength_slice_zero hfits.start,
        Text.byteLength_slice hfits.start hfits.stop hlength]

theorem byteLength_splice (h : InOrder t p es) (hp : t.isBoundary p = true) :
    (byteLength (splice t p es) : Int) = t.size - p + (es.map delta).sum := by
  induction h with
  | nil =>
    have hrest := Text.byteLength_slice hp t.isBoundary_size (Text.isBoundary_le_size hp)
    rw [splice, List.map_nil, List.sum_nil]
    omega
  | @cons p e es hle hfits htail ih =>
    have hrest := ih hfits.stop
    have hbefore := Text.byteLength_slice hp hfits.start hle
    have hlength := e.range.start_le_stop
    rw [splice, byteLength_append, byteLength_append, List.map_cons, List.sum_cons, delta,
      Range.length, Text.size_eq_byteLength e.replacement]
    omega

section Permutation

/-- The places of a sorted batch do not depend on the order in which it was given. -/
theorem map_range_sort (h : es'.Perm es) : (sort es').map range = (sort es).map range := by
  have sorted : ∀ xs : List Edit, ((sort xs).map range).Pairwise fun r s =>
      r.start < s.start ∨ r.start = s.start ∧ r.stop ≤ s.stop :=
    fun xs => List.pairwise_map.mpr (sort_pairwise xs)
  refine List.Perm.eq_of_pairwise ?_ (sorted es') (sorted es) ?_
  · rintro ⟨a, b, _⟩ ⟨c, d, _⟩ - - hrs hsr
    simp only at hrs hsr
    obtain ⟨rfl, rfl⟩ : a = c ∧ b = d := by omega
    rfl
  · exact ((sort_perm es').trans (h.trans (sort_perm es).symm)).map range

theorem findSome?_placeError? (es : List Edit) : es.findSome? (placeError? t) =
    (es.map range).findSome? fun r => placeError? t ⟨r, t⟩ := by
  rw [List.findSome?_map]
  rfl

theorem clash?_congr (h : es.map range = es'.map range) : clash? es = clash? es' := by
  fun_induction clash? es generalizing es' with
  | case1 a b es hclash =>
    obtain ⟨c, cs, rfl, hc, h⟩ := List.map_eq_cons_iff.mp h.symm
    obtain ⟨d, ds, rfl, hd, h⟩ := List.map_eq_cons_iff.mp h
    rw [clash?, hc, hd, if_pos hclash]
  | case2 a b es hclash ih =>
    obtain ⟨c, cs, rfl, hc, h⟩ := List.map_eq_cons_iff.mp h.symm
    obtain ⟨d, ds, rfl, hd, h⟩ := List.map_eq_cons_iff.mp h
    rw [clash?, hc, hd, if_neg hclash]
    exact ih (by rw [List.map_cons, List.map_cons, hd, h])
  | case3 es hshort =>
    match es', h with
    | [], _ => rfl
    | [c], _ => rfl
    | c :: d :: ds, h =>
      obtain ⟨a, as, rfl, -, h⟩ := List.map_eq_cons_iff.mp h
      obtain ⟨b, bs, rfl, -, h⟩ := List.map_eq_cons_iff.mp h
      exact (hshort a b bs rfl).elim

/-- What is wrong with a batch is told by its places alone. -/
theorem batchError?_congr (h : es.map range = es'.map range) :
    batchError? t es = batchError? t es' := by
  rw [batchError?, batchError?, findSome?_placeError?, findSome?_placeError?, h, clash?_congr h]

theorem sort_precedes (h : es.Pairwise Apart) : (sort es).Pairwise Precedes :=
  List.isChain_iff_pairwise.mp ((clash?_eq_none _).mp ((clash?_sort_eq_none es).mpr h))

/-- Edits that can be made together have one order of place only. -/
theorem sort_eq_of_perm (h : es'.Perm es) (apart : es.Pairwise Apart) : sort es' = sort es := by
  have apart' : es'.Pairwise Apart := (h.pairwise_iff Apart.symm).mpr apart
  refine List.Perm.eq_of_pairwise ?_ (sort_precedes apart') (sort_precedes apart)
    ((sort_perm es').trans (h.trans (sort_perm es).symm))
  intro a b _ _ hab hba
  have ha := a.range.start_le_stop
  have hb := b.range.start_le_stop
  refine (hab.2 ?_).elim
  have := hab.1
  have := hba.1
  exact ⟨by omega, by omega, by omega⟩

theorem applyAll_perm (h : es'.Perm es) : applyAll t es' = applyAll t es := by
  have herror : batchError? t (sort es') = batchError? t (sort es) :=
    batchError?_congr (map_range_sort h)
  rw [applyAll, applyAll, normalize, normalize, herror]
  cases hbatch : batchError? t (sort es) with
  | some error => rfl
  | none =>
    -- only now the replacements matter, and no two edits have the same place
    obtain ⟨-, apart⟩ := (batchError?_sort_eq_none es).mp hbatch
    rw [sort_eq_of_perm h apart]

end Permutation

/-- A batch that is accepted stands in the text in order, and replaces its ranges. -/
theorem applyAll_eq_ok {out : Text} (h : applyAll t es = .ok out) :
    InOrder t 0 (sort es) ∧ out.chars = splice t 0 (sort es) := by
  rw [applyAll, normalize] at h
  cases hbatch : batchError? t (sort es) with
  | some error =>
    rw [hbatch] at h
    cases h
  | none =>
    rw [hbatch] at h
    cases h
    obtain ⟨fits, apart⟩ := (batchError?_sort_eq_none es).mp hbatch
    have order : InOrder t 0 (sort es) :=
      inOrder_of_pairwise (fun e he => fits e ((sort_perm es).mem_iff.mp he)) (sort_precedes apart)
        fun e _ => Nat.zero_le _
    refine ⟨order, ?_⟩
    rw [foldr_replace order t.isBoundary_zero, t.slice_self, List.nil_append]

end Edit

end BraceScopes
