import BraceScopes.Proofs.Document.Edits
import BraceScopes.Proofs.Text.Splice
import Mathlib.Algebra.BigOperators.Group.List.Basic
/-!
A batch of edits made at once and the same edits made one after the other. An edit moves what stands
after it by its delta, so in turn each edit is made as far off as the deltas before it add up to.
-/
namespace BraceScopes

namespace Edit

/-- The same replacement for as many bytes, at another place. -/
def moveTo (e : Edit) (p : Nat) : Edit :=
  ⟨⟨p, p + e.range.length, Nat.le_add_right _ _⟩, e.replacement⟩

/-- The edits of the second list are those of the first, the first of them moved by `n` bytes and each
later one also by the deltas of those before it. -/
inductive Shifted : Int → List Edit → List Edit → Prop where
  | nil {n : Int} : Shifted n [] []
  | cons {n : Int} {p : Nat} {e : Edit} {es moved : List Edit} : (p : Int) = e.range.start + n →
      Shifted (n + e.delta) es moved → Shifted n (e :: es) (e.moveTo p :: moved)

variable {t out : Text} {e : Edit} {left : List Char}

/-- Where a text goes on like another one from the start of an edit, the edit is made there as well. -/
theorem moveTo_made (hfits : e.Fits t) (hout : out.chars = left ++ t.slice e.range.start t.size) :
    (e.moveTo (byteLength left)).Fits out ∧
      (out.replace (e.moveTo (byteLength left)).range e.replacement).chars =
        left ++ e.replacement.chars ++ t.slice e.range.stop t.size := by
  have hlength := e.range.start_le_stop
  have hrange := Text.byteLength_slice hfits.start hfits.stop hlength
  rw [← t.slice_append_slice hlength hfits.stop_le] at hout
  have hstop : (e.moveTo (byteLength left)).range.stop =
      byteLength left + byteLength (t.slice e.range.start e.range.stop) := by
    change byteLength left + (e.range.stop - e.range.start) = _
    omega
  exact ⟨fits_of_append hout rfl hstop, Text.chars_replace_of_append hout rfl hstop⟩

end Edit

namespace Document

open Edit

variable {σ : Type} {t out : Text} {es : List Edit}

/-- Where everything from `p` on still stands as in `t`, moved by `n` bytes, edits that follow each other
from `p` on are made in turn when they are moved with it. -/
theorem applyEdits_shifted (notify : σ → Nat → σ) (seen : σ) (version : Int) {p : Nat} {n : Int}
    {before : List Char} (h : InOrder t p es) (hp : t.isBoundary p = true)
    (hout : out.chars = before ++ t.slice p t.size) (hn : (byteLength before : Int) = p + n) :
    ∃ moved out', Shifted n es moved ∧
      (ofText out version).applyEdits notify seen moved =
        .ok (ofText out' version, told notify seen moved) ∧
      out'.chars = before ++ splice t p es := by
  -- `before` is what the edits so far have left, and it ends where `p` now is
  induction h generalizing out before n seen with
  | nil => exact ⟨[], out, .nil, rfl, hout⟩
  | @cons p e es hle hfits htail ih =>
    have hbefore := Text.byteLength_slice hp hfits.start hle
    have hlength := e.range.start_le_stop
    rw [← t.slice_append_slice hle (Nat.le_trans hlength hfits.stop_le), ← List.append_assoc] at hout
    obtain ⟨hfits', hmade⟩ := moveTo_made hfits hout
    have hplace : (byteLength (before ++ t.slice p e.range.start) : Int) = e.range.start + n := by
      rw [byteLength_append]
      omega
    have hnext : (byteLength (before ++ t.slice p e.range.start ++ e.replacement.chars) : Int) =
        e.range.stop + (n + e.delta) := by
      rw [byteLength_append, delta, Range.length, Text.size_eq_byteLength e.replacement]
      omega
    obtain ⟨moved, out', hshifted, hrun, hchars⟩ := ih _ hfits.stop hmade hnext
    refine ⟨_, out', .cons hplace hshifted, ?_, ?_⟩
    · rw [applyEdits_cons_of_fits hfits']
      exact hrun
    · rw [hchars, splice]
      simp only [List.append_assoc]

/-- The edits of a batch act at once. In whatever order the batch is given its outcome is the same, also
when it is refused. An accepted batch leaves the stretches between its ranges, with the replacements
in order of place between them, and the length changes by the deltas. A document on which the edits
are made in turn, each moved by the deltas before it, ends with the same text. -/
theorem applyAll_simultaneous (notify : σ → Nat → σ) (seen : σ) (t : Text) (version : Int)
    (es : List Edit) :
    (∀ es', es'.Perm es → applyAll t es' = applyAll t es) ∧
    ∀ out, applyAll t es = .ok out →
      out.chars = splice t 0 (sort es) ∧
      (out.size : Int) = t.size + (es.map delta).sum ∧
      ∃ moved, Shifted 0 (sort es) moved ∧
        (ofText t version).applyEdits notify seen moved =
          .ok (ofText out version, told notify seen moved) := by
  refine ⟨fun es' => applyAll_perm, fun out hout => ?_⟩
  obtain ⟨order, hchars⟩ := applyAll_eq_ok hout
  refine ⟨hchars, ?_, ?_⟩
  · have hsum : ((sort es).map delta).sum = (es.map delta).sum := ((sort_perm es).map delta).sum_eq
    rw [Text.size_eq_byteLength out, hchars, byteLength_splice order t.isBoundary_zero, hsum]
    simp
  · have hwhole : t.chars = [] ++ t.slice 0 t.size := by rw [t.slice_size, List.nil_append]
    obtain ⟨moved, out', hshifted, hrun, hchars'⟩ :=
      applyEdits_shifted notify seen version order t.isBoundary_zero hwhole (n := 0) rfl
    obtain rfl : out' = out := Text.ext (by rw [hchars', hchars, List.nil_append])
    exact ⟨moved, hshifted, hrun⟩

/-- Edits that touch each other, given from the last to the first: a deletion, an insertion before it, a
replacement up to there, and an insertion before that. -/
theorem applyAll_simultaneous_adjacent :
    let t : Text := .ofString "é😀b"
    let es : List Edit := [⟨⟨6, 7, by decide⟩, .ofString ""⟩, ⟨⟨6, 6, by decide⟩, .ofString "é"⟩,
      ⟨⟨2, 6, by decide⟩, .ofString "x"⟩, ⟨⟨2, 2, by decide⟩, .ofString "ab"⟩]
    let out : Text := .ofString "éabxé"
    applyAll t es = .ok out ∧ applyAll t es.reverse = applyAll t es ∧
      (out.size : Int) = t.size + (es.map delta).sum ∧
      ∃ moved, Shifted 0 (sort es) moved ∧
        (ofText t 1).applyEdits (fun (u : Unit) _ => u) () moved =
          .ok (ofText out 1, told (fun (u : Unit) _ => u) () moved) := by
  intro t es out
  have hsort : sort es.reverse = es.reverse := List.mergeSort_of_pairwise (by decide +kernel)
  have hout : applyAll t es = .ok out := by
    rw [← applyAll_perm es.reverse_perm, applyAll, Edit.normalize, hsort]
    decide +kernel
  obtain ⟨perm, made⟩ := applyAll_simultaneous (fun (u : Unit) _ => u) () t 1 es
  obtain ⟨-, hsize, hturn⟩ := made out hout
  exact ⟨hout, perm es.reverse es.reverse_perm, hsize, hturn⟩

end Document

end BraceScopes
