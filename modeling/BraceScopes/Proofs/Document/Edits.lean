import BraceScopes.Document
import BraceScopes.Proofs.Text.Batch
import BraceScopes.Proofs.Text.Slice
/-!
Edits of a document, alone and one after the other. An edit is made exactly if it fits the text, and the
line table is then that of the new text.
-/
namespace BraceScopes

namespace Edit

variable {t : Text} {e : Edit} {u v w : List Char}

/-- An edit of one part of a text fits the text. -/
theorem fits_of_append (h : t.chars = u ++ (v ++ w)) (hstart : e.range.start = byteLength u)
    (hstop : e.range.stop = byteLength u + byteLength v) : e.Fits t := by
  have hright : t.isBoundary (byteLength (u ++ v)) = true :=
    Text.isBoundary_byteLength (v := w) (by simpa using h)
  rw [byteLength_append, ← hstop] at hright
  refine ⟨Text.isBoundary_le_size hright, ?_, hright⟩
  rw [hstart]
  exact Text.isBoundary_byteLength h

/-- An edit that fits takes out one part of the text and leaves its own text there. -/
theorem Fits.replace (h : e.Fits t) : ∃ u v w, t.chars = u ++ (v ++ w) ∧
    byteLength u = e.range.start ∧ byteLength (u ++ v) = e.range.stop ∧
    (t.replace e.range e.replacement).chars = u ++ e.replacement.chars ++ w := by
  have hle := e.range.start_le_stop
  have hu := Text.byteLength_slice_zero h.start
  have hv := Text.byteLength_slice h.start h.stop hle
  have hchars := t.chars_eq_slices hle h.stop_le
  refine ⟨_, _, _, hchars, hu, ?_, Text.chars_replace_of_append hchars hu.symm ?_⟩
  · rw [byteLength_append, hu, hv]
  · rw [hu, hv]

end Edit

namespace Document

variable {σ : Type} {notify : σ → Nat → σ} {seen : σ} {t : Text} {d : Document} {e : Edit}
  {es : List Edit} {version : Int}

/-- Makes edits one after the other, up to one that is refused. -/
def applyEdits (notify : σ → Nat → σ) (d : Document) (seen : σ) (es : List Edit) :
    Except DocumentError (Document × σ) :=
  es.foldlM (fun state e => state.1.applyEdit notify state.2 e) (d, seen)

/-- The state of a watcher that was told where some edits start, one after the other. -/
def told (notify : σ → Nat → σ) (seen : σ) (es : List Edit) : σ :=
  (es.map (·.range.start)).foldl notify seen

theorem editError?_eq_none : d.editError? e = none ↔ e.Fits d.text := by
  rw [← Edit.placeError?_eq_none, editError?, Edit.placeError?]
  split
  · simp
  split
  · simp
  split <;> simp

theorem applyEdit_of_fits (h : e.Fits t) : (ofText t version).applyEdit notify seen e =
    .ok (ofText (t.replace e.range e.replacement) version, notify seen e.range.start) := by
  rw [applyEdit, editError?_eq_none.mpr (show e.Fits (ofText t version).text from h)]
  rfl

theorem applyEdits_cons_of_fits (h : e.Fits t) :
    (ofText t version).applyEdits notify seen (e :: es) =
      (ofText (t.replace e.range e.replacement) version).applyEdits notify
        (notify seen e.range.start) es := by
  rw [applyEdits, List.foldlM_cons, applyEdit_of_fits h]
  rfl

end Document

end BraceScopes
