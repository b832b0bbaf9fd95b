import BraceScopes.Proofs.Document.Edits
import BraceScopes.Proofs.Text.Positions
/-!
Changes of a document by line and character. Whatever positions a change names, the edit made of it fits
the text as changed so far, so changes are never refused, and the edits that come out make the same
changes again.
-/
namespace BraceScopes

namespace Edit

/-- An edit between two places that cut no character fits the text, in whichever order they come. -/
theorem fits_between {t new : Text} {p q : Nat} (hp : t.isBoundary p = true)
    (hq : t.isBoundary q = true) : Fits ⟨.between p q, new⟩ t := by
  have hps := Text.isBoundary_le_size hp
  have hqs := Text.isBoundary_le_size hq
  refine ⟨?_, ?_, ?_⟩
  · change max p q ≤ t.size
    omega
  · change t.isBoundary (min p q) = true
    rcases Nat.le_total p q with hle | hle
    · rwa [Nat.min_eq_left hle]
    · rwa [Nat.min_eq_right hle]
  · change t.isBoundary (max p q) = true
    rcases Nat.le_total p q with hle | hle
    · rwa [Nat.max_eq_right hle]
    · rwa [Nat.max_eq_left hle]

end Edit

namespace Document

variable {σ : Type} {notify : σ → Nat → σ} {seen : σ} {t : Text} {c : Change} {cs : List Change}
  {version : Int}

/-- The edit made of a change fits the text, whatever positions the change names. -/
theorem editOfChange_fits (t : Text) (version : Int) (c : Change) :
    ((ofText t version).editOfChange c).Fits t :=
  Edit.fits_between (Lines.isBoundary_offsetOf t _) (Lines.isBoundary_offsetOf t _)

theorem offsetOf_zero (t : Text) : (Lines.ofText t).offsetOf t ⟨0, 0⟩ = 0 := by
  obtain ⟨b, hb⟩ := Lines.start?_eq_some.mp (Lines.start?_zero t)
  have hline : (Lines.ofText t).lineOf 0 = 0 := Lines.lineOf_of_mem hb (Nat.le_refl 0) (Nat.zero_le b)
  have hposition : (Lines.ofText t).positionOf t 0 = ⟨0, 0⟩ := by
    rw [Lines.positionOf_eq (by rwa [hline]), hline, Nat.zero_min, Text.slice_self]
    rfl
  rw [← hposition]
  refine Lines.offsetOf_positionOf t.isBoundary_zero ?_
  rintro ⟨q, hq, -, -⟩
  omega

theorem offsetOf_endPosition (t : Text) (version : Int) :
    (Lines.ofText t).offsetOf t (ofText t version).endPosition = t.size := by
  refine Lines.offsetOf_positionOf t.isBoundary_size ?_
  rintro ⟨q, -, -, hfeed⟩
  have hend : t.charAt (ofText t version).text.size = none :=
    Text.charAt_eq_none_of_size_le (Nat.le_refl _)
  rw [hend] at hfeed
  cases hfeed

/-- A change that names no positions leaves its own text and nothing else. -/
theorem replace_whole (h : c.range = none) :
    t.replace ((ofText t version).editOfChange c).range
      ((ofText t version).editOfChange c).replacement = c.text := by
  have hedit : (ofText t version).editOfChange c = ⟨.between 0 t.size, c.text⟩ := by
    rw [editOfChange, h]
    change Edit.mk (.between ((Lines.ofText t).offsetOf t ⟨0, 0⟩)
      ((Lines.ofText t).offsetOf t (ofText t version).endPosition)) c.text = _
    rw [offsetOf_zero, offsetOf_endPosition]
  rw [hedit]
  refine Text.ext ?_
  have hchars : t.chars = [] ++ (t.chars ++ []) := by simp
  have hstop : max 0 t.size = byteLength [] + byteLength t.chars := by
    rw [← Text.size_eq_byteLength, byteLength]
    omega
  have hparts : (t.replace (.between 0 t.size) c.text).chars = [] ++ c.text.chars ++ [] :=
    Text.chars_replace_of_append hchars (Nat.zero_min t.size) hstop
  simpa using hparts

/-- A change between two positions keeps what stands before the earlier one and what stands behind the
later one, and puts its own text between them. -/
theorem replace_ranged (t : Text) (version : Int) {a b : Position} (h : c.range = some (a, b)) :
    let p := (Lines.ofText t).offsetOf t a
    let q := (Lines.ofText t).offsetOf t b
    ∃ u v w, t.chars = u ++ (v ++ w) ∧ byteLength u = min p q ∧ byteLength (u ++ v) = max p q ∧
      (t.replace ((ofText t version).editOfChange c).range
        ((ofText t version).editOfChange c).replacement).chars = u ++ c.text.chars ++ w := by
  intro p q
  have hedit : (ofText t version).editOfChange c = ⟨.between p q, c.text⟩ := by
    rw [editOfChange, h]
    rfl
  have fits := editOfChange_fits t version c
  rw [hedit] at fits ⊢
  exact fits.replace

/-- Some changes of a text, the edits that are made of them one after the other, and the text at the
end. -/
inductive Made (version : Int) : Text → List Change → List Edit → Text → Prop where
  | nil {t : Text} : Made version t [] [] t
  | cons {t t' : Text} {c : Change} {cs : List Change} {e : Edit} {es : List Edit} :
      (ofText t version).editOfChange c = e → Made version (t.replace e.range e.replacement) cs es t' →
      Made version t (c :: cs) (e :: es) t'

theorem exists_made (version : Int) (t : Text) (cs : List Change) :
    ∃ es t', Made version t cs es t' := by
  induction cs generalizing t with
  | nil => exact ⟨[], t, .nil⟩
  | cons c cs ih =>
    obtain ⟨es, t', h⟩ := ih (t.replace ((ofText t version).editOfChange c).range
      ((ofText t version).editOfChange c).replacement)
    exact ⟨_, t', .cons rfl h⟩

namespace Made

variable {es : List Edit} {t' : Text}

theorem length_eq (h : Made version t cs es t') : es.length = cs.length := by
  induction h with
  | nil => rfl
  | cons he h ih => rw [List.length_cons, List.length_cons, ih]

theorem applyEach (h : Made version t cs es t') :
    (ofText t version).applyEach notify seen cs =
      ((ofText t' version, told notify seen es), .ok es) := by
  induction h generalizing seen with
  | nil => rfl
  | @cons t t' c cs e es he h ih =>
    have hfits : e.Fits t := he ▸ editOfChange_fits t version c
    rw [Document.applyEach, he, applyEdit_of_fits hfits]
    simp only [ih]
    rfl

theorem applyChanges (h : Made version t cs es t') (version' : Int) :
    (ofText t version).applyChanges notify seen version' cs =
      ((ofText t' version', told notify seen es), .ok es) := by
  rw [Document.applyChanges, h.applyEach]
  rfl

theorem applyEdits (h : Made version t cs es t') :
    (ofText t version).applyEdits notify seen es = .ok (ofText t' version, told notify seen es) := by
  induction h generalizing seen with
  | nil => rfl
  | @cons t t' c cs e es he h ih =>
    have hfits : e.Fits t := he ▸ editOfChange_fits t version c
    rw [applyEdits_cons_of_fits hfits, ih]
    rfl

/-- After each of the changes there is a text that the edits so far lead to. -/
theorem take (h : Made version t cs es t') (n : Nat) :
    ∃ t'', Made version t (cs.take n) (es.take n) t'' := by
  induction h generalizing n with
  | @nil t => exact ⟨t, by simpa using .nil⟩
  | @cons t t' c cs e es he h ih =>
    cases n with
    | zero => exact ⟨t, by simpa using .nil⟩
    | succ n =>
      obtain ⟨t'', h'⟩ := ih n
      exact ⟨t'', .cons he h'⟩

/-- The last change is made on the text that the changes before it leave. -/
theorem of_concat (h : Made version t (cs ++ [c]) es t') :
    ∃ es' t'', Made version t cs es' t'' ∧
      t' = t''.replace ((ofText t'' version).editOfChange c).range
        ((ofText t'' version).editOfChange c).replacement := by
  induction cs generalizing t es with
  | nil =>
    cases h with
    | cons he rest =>
      cases rest
      exact ⟨[], t, .nil, by rw [he]⟩
  | cons d cs ih =>
    cases h with
    | cons he rest =>
      obtain ⟨es', t'', before, hlast⟩ := ih rest
      exact ⟨_ :: es', t'', .cons he before, hlast⟩

theorem text_eq_of_last (h : Made version t cs es t') (hlast : cs.getLast? = some c)
    (hnone : c.range = none) : t' = c.text := by
  obtain ⟨before, rfl⟩ := List.getLast?_eq_some_iff.mp hlast
  obtain ⟨es', t'', -, rfl⟩ := h.of_concat
  exact replace_whole hnone

end Made

/-- Changes are never refused, whatever positions they name. Afterwards the document has the new
version and the line table of its text. The edits that come out, made one after the other on the
document as it was, give the same text, and the watcher was told where they start. After a change that
names no positions the text is that of the change. -/
theorem applyChanges_accepts (notify : σ → Nat → σ) (t : Text) (version version' : Int) (seen : σ)
    (cs : List Change) :
    ∃ t' es, es.length = cs.length ∧
      (ofText t version).applyChanges notify seen version' cs =
        ((ofText t' version', told notify seen es), .ok es) ∧
      (ofText t version).applyEdits notify seen es = .ok (ofText t' version, told notify seen es) ∧
      ∀ i c, cs[i]? = some c → c.range = none →
        (ofText t version).applyChanges notify seen version' (cs.take (i + 1)) =
          ((ofText c.text version', told notify seen (es.take (i + 1))), .ok (es.take (i + 1))) := by
  obtain ⟨es, t', made⟩ := exists_made version t cs
  refine ⟨t', es, made.length_eq, made.applyChanges version', made.applyEdits, fun i c hc hnone => ?_⟩
  obtain ⟨t'', before⟩ := made.take (i + 1)
  have hlast : (cs.take (i + 1)).getLast? = some c := by simp [List.getLast?_take, hc]
  obtain rfl := before.text_eq_of_last hlast hnone
  exact before.applyChanges version'

/-- A change from past the end back into a surrogate pair, and then one of the whole document. -/
theorem applyChanges_accepts_reversed :
    let t : Text := .ofString "a😀\nb"
    let cs : List Change :=
      [⟨some (⟨9, 0⟩, ⟨0, 2⟩), .ofString "x"⟩, ⟨none, .ofString "é\r"⟩, ⟨none, .ofString ""⟩]
    let notify := fun (seen : List Nat) p => seen ++ [p]
    ∃ t' es, ((ofText t 1).applyChanges notify [] 2 cs).2 = .ok es ∧
      (ofText t 1).applyEdits notify [] es = .ok (ofText t' 1, told notify [] es) ∧
      (ofText t 1).applyChanges notify [] 2 (cs.take 2) =
        ((ofText (.ofString "é\r") 2, told notify [] (es.take 2)), .ok (es.take 2)) := by
  intro t cs notify
  obtain ⟨t', es, -, hchanges, hreplay, hwhole⟩ := applyChanges_accepts notify t 1 2 [] cs
  exact ⟨t', es, by rw [hchanges], hreplay, hwhole 1 _ rfl rfl⟩

/-- One more change, between two positions of the text that the changes before it left. What stands there
before the earlier position and behind the later one is kept. -/
theorem applyChanges_concat_ranged (notify : σ → Nat → σ) (t : Text) (version version' : Int) (seen : σ)
    (cs : List Change) (a b : Position) (new : Text) :
    ∃ t' t'' es es' u v w,
      (ofText t version).applyChanges notify seen version' cs =
        ((ofText t' version', told notify seen es), .ok es) ∧
      (ofText t version).applyChanges notify seen version' (cs ++ [⟨some (a, b), new⟩]) =
        ((ofText t'' version', told notify seen es'), .ok es') ∧
      t'.chars = u ++ (v ++ w) ∧ t''.chars = u ++ new.chars ++ w ∧
      byteLength u = min ((Lines.ofText t').offsetOf t' a) ((Lines.ofText t').offsetOf t' b) ∧
      byteLength (u ++ v) = max ((Lines.ofText t').offsetOf t' a) ((Lines.ofText t').offsetOf t' b) := by
  obtain ⟨es', t'', made⟩ := exists_made version t (cs ++ [⟨some (a, b), new⟩])
  obtain ⟨es, t', before, rfl⟩ := made.of_concat
  obtain ⟨u, v, w, hchars, hu, hv, hnew⟩ :=
    replace_ranged t' version (show (Change.mk (some (a, b)) new).range = some (a, b) from rfl)
  exact ⟨t', _, es, es', u, v, w, before.applyChanges version', made.applyChanges version', hchars, hnew,
    hu, hv⟩

end Document

end BraceScopes
