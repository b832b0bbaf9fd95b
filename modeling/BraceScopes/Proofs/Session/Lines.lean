import BraceScopes.Proofs.Session.Run
/-!
The line table of a session is that of its text after every request, edits behind its back included, and
its rules never change.
-/
namespace BraceScopes

namespace Document

variable {σ : Type} {notify : σ → Nat → σ} {d d' : Document} {seen seen' : σ} {e : Edit}

/-- The line table is that of the text. -/
def Indexed (d : Document) : Prop := d.lines = .ofText d.text

theorem indexed_applyEdit (h : d.applyEdit notify seen e = .ok (d', seen')) : d'.Indexed := by
  unfold applyEdit at h
  split at h
  next => cases h
  next =>
    cases h
    rfl

theorem Indexed.applyEach (h : d.Indexed) (notify : σ → Nat → σ) (seen : σ) (cs : List Change) :
    (d.applyEach notify seen cs).1.1.Indexed := by
  induction cs generalizing d seen with
  | nil => exact h
  | cons c cs ih =>
    rw [Document.applyEach]
    split
    next => exact h
    next d' seen' he => exact ih (indexed_applyEdit he) seen'

theorem Indexed.applyChanges (h : d.Indexed) (notify : σ → Nat → σ) (seen : σ) (version : Int)
    (cs : List Change) : (d.applyChanges notify seen version cs).1.1.Indexed := by
  have each := h.applyEach notify seen cs
  unfold Document.applyChanges
  generalize d.applyEach notify seen cs = out at each ⊢
  obtain ⟨⟨d', seen'⟩, result⟩ := out
  cases result with
  | ok edits => exact each
  | error error => exact each

end Document

namespace Session

/-- The session has the rules `r` and the line table of its text. -/
structure Indexed (r : Rules) (s : Session) : Prop where
  rules : s.rules = r
  document : s.document.Indexed

namespace Indexed

variable {r : Rules} {s s' : Session}

theorem new (t : Text) (r : Rules) (cfg : ScopeConfig) (chain : List Detector) :
    Indexed r (new t r cfg chain) :=
  ⟨rfl, rfl⟩

theorem congr (h : Indexed r s) (rules : s'.rules = s.rules) (document : s'.document = s.document) :
    Indexed r s' :=
  ⟨rules.trans h.rules, document ▸ h.document⟩

theorem resolve (h : Indexed r s) : Indexed r s.resolve := by
  unfold Session.resolve
  split
  next => exact h.congr rfl rfl
  next => exact h

theorem dropStale (h : Indexed r s) : Indexed r s.dropStale :=
  h.congr s.dropStale_fields.2.1 s.dropStale_fields.1

theorem applyEdit {e : Edit} (h : Indexed r s) (he : s.applyEdit e = .ok s') : Indexed r s' := by
  unfold Session.applyEdit at he
  split at he
  next => cases he
  next d m hd =>
    cases he
    have edited : Indexed r { s with document := d, watermark := m } :=
      ⟨h.rules, Document.indexed_applyEdit hd⟩
    exact edited.dropStale.congr rfl rfl

theorem applyChanges (h : Indexed r s) (version : Int) (cs : List Change) :
    Indexed r (s.applyChanges version cs).1 := by
  have hd := h.document.applyChanges s.notice s.watermark version cs
  unfold Session.applyChanges
  generalize s.document.applyChanges s.notice s.watermark version cs = out at hd ⊢
  obtain ⟨⟨d, m⟩, result⟩ := out
  have changed : Indexed r { s with document := d, watermark := m } := ⟨h.rules, hd⟩
  exact changed.dropStale.congr rfl rfl

theorem applySuspended (h : Indexed r s) (es : List Edit) : Indexed r (s.applySuspended es).1 := by
  induction es generalizing s with
  | nil => exact h
  | cons e es ih =>
    unfold Session.applySuspended
    split
    next s' hs' =>
      unfold applyUnnoticed at hs'
      split at hs'
      next => cases hs'
      next d m hd =>
        cases hs'
        have edited : Indexed r { s with document := d } := ⟨h.rules, Document.indexed_applyEdit hd⟩
        exact ih (edited.congr rfl rfl)
    next => exact ih h

theorem perform (h : Indexed r s) (q : Request) : Indexed r (s.perform q) := by
  cases q with
  | edit e =>
    change Indexed r ((s.applyEdit e).toOption.getD s)
    cases he : s.applyEdit e with
    | error => exact h
    | ok s' => exact h.applyEdit he
  | changes version cs => exact h.applyChanges version cs
  | invalidate p =>
    have lowered : Indexed r { s with watermark := s.watermark.lower p } := h.congr rfl rfl
    exact lowered.dropStale
  | suspended es => exact h.applySuspended es
  | push d => exact h.congr rfl rfl
  | interfaceAbstract owner =>
    change Indexed r (s.interfaceAbstractMethods owner).2
    unfold interfaceAbstractMethods
    split
    next => exact h
    next =>
      simp only
      split
      · exact h.resolve
      · exact h.resolve
  | resolve | scopeAt | enclosing | scopes | declarationStart | package | imports | classAbstract =>
    exact h.resolve

theorem run (h : Indexed r s) (rs : List Request) : Indexed r (s.run rs) := by
  induction rs generalizing s with
  | nil => exact h
  | cons q rs ih => exact ih (h.perform q)

end Indexed

end Session

end BraceScopes
