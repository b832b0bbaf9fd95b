import BraceScopes.Proofs.Scan.Lane
/-!
What a declaration takes in before its name: words, type arguments, array brackets, and annotations with
their arguments. Going back from the name takes in the longest stretch of these and no more.
-/
namespace BraceScopes

/-- Pieces that belong to a declaration before its name. A group in parentheses belongs to the annotation
before it. -/
inductive Heading (t : Text) : List Piece → Prop
  | nil : Heading t []
  | piece {us : List Piece} {u : Piece} (rest : Heading t us) (leading : u.IsLeading) :
      Heading t (us ++ [u])
  | annotated {us : List Piece} {a g : Piece} (rest : Heading t us) (word : a.kind = .ident)
      (sign : t.charAt a.start = some '@') (arguments : g.kind = .group '(') : Heading t (us ++ [a, g])

theorem Piece.IsLeading.isUnit {u : Piece} (h : u.IsLeading) : u.IsUnit := by
  rcases h with h | h | h
  · exact .inl h
  · exact .inr (.inr (.inr h))
  · exact .inr (.inr (.inl h))

theorem Heading.append {t : Text} {us vs : List Piece} (h : Heading t us) (h' : Heading t vs) :
    Heading t (us ++ vs) := by
  induction h' with
  | nil => simpa using h
  | piece _ leading ih =>
    rw [← List.append_assoc]
    exact .piece ih leading
  | annotated _ word sign arguments ih =>
    rw [← List.append_assoc]
    exact .annotated ih word sign arguments

namespace Lexed

variable {ix : Lexed} {e p q : Nat} {u : Piece} {us : List Piece}

namespace IsJava

variable (hix : ix.IsJava)

include hix

theorem last_of_pieceBefore (hp : ix.CodeGap p) (h : ix.pieceBefore? .angle p 0 = some u) :
    ix.Last .angle 0 p (some u) := by
  have hlast := hix.pieceBefore_spec (m := .angle) hix.codeGap_zero hp (Nat.zero_le p)
  rwa [h] at hlast

/-- A piece that is read back, as pieces up to the place it was read from. -/
theorem units_pieceBefore (hp : ix.CodeGap p) (h : ix.pieceBefore? .angle p 0 = some u)
    (hu : u.IsUnit) : ix.Units u.start p [u] ∧ ix.Edge 0 u.start ∧ ix.CodeGap u.start := by
  have hlast := hix.last_of_pieceBefore hp h
  obtain ⟨hunits, hedge⟩ := hix.units_of_last hlast hu (.nil (.nil p)) (.inl ⟨rfl, rfl⟩)
  exact ⟨hunits, hedge, hix.codeGap_of_last hlast⟩

/-- What is taken in by one step back. -/
theorem heading_of_leadingPiece (hp : ix.CodeGap p) (h : ix.leadingPiece? 0 p = some q) :
    ∃ us, ix.Units q p us ∧ Heading ix.text us ∧ ix.Edge 0 q ∧ ix.CodeGap q := by
  obtain ⟨u, hu, ⟨hkind, rfl⟩ | ⟨hkind, a, ha, hident, hsign, rfl⟩⟩ := leadingPiece_eq_some.mp h
  · have hleading : u.IsLeading := hkind
    obtain ⟨hunits, hedge, hgap⟩ := hix.units_pieceBefore hp hu hleading.isUnit
    exact ⟨[u], hunits, .piece .nil hleading, hedge, hgap⟩
  · obtain ⟨hgroup, hedge, hgap⟩ := hix.units_pieceBefore hp hu (.inr (.inl hkind))
    obtain ⟨hword, hedge', hgap'⟩ := hix.units_pieceBefore hgap ha (.inl hident)
    have hle := (hix.le_of_units hword).1
    have hunits := hix.units_append hword hgroup (hedge.mono (Nat.zero_le _) hle)
    exact ⟨[a, u], hunits, .annotated .nil hident hsign hkind, hedge', hgap'⟩

/-- Going back over a declaration takes in a heading. -/
theorem heading_of_extendBack (hp : ix.CodeGap p) :
    ∃ us, ix.Units (ix.extendBack 0 p) p us ∧ Heading ix.text us ∧ ix.CodeGap (ix.extendBack 0 p) := by
  induction p using Nat.strongRecOn with
  | ind p ih =>
    cases hq : ix.leadingPiece? 0 p with
    | none =>
      rw [extendBack_of_none hq]
      exact ⟨[], .nil (.nil p), .nil, hp⟩
    | some q =>
      obtain ⟨vs, hvs, hheading, hedge, hgap⟩ := hix.heading_of_leadingPiece hp hq
      obtain ⟨us, hus, hheading', hgap'⟩ := ih q (leadingPiece_lt hq) hgap
      rw [extendBack_of_leadingPiece hq]
      have hle := (hix.le_of_units hus).1
      exact ⟨us ++ vs, hix.units_append hus hvs (hedge.mono (Nat.zero_le _) hle),
        hheading'.append hheading, hgap'⟩

theorem pieceBefore_of_last (hp : ix.CodeGap p) (h : ix.Last .angle 0 p (some u)) (hu : u.IsUnit) :
    ix.pieceBefore? .angle p 0 = some u := by
  refine hix.pieceBefore_eq_some hp h fun hliteral => ?_
  simp [Piece.IsUnit, hliteral] at hu

/-- Going back over a heading that begins where a member may begin leads to its start. -/
theorem extendBack_of_heading (hstart : ix.MemberStart e) (h : Heading ix.text us)
    (hus : ix.Units e p us) (hp : ix.CodeGap p) : ix.Trivia e (ix.extendBack 0 p) := by
  have hzero := hix.codeGap_zero
  have hedge : ix.Edge 0 e := .inl (hstart.stops hix)
  induction h generalizing p with
  | nil =>
    cases hus with
    | nil trivia =>
      obtain ⟨k, htrivia, hbefore⟩ := hstart
      have hmember : ix.MemberStart p := ⟨k, htrivia.trans trivia, hbefore⟩
      rw [hmember.extendBack_eq hix hp]
      exact trivia
  | @piece us u rest leading ih =>
    obtain ⟨hlast, hunits⟩ := hix.last_of_units_concat hus (Nat.zero_le e) hedge
    have hpiece := hix.pieceBefore_of_last hp hlast leading.isUnit
    rw [extendBack_of_leadingPiece (leadingPiece_eq_some.mpr ⟨u, hpiece, .inl ⟨leading, rfl⟩⟩)]
    exact ih hunits (hix.codeGap_of_last hlast)
  | @annotated us a g rest word sign arguments ih =>
    rw [show us ++ [a, g] = (us ++ [a]) ++ [g] by simp] at hus
    obtain ⟨hlast, hunits⟩ := hix.last_of_units_concat hus (Nat.zero_le e) hedge
    obtain ⟨hlast', hunits'⟩ := hix.last_of_units_concat hunits (Nat.zero_le e) hedge
    have hgap := hix.codeGap_of_last hlast
    have hpiece := hix.pieceBefore_of_last hp hlast (.inr (.inl arguments))
    have hpiece' := hix.pieceBefore_of_last hgap hlast' (.inl word)
    rw [extendBack_of_leadingPiece (leadingPiece_eq_some.mpr
      ⟨g, hpiece, .inr ⟨arguments, a, hpiece', word, sign, rfl⟩⟩)]
    exact ih hunits' (hix.codeGap_of_last hlast')

end IsJava

end Lexed

end BraceScopes
