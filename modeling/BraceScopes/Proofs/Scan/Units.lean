import BraceScopes.Proofs.Scan.Word
/-!
The pieces of a type, read from left to right. Reading them back from their end gives the same pieces
one after the other.
-/
namespace BraceScopes

/-- An identifier, or a group other than a block. -/
def Piece.IsUnit (u : Piece) : Prop :=
  u.kind = .ident ∨ u.kind = .group '(' ∨ u.kind = .group '[' ∨ u.kind = .group '<'

namespace Lexed

/-- From `p` to `q` stand the pieces `us`: identifiers as long as they can be and balanced groups, with
trivia between them. -/
inductive Units (ix : Lexed) : Nat → Nat → List Piece → Prop
  | nil {p q : Nat} (trivia : ix.Trivia p q) : Units ix p q []
  | ident {p s e q : Nat} {us : List Piece} (trivia : ix.Trivia p s) (word : ix.Word .angle s e)
      (nonempty : s < e) (whole : e = q ∨ ∀ c, ix.CodeChar e c → ix.isIdentChar .angle c = false)
      (rest : Units ix e q us) : Units ix p q (⟨.ident, s, e⟩ :: us)
  | group {p o k q : Nat} {a : Char} {us : List Piece} (trivia : ix.Trivia p o)
      (group : ix.Group a o k) (kind : a ≠ '{') (rest : Units ix (k + 1) q us) :
      Units ix p q (⟨.group a, o, k + 1⟩ :: us)

/-- No identifier runs over `p` to its left, down to `bound`. -/
def Edge (ix : Lexed) (bound p : Nat) : Prop :=
  ix.Stops .angle bound p ∨ ∀ c, ix.CodeChar p c → ix.isIdentChar .angle c = false

variable {ix : Lexed} {m : Mode} {bound p q e k o a : Nat} {c b : Char} {u : Piece} {us vs : List Piece}

theorem CodeChar.unique_before {a' : Nat} {c' : Char} (h : ix.CodeChar a c) (h' : ix.CodeChar a' c')
    (hnext : ix.text.next a' = ix.text.next a) : a' = a ∧ c' = c := by
  have hback := h'.charBefore
  rw [hnext, h.charBefore] at hback
  cases hback
  exact ⟨rfl, rfl⟩

theorem stops_next (h : ix.CodeChar a c) (hident : ix.isIdentChar m c = false) :
    ix.Stops m bound (ix.text.next a) := by
  refine .inr fun a' c' hnext h' => ?_
  obtain ⟨-, rfl⟩ := h.unique_before h' hnext
  exact hident

theorem Edge.mono (h : ix.Edge bound p) (hle : bound ≤ e) (hp : e ≤ p) : ix.Edge e p := by
  rcases h with (rfl | hbefore) | hat
  · exact .inl (.inl (Nat.le_antisymm hle hp))
  · exact .inl (.inr hbefore)
  · exact .inr hat

/-- Behind a word that is not cut there, no identifier goes on. -/
theorem Edge.whole (h : ix.Edge bound e) (hword : ix.Word .angle p e) (hle : bound ≤ p) (hlt : p < e) :
    ∀ c, ix.CodeChar e c → ix.isIdentChar .angle c = false := by
  rcases h with (rfl | hbefore) | hat
  · omega
  · obtain ⟨a, c, hc, hident, hnext, -⟩ := hword.last hlt
    simp [hbefore a c hnext hc] at hident
  · exact hat

theorem Units.trivia (htrivia : ix.Trivia e p) (h : ix.Units p q us) : ix.Units e q us := by
  cases h with
  | nil trivia => exact .nil (htrivia.trans trivia)
  | ident trivia word nonempty whole rest => exact .ident (htrivia.trans trivia) word nonempty whole rest
  | group trivia group kind rest => exact .group (htrivia.trans trivia) group kind rest

theorem Units.isUnit (h : ix.Units p q us) : ∀ u ∈ us, u.IsUnit := by
  induction h with
  | nil trivia => simp
  | ident trivia word nonempty whole rest ih => exact List.forall_mem_cons.mpr ⟨.inl rfl, ih⟩
  | group trivia group kind rest ih =>
    obtain ⟨c, -, pair⟩ := group.closer
    refine List.forall_mem_cons.mpr ⟨?_, ih⟩
    rcases isGroupOpener_iff.mp (isGroupOpener_of_pair pair) with rfl | rfl | rfl | rfl
    · exact .inr (.inl rfl)
    · exact .inr (.inr (.inl rfl))
    · exact absurd rfl kind
    · exact .inr (.inr (.inr rfl))

theorem Last.above (h : ix.Last m bound p (some u)) : bound ≤ u.start := by
  cases h with
  | group char closer opener partner trivia => exact (of_groupStart partner).1
  | ident word nonempty above stops trivia => exact above
  | punct char solid closer ident above trivia => exact above
  | literal region kind above trivia => exact above

theorem Units.word (h : ix.Units p q us) :
    ∀ u ∈ us, u.kind = .ident → ix.Word .angle u.start u.stop ∧ u.start < u.stop := by
  induction h with
  | nil trivia => simp
  | ident trivia word nonempty whole rest ih =>
    exact List.forall_mem_cons.mpr ⟨fun _ => ⟨word, nonempty⟩, ih⟩
  | group trivia group kind rest ih => exact List.forall_mem_cons.mpr ⟨by simp, ih⟩

/-- Pieces begin and end between two characters. -/
theorem Units.boundary (h : ix.Units p q us) :
    ∀ u ∈ us, ix.text.isBoundary u.start = true ∧ ix.text.isBoundary u.stop = true := by
  induction h with
  | nil trivia => simp
  | @ident p s e q us trivia word nonempty whole rest ih =>
    obtain ⟨c, hc, -⟩ := word.first nonempty
    obtain ⟨a, d, hd, -, hnext, -⟩ := word.last nonempty
    refine List.forall_mem_cons.mpr ⟨⟨Text.isBoundary_of_charAt hc.char, ?_⟩, ih⟩
    rw [← hnext]
    exact Text.isBoundary_next hd.char
  | @group p o k q a us trivia group kind rest ih =>
    obtain ⟨c, hc, pair⟩ := group.closer
    refine List.forall_mem_cons.mpr ⟨⟨Text.isBoundary_of_charAt group.opener.char, ?_⟩, ih⟩
    rw [← hc.next_closer pair]
    exact Text.isBoundary_next hc.char

namespace IsJava

variable (hix : ix.IsJava)

include hix

theorem codeGap_of_last (h : ix.Last m bound p (some u)) : ix.CodeGap u.start := by
  cases h with
  | group char closer opener partner trivia => exact hix.codeGap_of_code opener
  | ident word nonempty above stops trivia =>
    obtain ⟨c, hc, -⟩ := word.first nonempty
    exact hix.codeGap_of_code hc
  | punct char solid closer ident above trivia => exact hix.codeGap_of_code char
  | literal region kind above trivia => exact hix.codeGap_start region.region

theorem le_of_units (h : ix.Units p q us) : p ≤ q ∧ (us ≠ [] → p < q) := by
  induction h with
  | nil trivia => exact ⟨trivia.le hix, fun h => absurd rfl h⟩
  | ident trivia word nonempty whole rest ih =>
    have := trivia.le hix
    exact ⟨by omega, fun _ => by omega⟩
  | group trivia group kind rest ih =>
    have := trivia.le hix
    have := group.inner.le hix
    exact ⟨by omega, fun _ => by omega⟩

/-- Pieces follow one another, and each begins with a character of code that is no blank. -/
theorem units_ordered (h : ix.Units p q us) :
    us.Pairwise (fun u v => u.stop ≤ v.start) ∧
      ∀ u ∈ us, p ≤ u.start ∧ u.start < u.stop ∧ u.stop ≤ q ∧
        ∃ c, ix.CodeChar u.start c ∧ isBlank c = false := by
  induction h with
  | nil trivia => exact ⟨.nil, by simp⟩
  | @ident p s e q us trivia word nonempty whole rest ih =>
    have hps := trivia.le hix
    have heq := (hix.le_of_units rest).1
    obtain ⟨c, hc, hident⟩ := word.first nonempty
    refine ⟨List.pairwise_cons.mpr ⟨fun v hv => (ih.2 v hv).1, ih.1⟩, List.forall_mem_cons.mpr ⟨?_, ?_⟩⟩
    · exact ⟨hps, nonempty, heq, c, hc, hix.not_isBlank_of_ident hident⟩
    · intro v hv
      obtain ⟨hev, hrest⟩ := ih.2 v hv
      exact ⟨by omega, hrest⟩
  | @group p o k q a us trivia group kind rest ih =>
    have hpo := trivia.le hix
    have hok := group.inner.le hix
    have hkq := (hix.le_of_units rest).1
    obtain ⟨c, -, pair⟩ := group.closer
    have hblank : isBlank a = false := by
      rcases groupOpenerOf_eq_some.mp pair with ⟨-, rfl⟩ | ⟨-, rfl⟩ | ⟨-, rfl⟩ | ⟨-, rfl⟩ <;> rfl
    refine ⟨List.pairwise_cons.mpr ⟨fun v hv => (ih.2 v hv).1, ih.1⟩, List.forall_mem_cons.mpr ⟨?_, ?_⟩⟩
    · exact ⟨hpo, show o < k + 1 by omega, hkq, a, group.opener, hblank⟩
    · intro v hv
      obtain ⟨hkv, hrest⟩ := ih.2 v hv
      exact ⟨by omega, hrest⟩

theorem not_ident_of_isGroupOpener (h : isGroupOpener b = true) : ix.isIdentChar m b = false := by
  refine Bool.eq_false_iff.mpr fun hident => ?_
  have hplain := isPlain_of_ident (isTypeIdentChar_of_isIdentChar hix.rules hident)
  simp [hplain.2.2] at h

theorem not_ident_of_pair (h : groupOpenerOf c = some b) : ix.isIdentChar m c = false := by
  refine Bool.eq_false_iff.mpr fun hident => ?_
  have hplain := isPlain_of_ident (isTypeIdentChar_of_isIdentChar hix.rules hident)
  simp [hplain.2.1] at h

theorem not_ident_of_isBlank (h : isBlank c = true) : ix.isIdentChar m c = false := by
  refine Bool.eq_false_iff.mpr fun hident => ?_
  simp [hix.not_isBlank_of_ident hident] at h

/-- The last character of trivia is a blank, if it is code. -/
theorem isBlank_last (h : ix.Trivia p q) (hlt : p < q) (hc : ix.CodeChar a c)
    (hnext : ix.text.next a = q) : isBlank c = true := by
  induction h with
  | nil => omega
  | @blank p q d char blank rest ih =>
    rcases Nat.lt_or_eq_of_le (rest.le hix) with hlt | rfl
    · exact ih hlt hnext
    · obtain ⟨-, rfl⟩ := char.unique_before hc hnext
      exact blank
  | @comment p q r region kind rest ih =>
    rcases Nat.lt_or_eq_of_le (rest.le hix) with hlt | rfl
    · exact ih hlt hnext
    · obtain ⟨a', d, ha, hr⟩ := hix.charBefore_stop region.region
      have hback := hc.charBefore
      rw [hnext, ha] at hback
      cases hback
      simp [hc.code] at hr

/-- No identifier ends where trivia does. -/
theorem stops_of_trivia (h : ix.Trivia p q) (hlt : p < q) : ix.Stops m bound q :=
  .inr fun _ _ hnext hc => hix.not_ident_of_isBlank (hix.isBlank_last h hlt hc hnext)

omit hix in
/-- The first character of trivia is a blank, if it is code. -/
theorem isBlank_first (h : ix.Trivia p q) (hlt : p < q) (hc : ix.CodeChar p c) : isBlank c = true := by
  cases h with
  | nil => omega
  | blank char blank rest =>
    obtain rfl := hc.unique char
    exact blank
  | comment region kind rest =>
    have hcode := hc.code
    rw [region.region] at hcode
    simp at hcode

/-- No identifier begins where trivia does. -/
theorem not_ident_of_trivia (h : ix.Trivia p q) (hlt : p < q) :
    ∀ c, ix.CodeChar p c → ix.isIdentChar m c = false :=
  fun _ hc => hix.not_ident_of_isBlank (isBlank_first h hlt hc)

/-- A group is read back as a piece. -/
theorem last_group (h : ix.Group b o k) (hle : bound ≤ o)
    (htrivia : ix.Trivia (k + 1) p) : ix.Last .angle bound p (some ⟨.group b, o, k + 1⟩) := by
  obtain ⟨c, hc, pair⟩ := h.closer
  have hcloser := Mode.isCloser_of_pair pair
  rw [← hc.next_closer pair] at htrivia ⊢
  exact .group hc hcloser h.opener ((hix.groupStart_angle hc hcloser).mpr ⟨hle, b, pair, h⟩) htrivia

theorem stops_of_edge (h : ix.Edge bound e) (htrivia : ix.Trivia e p) (hword : ix.Word .angle p q)
    (hlt : p < q) : ix.Stops .angle bound p := by
  rcases Nat.lt_or_eq_of_le (htrivia.le hix) with hep | rfl
  · exact hix.stops_of_trivia htrivia hep
  · refine h.resolve_right fun hat => ?_
    obtain ⟨c, hc, hident⟩ := hword.first hlt
    simp [hat c hc] at hident

/-- Behind a group no identifier is cut. -/
theorem edge_of_group (h : ix.Group b o k) : ix.Edge bound (k + 1) := by
  obtain ⟨c, hc, pair⟩ := h.closer
  rw [← hc.next_closer pair]
  exact .inl (stops_next hc (hix.not_ident_of_pair pair))

/-- The last of some pieces is the one that is read back first. -/
theorem last_of_units (h : ix.Units e p us) (hus : us ≠ []) (hle : bound ≤ e)
    (hedge : ix.Edge bound e) : ∃ vs v, us = vs ++ [v] ∧ ix.Last .angle bound p (some v) ∧
      ix.Units e v.start vs := by
  induction h with
  | nil trivia => exact absurd rfl hus
  | @ident e s e' p us trivia word nonempty whole rest ih =>
    have hes := trivia.le hix
    cases us with
    | nil =>
      cases rest with
      | nil htrivia =>
        have hstops := hix.stops_of_edge hedge trivia word nonempty
        exact ⟨[], _, rfl, .ident word nonempty (by omega) hstops htrivia, .nil trivia⟩
    | cons w us =>
      have hlt := (hix.le_of_units rest).2 (List.cons_ne_nil _ _)
      have hwhole := whole.resolve_left (by omega)
      obtain ⟨vs, v, heq, hlast, hunits⟩ := ih (List.cons_ne_nil _ _) (by omega) (.inr hwhole)
      exact ⟨_ :: vs, v, by rw [heq, List.cons_append], hlast,
        .ident trivia word nonempty (.inr hwhole) hunits⟩
  | @group e o k p a us trivia group kind rest ih =>
    have heo := trivia.le hix
    have hok := group.inner.le hix
    cases us with
    | nil =>
      cases rest with
      | nil htrivia =>
        exact ⟨[], _, rfl, hix.last_group group (by omega) htrivia, .nil trivia⟩
    | cons w us =>
      obtain ⟨vs, v, heq, hlast, hunits⟩ :=
        ih (List.cons_ne_nil _ _) (by omega) (hix.edge_of_group group)
      exact ⟨_ :: vs, v, by rw [heq, List.cons_append], hlast, .group trivia group kind hunits⟩

theorem last_of_units_concat (h : ix.Units e p (us ++ [u])) (hle : bound ≤ e)
    (hedge : ix.Edge bound e) : ix.Last .angle bound p (some u) ∧ ix.Units e u.start us := by
  obtain ⟨vs, v, heq, hlast, hunits⟩ := hix.last_of_units h (by simp) hle hedge
  obtain ⟨rfl, hlist⟩ := List.append_inj' heq rfl
  cases hlist
  exact ⟨hlast, hunits⟩

/-- The pieces before one of some pieces. -/
theorem units_before (h : ix.Units p q (us ++ u :: vs)) : ix.Units p u.start us := by
  induction us generalizing p with
  | nil =>
    cases h with
    | ident trivia word nonempty whole rest => exact .nil trivia
    | group trivia group kind rest => exact .nil trivia
  | cons w us ih =>
    cases h with
    | ident trivia word nonempty whole rest =>
      have hlt := (hix.le_of_units rest).2 (by simp)
      exact .ident trivia word nonempty (.inr (whole.resolve_left (by omega))) (ih rest)
    | group trivia group kind rest => exact .group trivia group kind (ih rest)

/-- Pieces may be put together where no identifier is cut. -/
theorem units_append (h : ix.Units e p us) (h' : ix.Units p q vs) (hedge : ix.Edge e p) :
    ix.Units e q (us ++ vs) := by
  induction h with
  | nil trivia => exact h'.trivia trivia
  | @ident e s e' p us trivia word nonempty whole rest ih =>
    have hes := trivia.le hix
    have hep := (hix.le_of_units rest).1
    refine .ident trivia word nonempty (.inr ?_) (ih h' (hedge.mono (by omega) hep))
    rcases whole with rfl | hwhole
    · exact hedge.whole word hes nonempty
    · exact hwhole
  | @group e o k p a us trivia group kind rest ih =>
    have heo := trivia.le hix
    have hok := group.inner.le hix
    have hkp := (hix.le_of_units rest).1
    exact .group trivia group kind (ih h' (hedge.mono (by omega) hkp))

/-- A piece that is read back stands before those that were read already. -/
theorem units_of_last (h : ix.Last .angle bound p (some u)) (hkind : u.IsUnit) (hus : ix.Units p q us)
    (hedge : p = q ∧ us = [] ∨ ix.Edge bound p) :
    ix.Units u.start q (u :: us) ∧ ix.Edge bound u.start := by
  cases h with
  | ident word nonempty above stops trivia =>
    refine ⟨.ident (.nil _) word nonempty ?_ (hus.trivia trivia), .inl stops⟩
    rcases Nat.lt_or_eq_of_le (trivia.le hix) with hlt | rfl
    · exact .inr (hix.not_ident_of_trivia trivia hlt)
    · rcases hedge with ⟨rfl, -⟩ | hedge
      · exact .inl rfl
      · exact .inr (hedge.whole word above nonempty)
  | group char closer opener partner trivia =>
    obtain ⟨hle, a, pair, hgroup⟩ := (hix.groupStart_angle char closer).mp partner
    obtain rfl := hgroup.opener.unique opener
    rw [char.next_closer pair] at trivia ⊢
    have ha : a ≠ '{' := by
      rintro rfl
      simp [Piece.IsUnit] at hkind
    refine ⟨.group (.nil _) hgroup ha (hus.trivia trivia), .inr fun c hc => ?_⟩
    obtain rfl := hc.unique opener
    exact hix.not_ident_of_isGroupOpener (isGroupOpener_of_pair pair)
  | punct => simp [Piece.IsUnit] at hkind
  | literal => simp [Piece.IsUnit] at hkind

end IsJava

end Lexed

end BraceScopes
