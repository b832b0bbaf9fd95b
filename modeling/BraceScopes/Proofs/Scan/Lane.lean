import BraceScopes.Proofs.Scan.Leading
/-!
Stretches of code that a declaration may begin with: white space, identifiers, type arguments and array
brackets. Going back over such a stretch leads to its start, whatever the words in it are.
-/
namespace BraceScopes

/-- A piece that a declaration may hold before its name. -/
def Piece.IsLeading (u : Piece) : Prop :=
  u.kind = .ident ∨ u.kind = .group '<' ∨ u.kind = .group '['

namespace Lexed

/-- Trivia, identifiers, and groups of angle or square brackets from `p` to `q`. -/
inductive Lane (ix : Lexed) : Nat → Nat → Prop
  | nil {p q : Nat} (trivia : ix.Trivia p q) : Lane ix p q
  | trivia {p s q : Nat} (trivia : ix.Trivia p s) (rest : Lane ix s q) : Lane ix p q
  | ident {p q : Nat} {c : Char} (char : ix.CodeChar p c) (ident : ix.isIdentChar .angle c = true)
      (rest : Lane ix (ix.text.next p) q) : Lane ix p q
  | group {o k q : Nat} {a : Char} (group : ix.Group a o k) (kind : a = '<' ∨ a = '[')
      (rest : Lane ix (k + 1) q) : Lane ix o q

/-- A member of a body may begin at `p`: the last code before it, trivia aside, is a brace or a
semicolon, or there is none. -/
def MemberStart (ix : Lexed) (p : Nat) : Prop :=
  ∃ e, ix.Trivia e p ∧
    (e = 0 ∨ ∃ a c, ix.CodeChar a c ∧ ix.text.next a = e ∧ (c = '{' ∨ c = '}' ∨ c = ';'))

variable {ix : Lexed} {m : Mode} {p q e h s : Nat} {c : Char} {cs : List Char} {us : List Piece}

theorem Lane.trans (h : ix.Lane p e) (h' : ix.Lane e q) : ix.Lane p q := by
  induction h with
  | nil trivia => exact .trivia trivia h'
  | trivia trivia _ ih => exact .trivia trivia (ih h')
  | ident char ident _ ih => exact .ident char ident (ih h')
  | group group kind _ ih => exact .group group kind (ih h')

namespace CodeChars

theorem trivia (h : ix.CodeChars p q cs) (hcs : ∀ c ∈ cs, isBlank c = true) : ix.Trivia p q := by
  induction h with
  | nil => exact .nil _
  | cons char rest ih =>
    obtain ⟨hc, hcs⟩ := List.forall_mem_cons.mp hcs
    exact .blank char hc (ih hcs)

theorem word (h : ix.CodeChars p q cs) (hcs : ∀ c ∈ cs, ix.isIdentChar m c = true) : ix.Word m p q := by
  induction h with
  | nil => exact .nil _
  | cons char rest ih =>
    obtain ⟨hc, hcs⟩ := List.forall_mem_cons.mp hcs
    exact .char char hc (ih hcs)

theorem lane (h : ix.CodeChars p q cs)
    (hcs : ∀ c ∈ cs, isBlank c = true ∨ ix.isIdentChar .angle c = true) : ix.Lane p q := by
  induction h with
  | nil => exact .nil (.nil _)
  | cons char rest ih =>
    obtain ⟨hc, hcs⟩ := List.forall_mem_cons.mp hcs
    rcases hc with hc | hc
    · exact .trivia (.blank char hc (.nil _)) (ih hcs)
    · exact .ident char hc (ih hcs)

theorem balanced (h : ix.CodeChars p q cs) (hcs : ∀ c ∈ cs, IsPlain c) : ix.Balanced p q := by
  induction h with
  | nil => exact .nil _
  | cons char rest ih =>
    obtain ⟨hc, hcs⟩ := List.forall_mem_cons.mp hcs
    exact .char char hc (ih hcs)

end CodeChars

namespace IsJava

variable (hix : ix.IsJava)

include hix

/-- Trivia does not run over a character of code that is no blank. -/
theorem le_of_trivia (htrivia : ix.Trivia p q) (hc : ix.CodeChar s c) (solid : isBlank c = false)
    (hle : p ≤ s) : q ≤ s := by
  have hs := hix.codeGap_of_code hc
  induction htrivia with
  | nil => exact hle
  | @blank p q d char blank rest ih =>
    rcases Nat.lt_or_eq_of_le hle with hlt | rfl
    · exact ih (Text.next_le_of_isBoundary char.char hlt hs.boundary)
    · obtain rfl := hc.unique char
      simp [solid] at blank
  | @comment p q r region kind rest ih =>
    refine ih (Nat.le_of_not_lt fun hlt => ?_)
    have hin := hix.regionAtChar_inside region.region (q := s) (by rw [region.start]; exact hle) hlt
    simp [hc.code] at hin

/-- The identifiers of a lane are as long as they can be. -/
theorem units_of_lane (h : ix.Lane p q) : ∃ us, ix.Units p q us ∧ ∀ u ∈ us, u.IsLeading := by
  induction h with
  | nil trivia => exact ⟨[], .nil trivia, by simp⟩
  | trivia trivia rest ih =>
    obtain ⟨us, hus, hkinds⟩ := ih
    exact ⟨us, hus.trivia trivia, hkinds⟩
  | group group kind rest ih =>
    obtain ⟨us, hus, hkinds⟩ := ih
    rcases kind with rfl | rfl
    · exact ⟨_, .group (.nil _) group (by decide) hus,
        List.forall_mem_cons.mpr ⟨.inr (.inl rfl), hkinds⟩⟩
    · exact ⟨_, .group (.nil _) group (by decide) hus,
        List.forall_mem_cons.mpr ⟨.inr (.inr rfl), hkinds⟩⟩
  | @ident p q c char ident rest ih =>
    obtain ⟨us, hus, hkinds⟩ := ih
    have hlt := ix.text.lt_next p
    have single : ix.Word .angle p (ix.text.next p) := .char char ident (.nil _)
    -- A character right before an identifier belongs to it, and is an identifier of its own otherwise.
    have alone : (ix.text.next p = q ∨ ∀ d, ix.CodeChar (ix.text.next p) d →
        ix.isIdentChar .angle d = false) → ∃ vs, ix.Units p q vs ∧ ∀ u ∈ vs, u.IsLeading :=
      fun whole => ⟨_, .ident (.nil p) single hlt whole hus,
        List.forall_mem_cons.mpr ⟨.inl rfl, hkinds⟩⟩
    cases hus with
    | nil trivia =>
      refine alone ((Nat.lt_or_eq_of_le (trivia.le hix)).elim (fun hne => .inr ?_) .inl)
      exact hix.not_ident_of_trivia trivia hne
    | ident trivia word nonempty whole rest =>
      rcases Nat.lt_or_eq_of_le (trivia.le hix) with hne | heq
      · exact alone (.inr (hix.not_ident_of_trivia trivia hne))
      · subst heq
        refine ⟨_, .ident (.nil p) (.char char ident word) (by omega) whole rest,
          List.forall_mem_cons.mpr ⟨.inl rfl, (List.forall_mem_cons.mp hkinds).2⟩⟩
    | group trivia group kind rest =>
      rcases Nat.lt_or_eq_of_le (trivia.le hix) with hne | heq
      · exact alone (.inr (hix.not_ident_of_trivia trivia hne))
      · subst heq
        obtain ⟨d, -, pair⟩ := group.closer
        refine alone (.inr fun d hd => ?_)
        obtain rfl := hd.unique group.opener
        exact hix.not_ident_of_isGroupOpener (isGroupOpener_of_pair pair)

/-- Going back over the pieces before a name leads to the first of them. -/
theorem extendBack_units (hus : ix.Units h p us) (hkinds : ∀ u ∈ us, u.IsLeading)
    (hedge : ix.Edge 0 h) (hc : ix.CodeChar h c) (solid : isBlank c = false) (hp : ix.CodeGap p) :
    ix.extendBack 0 p = ix.extendBack 0 h := by
  induction hn : us.length generalizing us p with
  | zero =>
    obtain rfl := List.length_eq_zero_iff.mp hn
    cases hus with
    | nil trivia =>
      obtain rfl := Nat.le_antisymm (hix.le_of_trivia trivia hc solid (Nat.le_refl _)) (trivia.le hix)
      rfl
  | succ n ih =>
    have hne : us ≠ [] := by
      rintro rfl
      simp at hn
    obtain ⟨vs, v, rfl, hlast, hvs⟩ := hix.last_of_units hus hne (Nat.zero_le _) hedge
    have hv : v.IsLeading := hkinds v (by simp)
    have hpiece := hix.pieceBefore_eq_some hp hlast fun hlit => by simp [Piece.IsLeading, hlit] at hv
    rw [extendBack_of_leadingPiece (leadingPiece_eq_some.mpr ⟨v, hpiece, .inl ⟨hv, rfl⟩⟩)]
    exact ih hvs (fun u hu => hkinds u (by simp [hu])) (hix.codeGap_of_last hlast) (by simpa using hn)

end IsJava

namespace MemberStart

theorem not_ident (hix : ix.IsJava) (hc : c = '{' ∨ c = '}' ∨ c = ';') :
    ix.isIdentChar m c = false := by
  refine Bool.eq_false_iff.mpr fun hident => ?_
  have hident := isTypeIdentChar_of_isIdentChar hix.rules hident
  rcases hc with rfl | rfl | rfl <;> exact absurd hident (by decide)

theorem stops (hix : ix.IsJava) (hstart : ix.MemberStart h) : ix.Stops m 0 h := by
  obtain ⟨e, trivia, hbefore⟩ := hstart
  rcases Nat.lt_or_eq_of_le (trivia.le hix) with hlt | rfl
  · exact hix.stops_of_trivia trivia hlt
  · rcases hbefore with rfl | ⟨a, c, hc, rfl, hbrace⟩
    · exact .inl rfl
    · exact stops_next hc (not_ident hix hbrace)

/-- What stands before a member is no word and no group but a block. -/
theorem last (hix : ix.IsJava) (hstart : ix.MemberStart h) :
    ∃ u, ix.Last m 0 h u ∧ ∀ v, u = some v → v.kind = .group '{' ∨ ∃ c, v.kind = .punct c := by
  obtain ⟨e, trivia, rfl | ⟨a, c, hc, rfl, hbrace⟩⟩ := hstart
  · exact ⟨none, .nothing trivia, by simp⟩
  · by_cases hcloser : m.isCloser c = true
    · have hclose : c = '}' := by
        rcases hbrace with rfl | rfl | rfl
        · cases m <;> simp [Mode.isCloser, openerOf] at hcloser
        · rfl
        · cases m <;> simp [Mode.isCloser, openerOf] at hcloser
      subst hclose
      cases ho : ix.groupStart m 0 a with
      | none => exact ⟨none, .unpaired hc hcloser (Nat.zero_le _) ho trivia, by simp⟩
      | some o =>
        obtain ⟨b, hb, pair⟩ := hix.codeChar_groupStart hc ho
        obtain rfl : '{' = b := Option.some.inj pair
        refine ⟨_, .group hc hcloser hb ho trivia, ?_⟩
        rintro v ⟨⟩
        exact .inl rfl
    · have solid : isBlank c = false := by rcases hbrace with rfl | rfl | rfl <;> rfl
      refine ⟨_, .punct hc solid (by simpa using hcloser) (not_ident hix hbrace) (Nat.zero_le _) trivia, ?_⟩
      rintro v ⟨⟩
      exact .inr ⟨c, rfl⟩

theorem piece (hix : ix.IsJava) (hstart : ix.MemberStart h) (hgap : ix.CodeGap h) {v : Piece}
    (hv : ix.pieceBefore? m h 0 = some v) : v.kind = .group '{' ∨ ∃ c, v.kind = .punct c := by
  obtain ⟨u, hlast, hkind⟩ := hstart.last hix (m := m)
  cases u with
  | none => simp [hix.pieceBefore_eq_none hgap hlast] at hv
  | some w =>
    have hw := hkind w rfl
    have hliteral : w.kind ≠ .literal := by
      rintro hlit
      simp [hlit] at hw
    rw [hix.pieceBefore_eq_some hgap hlast hliteral] at hv
    cases hv
    exact hw

/-- A declaration that begins where a member may begin does not begin earlier. -/
theorem extendBack_eq (hix : ix.IsJava) (hstart : ix.MemberStart h) (hgap : ix.CodeGap h) :
    ix.extendBack 0 h = h := by
  refine extendBack_of_none (Option.eq_none_iff_forall_ne_some.mpr fun q hq => ?_)
  obtain ⟨u, hu, hcases⟩ := leadingPiece_eq_some.mp hq
  rcases hstart.piece hix hgap hu with hkind | ⟨d, hkind⟩
  · simp [hkind] at hcases
  · simp [hkind] at hcases

end MemberStart

/-- A declaration with a lane before its name begins where the lane does. -/
theorem IsJava.declarationStart_lane (hix : ix.IsJava) (hlane : ix.Lane h p) (hstart : ix.MemberStart h)
    (hc : ix.CodeChar h c) (solid : isBlank c = false) (hp : ix.CodeGap p)
    (hstops : ix.Stops .normal 0 p) : ix.declarationStart p 0 = h := by
  obtain ⟨us, hus, hkinds⟩ := hix.units_of_lane hlane
  rw [declarationStart_eq hix hp, identStart, hix.identRun_stops hp hstops (Nat.zero_le p),
    hix.extendBack_units hus hkinds (.inl (hstart.stops hix)) hc solid hp,
    hstart.extendBack_eq hix (hix.codeGap_of_code hc)]

end Lexed

end BraceScopes
