import BraceScopes.Proofs.Scan.Partner
import BraceScopes.Proofs.Scan.Piece
import BraceScopes.Proofs.Scan.Sliced
/-!
Reading pieces back one after the other, in code in general and in types. The pieces tile the code: only
white space and comments stand between them, and reading ends where only these are left or at a closing
bracket without a partner.
-/
namespace BraceScopes

open BraceScopes.Lex

namespace Lexed

/-- White space, or a character of a comment. -/
def TriviaChar (ix : Lexed) (i : Nat) (c : Char) : Prop :=
  isBlank c = true ∨ ∃ r, ix.regionAtChar? i = some r ∧ r.kind = .comment

/-- From `p` to `q` stand only white space and characters of comments. The white space may belong to a
literal that ends with its line. -/
def Vacant (ix : Lexed) (p q : Nat) : Prop :=
  ∀ i c, p ≤ i → i < q → ix.text.charAt i = some c → ix.TriviaChar i c

/-- The brackets at `o` and `k` are partners: in types the brackets of all four types are balanced
between them, elsewhere the lexed text pairs them. -/
def Partners (ix : Lexed) : Mode → Nat → Nat → Prop
  | .normal, o, k => ix.openOf k = some o
  | .angle, o, k => ∃ a, ix.Group a o k

/-- Above `bound` nothing is read back from `p`: only trivia is left, or the next character closes a
bracket that has no partner there. -/
inductive Exhausted (ix : Lexed) (m : Mode) (bound p : Nat) : Prop
  | trivia (vacant : ix.Vacant bound p)
  | unpaired {k : Nat} {c : Char} (char : ix.CodeChar k c) (closer : m.isCloser c = true)
      (above : bound ≤ k) (before : k < p) (vacant : ix.Vacant (k + 1) p)
      (alone : ∀ o, bound ≤ o → ¬ ix.Partners m o k)

/-- Back from `p` to `q` stand the pieces `us`, nearest first, with trivia between them. -/
inductive Tiles (ix : Lexed) (q : Nat) : Nat → List Piece → Prop
  | nil : Tiles ix q q []
  | cons {p : Nat} {u : Piece} {us : List Piece} (nonempty : u.start < u.stop) (before : u.stop ≤ p)
      (vacant : ix.Vacant u.stop p) (rest : Tiles ix q u.start us) : Tiles ix q p (u :: us)

variable {ix : Lexed} {m : Mode} {bound limit p q k o : Nat} {c : Char} {r : Region} {u : Piece}
  {us : List Piece}

theorem vacant_refl (p : Nat) : ix.Vacant p p := fun i c hp hi => by omega

theorem Vacant.trans {n : Nat} (h : ix.Vacant p n) (h' : ix.Vacant n q) : ix.Vacant p q := by
  intro i c hp hi hc
  rcases Nat.lt_or_ge i n with hlt | hge
  · exact h i c hp hlt hc
  · exact h' i c hge hi hc

theorem vacant_next (hc : ix.text.charAt p = some c) (h : ix.TriviaChar p c) :
    ix.Vacant p (ix.text.next p) := by
  intro i d hp hi hd
  rcases Nat.lt_or_eq_of_le hp with hlt | rfl
  · have hinside := Text.isBoundary_inside hc hlt hi
    rw [Text.isBoundary_of_charAt hd] at hinside
    simp at hinside
  · obtain rfl := Option.some.inj (hc.symm.trans hd)
    exact h

namespace Tiles

theorem le (h : ix.Tiles q p us) : q ≤ p := by
  induction h with
  | nil => exact Nat.le_refl q
  | cons nonempty before vacant rest ih => omega

theorem inside (h : ix.Tiles q p us) : ∀ u ∈ us, q ≤ u.start ∧ u.start < u.stop ∧ u.stop ≤ p := by
  induction h with
  | nil => simp
  | cons nonempty before vacant rest ih =>
    refine List.forall_mem_cons.mpr ⟨⟨rest.le, nonempty, before⟩, fun v hv => ?_⟩
    have := ih v hv
    omega

/-- Each piece ends at or before the start of the one read before it. -/
theorem descending (h : ix.Tiles q p us) :
    us.Pairwise fun u v => v.start < u.start ∧ v.stop ≤ u.start := by
  induction h with
  | nil => exact .nil
  | cons nonempty before vacant rest ih =>
    refine List.pairwise_cons.mpr ⟨fun v hv => ?_, ih⟩
    have := rest.inside v hv
    omega

theorem covers (h : ix.Tiles q p us) {i : Nat} (hq : q ≤ i) (hp : i < p)
    (hc : ix.text.charAt i = some c) :
    (∃ u ∈ us, u.start ≤ i ∧ i < u.stop) ∨ ix.TriviaChar i c := by
  induction h with
  | nil => omega
  | @cons p u us nonempty before vacant rest ih =>
    rcases Nat.lt_or_ge i u.start with hlt | hstart
    · obtain ⟨v, hv, hin⟩ | htrivia := ih hlt
      · exact .inl ⟨v, List.mem_cons_of_mem u hv, hin⟩
      · exact .inr htrivia
    · rcases Nat.lt_or_ge i u.stop with hlt | hstop
      · exact .inl ⟨u, List.mem_cons_self .., hstart, hlt⟩
      · exact .inr (vacant i c hstop hp hc)

/-- The last piece begins where the pieces end. -/
theorem rest_eq (h : ix.Tiles q p us) : (us.getLast?.map Piece.start).getD p = q := by
  induction h with
  | nil => rfl
  | @cons p u us nonempty before vacant rest ih =>
    rw [List.getLast?_cons, ← ih]
    cases us.getLast? <;> rfl

end Tiles

namespace Complete

variable {rs : Rules} (hix : ix.Complete rs)

include hix

theorem vacant_comment (hr : ix.regionAtChar? q = some r) (hkind : r.kind = .comment)
    (hp : p ≤ r.stop) : ix.Vacant r.start p := fun i c hstart hi _ =>
  .inr ⟨r, hix.regionAtChar_inside hr hstart (by omega), hkind⟩

/-- Going back over trivia goes over white space and comments only. -/
theorem vacant_retreat (hp : ix.text.isBoundary p = true) : ix.Vacant (ix.retreat bound p) p := by
  fun_induction retreat ix bound p with
  | case1 p hlt h => exact vacant_refl p
  | case2 p hlt q c h hblank ih =>
    obtain ⟨hc, rfl⟩ := (Text.charBefore_eq_some hp).mp h
    exact (ih (Text.isBoundary_of_charAt hc)).trans (vacant_next hc (.inl hblank))
  | case3 p hlt q c h hblank r hr hkind ih =>
    obtain ⟨hc, rfl⟩ := (Text.charBefore_eq_some hp).mp h
    have hextent := hix.extent hr
    have hstop := Text.next_le_of_isBoundary hc (of_regionAtChar hr).2 hextent.isBoundary_stop
    exact (ih hextent.isBoundary_start).trans (hix.vacant_comment hr hkind hstop)
  | case4 p hlt q c h hblank r hr hkind => exact vacant_refl p
  | case5 p hlt q c h hblank hr => exact vacant_refl p
  | case6 p hlt => exact fun i c hb hi => by omega

theorem vacant_trivia (h : ix.Trivia p q) : ix.Vacant p q := by
  induction h with
  | nil p => exact vacant_refl p
  | blank char blank rest ih => exact (vacant_next char.char (.inl blank)).trans ih
  | comment region kind rest ih =>
    have hvacant := hix.vacant_comment region.region kind (Nat.le_refl _)
    rw [region.start] at hvacant
    exact hvacant.trans ih

theorem vacant_pieceBefore (hp : ix.CodeGap p) (h : ix.pieceBefore? m p bound = some u) :
    ix.Vacant u.stop p := by
  have hstop := pieceEndingAt_stop (Option.ite_none_left_eq_some.mp h).2
  rw [hstop, skipTriviaBack_codeGap hp]
  exact hix.vacant_retreat hp.boundary

/-- The limit of a search for the partner of a closing bracket only leaves out partners below it. -/
theorem groupStart_eq_some (hc : ix.CodeChar k c) (hcloser : m.isCloser c = true) :
    ix.groupStart m limit k = some o ↔ limit ≤ o ∧ ix.Partners m o k := by
  cases m with
  | normal =>
    rw [groupStart, hc.char]
    simp only [hcloser, hc.isCode, Bool.and_self, ↓reduceIte, Option.filter_eq_some_iff,
      Bool.and_eq_true, decide_eq_true_eq]
    constructor
    · rintro ⟨hopen, hle, -⟩
      exact ⟨hle, hopen⟩
    · rintro ⟨hle, hopen⟩
      have hhead := (hix.openOf_eq_some.mp hopen).2.1
      exact ⟨hopen, hle, (opened_of_mem_stackBelow (List.mem_of_head? hhead)).2⟩
  | angle =>
    rw [hix.groupStart_angle hc hcloser]
    refine and_congr_right fun _ => ?_
    constructor
    · rintro ⟨a, -, hgroup⟩
      exact ⟨a, hgroup⟩
    · rintro ⟨a, hgroup⟩
      obtain ⟨d, hd, pair⟩ := hgroup.closer
      obtain rfl := hc.unique hd
      exact ⟨a, pair, hgroup⟩

end Complete

theorem CodeChar.next_isCloser (h : ix.CodeChar k c) (hcloser : m.isCloser c = true) :
    ix.text.next k = k + 1 := by
  obtain ⟨a, pair⟩ := Option.isSome_iff_exists.mp (m.isCloser_eq c hcloser)
  exact h.next_closer pair

/-- A closing bracket takes one byte, so none that stands at or after the boundary before a bound begins
before the bound. -/
theorem Exhausted.of_floor (h : ix.Exhausted m (ix.text.floor bound) p) : ix.Exhausted m bound p := by
  have hfloor := ix.text.floor_le bound
  cases h with
  | trivia vacant => exact .trivia fun i c hi => vacant i c (Nat.le_trans hfloor hi)
  | @unpaired k c char closer above before vacant alone =>
    have hnext := Text.isBoundary_next char.char
    rw [char.next_isCloser closer] at hnext
    have hbound := (Text.floor_lt_iff hnext).mp (Nat.lt_succ_of_le above)
    exact .unpaired char closer (Nat.le_of_lt_succ hbound) before vacant fun o ho =>
      alone o (Nat.le_trans hfloor ho)

namespace IsJava

variable (hix : ix.IsJava)

include hix

/-- One step back: a piece above the bound with trivia behind it, or the end. -/
theorem exhausted_of_pieceBefore (hb : ix.CodeGap bound) (hp : ix.CodeGap p) (hle : bound ≤ p)
    (h : ix.pieceBefore? m p bound = none) : ix.Exhausted m bound p := by
  have hlast := hix.pieceBefore_spec (m := m) hb hp hle
  rw [h] at hlast
  cases hlast with
  | nothing trivia => exact .trivia (hix.vacant_trivia trivia)
  | @unpaired k c char closer above alone trivia =>
    have hnext := char.next_isCloser closer
    have hkp := trivia.le hix
    rw [hnext] at trivia hkp
    refine .unpaired char closer above hkp (hix.vacant_trivia trivia) fun o ho hpartner => ?_
    rw [(hix.groupStart_eq_some char closer).mpr ⟨ho, hpartner⟩] at alone
    simp at alone

theorem tiles_piecesBack (hb : ix.CodeGap bound) (hp : ix.CodeGap p) (hle : bound ≤ p) :
    ∃ q, bound ≤ q ∧ ix.Tiles q p (ix.piecesBack m bound p) ∧ ix.Exhausted m bound q := by
  fun_induction piecesBack ix m bound p with
  | case1 p h => exact ⟨p, hle, .nil, hix.exhausted_of_pieceBefore hb hp hle h⟩
  | case2 p u h ih =>
    have hlast := hix.pieceBefore_spec (m := m) hb hp hle
    rw [h] at hlast
    obtain ⟨q, hbq, htiles, hend⟩ := ih (hix.codeGap_of_last hlast) hlast.above
    obtain ⟨hnonempty, hbefore⟩ := pieceBefore_bounds h
    exact ⟨q, hbq, .cons hnonempty hbefore (hix.vacant_pieceBefore hp h) htiles, hend⟩

end IsJava

theorem identRun_floor (hp : ix.text.isBoundary p = true) :
    ix.identRun m bound p = ix.identRun m (ix.text.floor bound) p := by
  have habove := Text.floor_lt_iff hp (p := bound)
  fun_induction identRun ix m (ix.text.floor bound) p with
  | case1 p hlt h =>
    rw [identRun, if_pos (habove.mp hlt)]
    split
    next => rfl
    next q c hq => simp [h] at hq
  | case2 p hlt q c h hident ih =>
    have hq := Text.isBoundary_of_charBefore hp h
    rw [identRun_of_charBefore (habove.mp hlt) h, if_pos hident, ih hq (Text.floor_lt_iff hq)]
  | case3 p hlt q c h hident => rw [identRun_of_charBefore (habove.mp hlt) h, if_neg hident]
  | case4 p hlt => rw [identRun, if_neg (mt habove.mpr hlt)]

namespace IsJava

variable (hix : ix.IsJava)

include hix

theorem retreat_floor (hp : ix.text.isBoundary p = true) :
    ix.retreat bound p = max bound (ix.retreat (ix.text.floor bound) p) := by
  have habove := Text.floor_lt_iff hp (p := bound)
  fun_induction retreat ix (ix.text.floor bound) p with
  | case1 p hlt h =>
    obtain ⟨q, c, hc, rfl⟩ := Text.exists_charBefore hp (by omega)
    simp [Text.charBefore_next hc] at h
  | case2 p hlt q c h hblank ih =>
    have hq := Text.isBoundary_of_charBefore hp h
    rw [retreat_of_charBefore (habove.mp hlt) h, if_pos hblank, ih hq (Text.floor_lt_iff hq)]
  | case3 p hlt q c h hblank r hr hkind ih =>
    have hstart := (hix.extent hr).isBoundary_start
    rw [retreat_of_charBefore (habove.mp hlt) h, if_neg hblank, hr]
    simp only [hkind, ↓reduceIte]
    exact ih hstart (Text.floor_lt_iff hstart)
  | case4 p hlt q c h hblank r hr hkind =>
    rw [retreat_of_charBefore (habove.mp hlt) h, if_neg hblank, hr]
    simp only [hkind, ↓reduceIte]
    exact (Nat.max_eq_right (Nat.le_of_lt (habove.mp hlt))).symm
  | case5 p hlt q c h hblank hr =>
    rw [retreat_of_charBefore (habove.mp hlt) h, if_neg hblank, hr]
    exact (Nat.max_eq_right (Nat.le_of_lt (habove.mp hlt))).symm
  | case6 p hlt =>
    rw [retreat_eq_bound (Nat.le_of_not_lt (mt habove.mpr hlt)),
      Nat.max_eq_left (ix.text.floor_le bound)]

theorem groupStart_floor (hc : ix.CodeChar k c) (hcloser : m.isCloser c = true) :
    ix.groupStart m bound k = ix.groupStart m (ix.text.floor bound) k := by
  refine Option.ext fun o => ?_
  rw [hix.groupStart_eq_some hc hcloser, hix.groupStart_eq_some hc hcloser]
  refine and_congr_left fun hpartner => ?_
  have hstart : ix.groupStart m 0 k = some o :=
    (hix.groupStart_eq_some hc hcloser).mpr ⟨Nat.zero_le o, hpartner⟩
  obtain ⟨b, hb, pair⟩ := hix.codeChar_groupStart hc hstart
  -- An opening bracket takes one byte, so a bound above it lies above its character.
  have hnext := Text.isBoundary_next hb.char
  rw [hb.next_opener pair] at hnext
  have := Text.floor_lt_iff hnext (p := bound)
  omega

/-- A comment or literal that begins below a bound outside it ends below the bound. -/
theorem stop_le_floor (hb : ix.regionAtGap? bound = none) (hr : ix.regionAtChar? q = some r)
    (hstart : r.start < bound) : r.stop ≤ ix.text.floor bound := by
  refine Nat.le_of_not_lt fun hlt => ?_
  have hstop := (Text.floor_lt_iff (hix.extent hr).isBoundary_stop).mp hlt
  have hgap : r.containsGap bound = true := by simp [Region.containsGap, hstart, hstop]
  rw [hix.regionAtGap_eq_some.mpr ⟨(hix.regionAtChar_eq_some.mp hr).1, hgap⟩] at hb
  simp at hb

theorem codeGap_floor (hb : ix.regionAtGap? bound = none) (hsize : bound ≤ ix.text.size) :
    ix.CodeGap (ix.text.floor bound) := by
  refine ⟨ix.text.isBoundary_floor bound, Option.eq_none_iff_forall_ne_some.mpr fun r hr => ?_⟩
  have hfloor := ix.text.floor_le bound
  obtain ⟨hstart, hend | hin⟩ := hix.of_regionAtGap hr
  · rw [show bound = ix.text.floor bound by omega, hr] at hb
    simp at hb
  · have hstop := (of_regionAtChar hin).2
    have hle := hix.stop_le_floor hb hin (by omega)
    omega

theorem pieceEndingAt_floor (hb : ix.regionAtGap? bound = none) (hp : ix.text.isBoundary p = true) :
    ix.pieceEndingAt? m bound p = ix.pieceEndingAt? m (ix.text.floor bound) p := by
  unfold pieceEndingAt?
  cases hback : ix.text.charBefore p with
  | none => rfl
  | some found =>
    obtain ⟨q, c⟩ := found
    obtain ⟨hc, -⟩ := (Text.charBefore_eq_some hp).mp hback
    have hrun : ix.identRun m bound q = ix.identRun m (ix.text.floor bound) q :=
      identRun_floor (Text.isBoundary_of_charAt hc)
    simp only [hrun]
    cases hr : ix.regionAtChar? q with
    | some r =>
      have hfloor := ix.text.floor_le bound
      have hnonempty := hix.nonempty hr
      have hstart : bound ≤ r.start ↔ ix.text.floor bound ≤ r.start := by
        refine ⟨fun hle => by omega, fun hle => Nat.le_of_not_lt fun hlt => ?_⟩
        have := hix.stop_le_floor hb hr hlt
        omega
      simp only [hstart]
    | none =>
      cases hcloser : m.isCloser c with
      | true =>
        have hstart : ix.groupStart m bound q = ix.groupStart m (ix.text.floor bound) q :=
          hix.groupStart_floor ⟨hc, hr⟩ hcloser
        simp only [hstart]
      | false => rfl

/-- A bound inside a character counts as the boundary before it. -/
theorem pieceBefore_floor (hb : ix.regionAtGap? bound = none) (hp : ix.CodeGap p) :
    ix.pieceBefore? m p bound = ix.pieceBefore? m p (ix.text.floor bound) := by
  have hfloor := ix.text.floor_le bound
  have hstop := hix.isBoundary_retreat (ix.text.isBoundary_floor bound) hp.boundary
  have habove := Text.floor_lt_iff hstop (p := bound)
  unfold pieceBefore?
  rw [skipTriviaBack_codeGap hp, skipTriviaBack_codeGap hp, hix.retreat_floor hp.boundary]
  by_cases hlt : bound < ix.retreat (ix.text.floor bound) p
  · rw [Nat.max_eq_right (Nat.le_of_lt hlt), if_neg (by omega), if_neg (by omega),
      hix.pieceEndingAt_floor hb hstop]
  · rw [if_pos (by omega), if_pos (by omega)]

theorem piecesBack_floor (hb : ix.regionAtGap? bound = none) (hsize : bound ≤ ix.text.size)
    (hp : ix.CodeGap p) (hle : ix.text.floor bound ≤ p) :
    ix.piecesBack m bound p = ix.piecesBack m (ix.text.floor bound) p := by
  fun_induction piecesBack ix m (ix.text.floor bound) p with
  | case1 p h =>
    rw [piecesBack]
    split
    next => rfl
    next u hu => simp [hix.pieceBefore_floor hb hp, h] at hu
  | case2 p u h ih =>
    have hlast := hix.pieceBefore_spec (m := m) (hix.codeGap_floor hb hsize) hp hle
    rw [h] at hlast
    rw [piecesBack]
    split
    next hnone => simp [hix.pieceBefore_floor hb hp, h] at hnone
    next v hv =>
      rw [hix.pieceBefore_floor hb hp, h] at hv
      cases hv
      rw [ih (hix.codeGap_of_last hlast) hlast.above]

end IsJava

end Lexed

/-- The pieces read back from a gap of code tile the code from where the reading ends. Above a bound that is
a boundary of the text they begin at or after the bound; a bound inside a character counts as the boundary
before it. The pieces are not empty, follow one another without overlap, and what stands in no piece is
white space or belongs to a comment. Reading ends only above trivia or at a closing bracket without a
partner above the bound; in code no literal begins below the bound and ends above it. -/
theorem piecesBack_tile {t : Text} {m : Mode} {bound p : Nat}
    (hb : (Lexed.ofText t .java).regionAtGap? bound = none) (hp : (Lexed.ofText t .java).CodeGap p)
    (hle : bound ≤ p) :
    let ix := Lexed.ofText t .java
    let us := ix.piecesBack m bound p
    let rest := (us.getLast?.map Piece.start).getD p
    (t.isBoundary bound = true → ∀ u ∈ us, bound ≤ u.start) ∧
      (∀ u ∈ us, t.floor bound ≤ u.start ∧ u.start < u.stop ∧ u.stop ≤ p) ∧
      us.Pairwise (fun u v => v.start < u.start ∧ v.stop ≤ u.start) ∧
      (∀ i c, rest ≤ i → i < p → t.charAt i = some c →
        (∃ u ∈ us, u.start ≤ i ∧ i < u.stop) ∨ ix.TriviaChar i c) ∧
      ix.Exhausted m bound rest := by
  intro ix us rest
  have hix : ix.IsJava := Lexed.isJava_ofText t
  have htext : ix.text = t := Lexed.ofText_text t .java
  have hsize : bound ≤ ix.text.size := Nat.le_trans hle (Text.isBoundary_le_size hp.boundary)
  have hfloor : ix.text.floor bound ≤ p := Nat.le_trans (ix.text.floor_le bound) hle
  obtain ⟨q, hbq, htiles, hend⟩ := hix.tiles_piecesBack (m := m) (hix.codeGap_floor hb hsize) hp hfloor
  rw [← hix.piecesBack_floor hb hsize hp hfloor] at htiles
  have hrest : rest = q := htiles.rest_eq
  rw [htext] at hbq
  have inside : ∀ u ∈ us, t.floor bound ≤ u.start ∧ u.start < u.stop ∧ u.stop ≤ p := by
    intro u hu
    obtain ⟨hstart, hnonempty, hstop⟩ := htiles.inside u hu
    exact ⟨Nat.le_trans hbq hstart, hnonempty, hstop⟩
  refine ⟨fun hbound u hu => ?_, inside, htiles.descending, fun i c hi hip hc => ?_,
    hrest ▸ hend.of_floor⟩
  · rw [← Text.floor_eq_self hbound]
    exact (inside u hu).1
  · rw [hrest] at hi
    rw [← htext] at hc
    exact htiles.covers hi hip hc

/-- In types, a literal that ends with the blanks of its line and a comment, after a parenthesis at the
bound that nothing opens. -/
theorem piecesBack_tile_literal :
    let t : Text := .ofString "é)a /*x*/ \"c \n[d]"
    let ix := Lexed.ofText t .java
    ix.regionAtGap? 2 = none ∧ ix.CodeGap 18 ∧ 2 ≤ 18 ∧ t.isBoundary 2 = true ∧
      ix.piecesBack .angle 2 18 = [⟨.group '[', 15, 18⟩, ⟨.literal, 11, 13⟩, ⟨.ident, 3, 4⟩] ∧
      (∀ u ∈ ix.piecesBack .angle 2 18, 2 ≤ u.start) ∧
      (∀ i c, 3 ≤ i → i < 18 → t.charAt i = some c →
        (∃ u ∈ ix.piecesBack .angle 2 18, u.start ≤ i ∧ i < u.stop) ∨ ix.TriviaChar i c) ∧
      ix.Exhausted .angle 2 3 := by
  intro t ix
  have hb : ix.regionAtGap? 2 = none := by decide +kernel
  have hp : ix.CodeGap 18 := ⟨by decide +kernel, by decide +kernel⟩
  have hle : 2 ≤ 18 := by decide
  have boundary : t.isBoundary 2 = true := by decide +kernel
  have pieces : ix.piecesBack .angle 2 18 =
      [⟨.group '[', 15, 18⟩, ⟨.literal, 11, 13⟩, ⟨.ident, 3, 4⟩] := by decide +kernel
  have rest : ((ix.piecesBack .angle 2 18).getLast?.map Piece.start).getD 18 = 3 := by rw [pieces]; rfl
  obtain ⟨above, -, -, covers, ends⟩ := piecesBack_tile (m := .angle) hb hp hle
  refine ⟨hb, hp, hle, boundary, pieces, above boundary, fun i c hi => ?_, ?_⟩
  · exact covers i c (Nat.le_trans (Nat.le_of_eq rest) hi)
  · exact rest ▸ ends

/-- A bound inside the only character of the text, and a piece that begins below it. -/
theorem piecesBack_below_bound :
    let ix := Lexed.ofText (.ofString "é") .java
    ix.regionAtGap? 1 = none ∧ ix.CodeGap 2 ∧ 1 ≤ 2 ∧ ix.piecesBack .normal 1 2 = [⟨.ident, 0, 2⟩] ∧
      ¬ ∀ u ∈ ix.piecesBack .normal 1 2, 1 ≤ u.start := by
  intro ix
  have pieces : ix.piecesBack .normal 1 2 = [⟨.ident, 0, 2⟩] := by decide +kernel
  refine ⟨by decide +kernel, ⟨by decide +kernel, by decide +kernel⟩, by decide, pieces, fun above => ?_⟩
  rw [pieces] at above
  exact absurd (above _ (List.mem_singleton_self _)) (by decide)

end BraceScopes
