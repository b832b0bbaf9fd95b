import BraceScopes.Proofs.ArgList.Entries
import BraceScopes.Proofs.Resolve
/-!
Two Java texts that differ only inside comments and literals. Their code is the same, character by
character, and so is everything that is read of it.
-/
namespace BraceScopes

open BraceScopes.Lex

namespace Lexed

/-- Indexes of two Java texts with the same events and the same characters outside comments and
literals. -/
structure SameCode (x y : Lexed) : Prop where
  left : x.IsJava
  right : y.IsJava
  events : Lex.events x.text .java = Lex.events y.text .java
  size : x.text.size = y.text.size
  agree : ∀ p, x.regionAtChar? p = none → x.text.charAt p = y.text.charAt p

/-- The literals hold the same characters. -/
def SameLiterals (x y : Lexed) : Prop :=
  ∀ p r, x.regionAtChar? p = some r → r.kind = .string → x.text.charAt p = y.text.charAt p

namespace SameCode

variable {x y : Lexed} {p q o k bound : Nat} {c a : Char} {r : Region} {m : Mode} {us : List Piece}

theorem regionAtChar (h : SameCode x y) (p : Nat) : x.regionAtChar? p = y.regionAtChar? p := by
  refine Option.ext fun r => ?_
  rw [h.left.regionAtChar_eq_some, h.right.regionAtChar_eq_some, h.events]

theorem regionAtGap (h : SameCode x y) (p : Nat) : x.regionAtGap? p = y.regionAtGap? p := by
  refine Option.ext fun r => ?_
  rw [h.left.regionAtGap_eq_some, h.right.regionAtGap_eq_some, h.events]

theorem symm (h : SameCode x y) : SameCode y x where
  left := h.right
  right := h.left
  events := h.events.symm
  size := h.size.symm
  agree p hp := (h.agree p (by rw [h.regionAtChar, hp])).symm

theorem codeChar (h : SameCode x y) (hc : x.CodeChar p c) : y.CodeChar p c :=
  ⟨by rw [← h.agree p hc.code, hc.char], by rw [← h.regionAtChar, hc.code]⟩

theorem next (h : SameCode x y) (hc : x.CodeChar p c) : x.text.next p = y.text.next p := by
  rw [Text.next_of_charAt hc.char, Text.next_of_charAt (h.codeChar hc).char]

theorem regionAt (h : SameCode x y) (hr : x.RegionAt p r) : y.RegionAt p r :=
  ⟨by rw [← h.regionAtChar, hr.region], hr.start⟩

theorem isCode (h : SameCode x y) (p : Nat) : x.isCode p = y.isCode p := by
  rw [Lexed.isCode, Lexed.isCode, h.regionAtChar]

theorem isIdentChar (h : SameCode x y) (m : Mode) (c : Char) :
    x.isIdentChar m c = y.isIdentChar m c := by
  unfold Lexed.isIdentChar
  rw [h.left.rules, h.right.rules]

/-- A gap of code lies between two characters of both texts. -/
theorem codeGap (h : SameCode x y) (hp : x.CodeGap p) : y.CodeGap p := by
  have hcode : y.regionAtGap? p = none := by rw [← h.regionAtGap, hp.code]
  refine ⟨?_, hcode⟩
  have hboundary := hp.boundary
  simp only [Text.isBoundary, Bool.or_eq_true, beq_iff_eq, Option.isSome_iff_exists] at hboundary
  rcases hboundary with rfl | ⟨c, hc⟩
  · simp [Text.isBoundary, h.size]
  · cases hr : x.regionAtChar? p with
    | none => exact Text.isBoundary_of_charAt (h.codeChar ⟨hc, hr⟩).char
    | some r =>
      have hregion := h.regionAt (h.left.codeGap_region hp hr)
      rw [← hregion.start]
      exact (h.right.delimited hregion.region).isBoundary_start

theorem trivia (h : SameCode x y) (ht : x.Trivia p q) : y.Trivia p q := by
  induction ht with
  | nil => exact .nil _
  | blank char blank rest ih => exact .blank (h.codeChar char) blank (h.next char ▸ ih)
  | comment region kind rest ih => exact .comment (h.regionAt region) kind ih

theorem word (h : SameCode x y) (hw : x.Word m p q) : y.Word m p q := by
  induction hw with
  | nil => exact .nil _
  | char char ident rest ih => exact .char (h.codeChar char) (h.isIdentChar m _ ▸ ident) (h.next char ▸ ih)

theorem balanced (h : SameCode x y) (hb : x.Balanced p q) : y.Balanced p q := by
  induction hb with
  | nil => exact .nil _
  | char char plain rest ih => exact .char (h.codeChar char) plain (h.next char ▸ ih)
  | region region rest ih => exact .region (h.regionAt region) ih
  | group opener inner closer pair rest ihi ihr =>
    exact .group (h.codeChar opener) ihi (h.codeChar closer) pair ihr

theorem group (h : SameCode x y) (hg : x.Group a o k) : y.Group a o k := by
  obtain ⟨c, hc, pair⟩ := hg.closer
  exact ⟨h.codeChar hg.opener, h.balanced hg.inner, c, h.codeChar hc, pair⟩

theorem stops (h : SameCode x y) (hs : x.Stops m bound p) : y.Stops m bound p := by
  refine hs.imp_right fun hnot a c hnext hc => ?_
  have hx := h.symm.codeChar hc
  rw [← h.isIdentChar]
  exact hnot a c (by rw [h.next hx, hnext]) hx

theorem units (h : SameCode x y) (hu : x.Units p q us) : y.Units p q us := by
  induction hu with
  | nil trivia => exact .nil (h.trivia trivia)
  | ident trivia word nonempty whole rest ih =>
    refine .ident (h.trivia trivia) (h.word word) nonempty (whole.imp_right fun hnot c hc => ?_) ih
    rw [← h.isIdentChar]
    exact hnot c (h.symm.codeChar hc)
  | group trivia group kind rest ih => exact .group (h.trivia trivia) (h.group group) kind ih

theorem entries (h : SameCode x y) {uss : List (List Piece)} (hu : x.Entries p q uss) :
    y.Entries p q uss := by
  induction hu with
  | one units => exact .one (h.units units)
  | comma units comma rest ih => exact .comma (h.units units) (h.codeChar comma) ih

theorem openOf (h : SameCode x y) (c : Nat) : x.openOf c = y.openOf c := by
  have transfer : ∀ {x y : Lexed} {o : Nat}, SameCode x y → x.openOf c = some o → y.openOf c = some o := by
    intro x y o h ho
    obtain ⟨a, b, ha, hb, -, pair⟩ := h.left.codeChar_of_openOf ho
    obtain ⟨hclosed, hhead, -⟩ := h.left.openOf_eq_some.mp ho
    rw [h.events] at hclosed hhead
    exact h.right.openOf_eq_some.mpr ⟨hclosed, hhead,
      (sameType_eq_true (h.codeChar ha).char (h.codeChar hb).char).mpr pair⟩
  exact Option.ext fun o => ⟨transfer h, transfer h.symm⟩

theorem groupStart (h : SameCode x y) (hc : x.CodeChar k c) :
    x.groupStart m bound k = y.groupStart m bound k := by
  rw [Lexed.groupStart, Lexed.groupStart, hc.char, (h.codeChar hc).char, h.isCode, h.openOf]
  cases m with
  | normal => rfl
  | angle =>
    have hbalance : x.balanceBack bound [c] k = y.balanceBack bound [c] k := by
      refine Option.ext fun o => ?_
      rw [h.left.balanceBack_eq_some hc, h.right.balanceBack_eq_some (h.codeChar hc)]
      constructor
      · rintro ⟨hle, a, pair, hgroup⟩
        exact ⟨hle, a, pair, h.group hgroup⟩
      · rintro ⟨hle, a, pair, hgroup⟩
        exact ⟨hle, a, pair, h.symm.group hgroup⟩
    simp only [hbalance]

theorem last (h : SameCode x y) {u : Option Piece} (hl : x.Last m bound p u) :
    y.Last m bound p u := by
  cases hl with
  | nothing trivia => exact .nothing (h.trivia trivia)
  | unpaired char closer above alone trivia =>
    exact .unpaired (h.codeChar char) closer above (by rw [← h.groupStart char, alone])
      (h.next char ▸ h.trivia trivia)
  | group char closer opener partner trivia =>
    rw [h.next char] at trivia ⊢
    exact .group (h.codeChar char) closer (h.codeChar opener) (by rw [← h.groupStart char, partner])
      (h.trivia trivia)
  | ident word nonempty above stops trivia =>
    exact .ident (h.word word) nonempty above (h.stops stops) (h.trivia trivia)
  | punct char solid closer ident above trivia =>
    rw [h.next char] at trivia ⊢
    exact .punct (h.codeChar char) solid closer (by rw [← h.isIdentChar, ident]) above (h.trivia trivia)
  | literal region kind above trivia => exact .literal (h.regionAt region) kind above (h.trivia trivia)

/-- The last piece before a gap is the same in both texts, up to the end of a literal. -/
theorem pieceBefore (h : SameCode x y) (hb : x.CodeGap bound) (hp : x.CodeGap p) (hle : bound ≤ p) :
    Option.Rel Piece.Alike (x.pieceBefore? m p bound) (y.pieceBefore? m p bound) :=
  h.right.alike_of_last (h.codeGap hp) (h.last (h.left.pieceBefore_spec hb hp hle))

end SameCode

end Lexed

end BraceScopes
