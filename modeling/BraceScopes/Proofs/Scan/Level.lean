import BraceScopes.Proofs.ArgList.Entries
import BraceScopes.Proofs.Scan.Forward
import BraceScopes.Proofs.Scan.Matches
/-!
Reading code on one level. What is read over as a whole, be it trivia, an identifier, a group or a list
of types, leaves the same brackets open, however unbalanced the code around it is.
-/
namespace BraceScopes

open BraceScopes.Lex

namespace Lexed

/-- The same brackets are open at two gaps of a Java text. -/
def SameLevel (ix : Lexed) (p q : Nat) : Prop :=
  stackBelow p (events ix.text .java) = stackBelow q (events ix.text .java)

variable {ix : Lexed} {m : Mode} {limit p q k o : Nat} {c a : Char} {u : Piece} {us : List Piece}
  {uss : List (List Piece)} {stack : List Char}

theorem SameLevel.trans (h : ix.SameLevel p k) (h' : ix.SameLevel k q) : ix.SameLevel p q :=
  Eq.trans h h'

theorem Units.balanced (hix : ix.IsJava) (h : ix.Units p q us) : ix.Balanced p q := by
  induction h with
  | nil trivia => exact trivia.balanced
  | ident trivia word nonempty whole rest ih =>
    exact trivia.balanced.trans ((word.balanced hix).trans ih)
  | group trivia group kind rest ih =>
    obtain ⟨c, hc, pair⟩ := group.closer
    exact trivia.balanced.trans (.group group.opener group.inner hc pair ih)

theorem Entries.balanced (hix : ix.IsJava) (h : ix.Entries p q uss) : ix.Balanced p q := by
  induction h with
  | one units => exact units.balanced hix
  | comma units comma rest ih =>
    rw [← ArgList.next_comma comma] at ih
    exact (units.balanced hix).trans (.char comma (by decide) ih)

namespace IsJava

variable (hix : ix.IsJava)

include hix

theorem sameLevel_balanced (h : ix.Balanced p q) : ix.SameLevel p q := (hix.stackBelow_balanced h).symm

theorem sameLevel_parse {typesOnly : Bool} {args : List Arg} (hp : ix.CodeGap p) (hq : ix.CodeGap q)
    (hle : p ≤ q) (h : ArgList.parse ix typesOnly p q = .ok args) : ix.SameLevel p q := by
  by_cases htrivia : ix.Trivia p q
  · exact hix.sameLevel_balanced htrivia.balanced
  · obtain ⟨uss, huss, -⟩ := (ArgList.parse_eq_ok hix hp hq hle htrivia).mp h
    exact hix.sameLevel_balanced (huss.balanced hix)

/-- A group that is read back ends on the level where it opens. Its brackets may be paired by the lexed
text alone, with unbalanced angle brackets inside. -/
theorem sameLevel_groupStart (hc : ix.CodeChar k c) (h : ix.groupStart m 0 k = some o) :
    ix.SameLevel o (ix.text.next k) := by
  obtain ⟨b, -, pair⟩ := hix.codeChar_groupStart hc h
  rw [hc.next_closer pair]
  rw [groupStart, hc.char] at h
  obtain ⟨-, h⟩ := Option.ite_none_right_eq_some.mp h
  cases m with
  | normal =>
    obtain ⟨hclosed, hhead, -⟩ := hix.openOf_eq_some.mp (Option.filter_eq_some_iff.mp h).1
    obtain ⟨d, hd, hcloser⟩ := hix.mem_closed.mp hclosed
    rw [SameLevel, hix.stackBelow_closer hd hcloser,
      stackBelow_of_head (pairwise_events ix.text .java) hhead, List.tail_cons]
  | angle =>
    obtain ⟨-, b, pair, hgroup⟩ := (hix.balanceBack_eq_some hc).mp h
    exact hix.sameLevel_balanced (.group hgroup.opener hgroup.inner hc pair (.nil _))

/-- A piece that is read back begins on the level it was read from, unless it is an opening bracket. -/
theorem sameLevel_last (h : ix.Last m 0 p (some u)) (hu : ∀ c, u.kind = .punct c → isOpener c = false) :
    ix.SameLevel u.start p := by
  cases h with
  | group char closer opener partner trivia =>
    exact (hix.sameLevel_groupStart char partner).trans (hix.sameLevel_balanced trivia.balanced)
  | ident word nonempty above stops trivia =>
    exact hix.sameLevel_balanced ((word.balanced hix).trans trivia.balanced)
  | @punct k c char solid closer ident above trivia =>
    have hcloser : openerOf c = none := by
      simp only [Mode.isCloser, Bool.or_eq_false_iff] at closer
      exact Option.isSome_eq_false_iff.mp closer.1 |> Option.isNone_iff_eq_none.mp
    have hnext : ix.SameLevel k (ix.text.next k) := (hix.stackBelow_next char (hu c rfl) hcloser).symm
    exact hnext.trans (hix.sameLevel_balanced trivia.balanced)
  | literal region kind above trivia =>
    exact hix.sameLevel_balanced (.region region trivia.balanced)

/-- After an opening bracket one more bracket is open, unless it is an angle bracket. -/
theorem drop_stackBelow_opener (hc : ix.CodeChar p c) (hopener : isGroupOpener c = true) :
    (stackBelow (ix.text.next p) (events ix.text .java)).drop ([c].countP isOpener) =
      stackBelow p (events ix.text .java) := by
  rcases isGroupOpener_iff.mp hopener with rfl | rfl | rfl | rfl
  · rw [Text.next_of_charAt hc.char]
    exact congrArg (List.drop 1) (hix.stackBelow_opener hc rfl)
  · rw [Text.next_of_charAt hc.char]
    exact congrArg (List.drop 1) (hix.stackBelow_opener hc rfl)
  · rw [Text.next_of_charAt hc.char]
    exact congrArg (List.drop 1) (hix.stackBelow_opener hc rfl)
  · exact hix.stackBelow_next hc rfl rfl

theorem stackBelow_partner (hc : ix.CodeChar p c) (pair : groupOpenerOf c = some a) :
    stackBelow (p + 1) (events ix.text .java) =
      (stackBelow p (events ix.text .java)).drop ([a].countP isOpener) := by
  by_cases hangle : c = '>'
  · subst hangle
    obtain rfl : '<' = a := Option.some.inj pair
    rw [← hc.next_closer pair]
    exact hix.stackBelow_next hc rfl rfl
  · obtain ⟨hopener, hcloser⟩ := isOpener_of_pair hangle pair
    rw [hix.stackBelow_closer hc (by rw [hcloser]; rfl), List.countP_singleton, if_pos hopener,
      List.drop_one]

/-- Going forward to the bracket that balances `stack` takes off the brackets of `stack`, the angle
brackets among them apart, and nothing else. -/
theorem stackBelow_balanceForward (hlimit : ix.CodeGap limit) (hp : ix.CodeGap p) (hle : p ≤ limit)
    (h : ix.balanceForward limit stack p = some k) :
    stackBelow (k + 1) (events ix.text .java) =
      (stackBelow p (events ix.text .java)).drop (stack.countP isOpener) := by
  induction hn : limit - p using Nat.strongRecOn generalizing p stack with
  | ind n ih =>
    rcases Nat.lt_or_eq_of_le hle with hlt | rfl
    · rcases hix.at_codeGap hp hlimit hlt with ⟨c, hc, hgap, hle'⟩ | ⟨r, hr, hgap, hle'⟩
      · have hpn := ix.text.lt_next p
        -- The stack is free in the induction: a bracket changes it together with the open brackets.
        have rest : ∀ stack, ix.balanceForward limit stack (ix.text.next p) = some k →
            stackBelow (k + 1) (events ix.text .java) =
              (stackBelow (ix.text.next p) (events ix.text .java)).drop (stack.countP isOpener) :=
          fun stack h => ih (limit - ix.text.next p) (by omega) hgap hle' h rfl
        have hcount : ∀ top below, (top :: below).countP isOpener =
            [top].countP isOpener + below.countP isOpener := by
          intro top below
          rw [List.countP_cons, List.countP_singleton, Nat.add_comm]
        rw [balanceForward_code hc hlt] at h
        split at h
        next hopener =>
          rw [rest _ h, ← hix.drop_stackBelow_opener hc hopener, List.drop_drop, hcount]
        next hopener =>
          split at h
          next hcloser =>
            split at h
            next => simp at h
            next top below =>
              obtain ⟨hpair, h⟩ := Option.ite_none_left_eq_some.mp h
              have pair := not_not.mp hpair
              have hnext := hix.stackBelow_partner hc pair
              cases below with
              | nil =>
                cases h
                exact hnext
              | cons top' below =>
                rw [rest _ h, hc.next_closer pair, hnext, List.drop_drop,
                  hcount top (top' :: below)]
          next hcloser =>
            rw [rest _ h, hix.stackBelow_unpaired hc (Bool.eq_false_iff.mpr hopener)
              (Option.not_isSome_iff_eq_none.mp hcloser)]
      · have hnonempty := (hix.delimited hr.region).nonempty
        have hstart := hr.start
        rw [balanceForward_region hr hlt] at h
        rw [ih (limit - r.stop) (by omega) hgap hle' h rfl, hix.stackBelow_region hr]
    · simp [balanceForward_limit (Nat.le_refl p)] at h

theorem sameLevel_groupEnd (hlimit : ix.CodeGap limit) (hc : ix.CodeChar o c) (hlt : o < limit)
    (h : ix.groupEnd .angle limit o = some k) : ix.SameLevel o (k + 1) := by
  rw [groupEnd_angle_code hc] at h
  obtain ⟨hopener, h⟩ := Option.ite_none_right_eq_some.mp h
  have hopener : isGroupOpener c = true := by simpa [Mode.isOpener, isGroupOpener] using hopener
  have hnext : ix.text.next o = o + 1 := by
    rw [Text.next_of_charAt hc.char]
    rcases isGroupOpener_iff.mp hopener with rfl | rfl | rfl | rfl <;> rfl
  have hgap := hix.codeGap_next hc
  have hinner := hix.drop_stackBelow_opener hc hopener
  rw [hnext] at hgap hinner
  rw [SameLevel, ← hinner, hix.stackBelow_balanceForward hlimit hgap (by omega) h]

theorem skipTriviaForward_spec (hlimit : ix.CodeGap limit) (hp : ix.CodeGap p) (hle : p ≤ limit) :
    ix.Trivia p (ix.skipTriviaForward limit p) ∧ ix.CodeGap (ix.skipTriviaForward limit p) := by
  induction hn : limit - p using Nat.strongRecOn generalizing p with
  | ind n ih =>
    rcases Nat.lt_or_eq_of_le hle with hlt | rfl
    · rcases hix.at_codeGap hp hlimit hlt with ⟨c, hc, hgap, hle'⟩ | ⟨r, hr, hgap, hle'⟩
      · have hpn := ix.text.lt_next p
        rw [skipTriviaForward_code hc hlt]
        split
        next hblank =>
          obtain ⟨htrivia, hstop⟩ := ih (limit - ix.text.next p) (by omega) hgap hle' rfl
          exact ⟨.blank hc hblank htrivia, hstop⟩
        next => exact ⟨.nil p, hp⟩
      · have hnonempty := (hix.delimited hr.region).nonempty
        have hstart := hr.start
        rw [hix.skipTriviaForward_region hr hlt]
        split
        next hkind =>
          obtain ⟨htrivia, hstop⟩ := ih (limit - r.stop) (by omega) hgap hle' rfl
          exact ⟨.comment hr hkind htrivia, hstop⟩
        next => exact ⟨.nil p, hp⟩
    · rw [skipTriviaForward_eq_limit (Nat.le_refl p)]
      exact ⟨.nil p, hp⟩

theorem identEnd_spec (hlimit : ix.CodeGap limit) (hp : ix.CodeGap p) (hle : p ≤ limit) :
    ix.Word m p (ix.identEnd m limit p) ∧ ix.identEnd m limit p ≤ limit := by
  induction hn : limit - p using Nat.strongRecOn generalizing p with
  | ind n ih =>
    rcases Nat.lt_or_eq_of_le hle with hlt | rfl
    · rcases hix.at_codeGap hp hlimit hlt with ⟨c, hc, hgap, hle'⟩ | ⟨r, hr, -, -⟩
      · have hpn := ix.text.lt_next p
        rw [identEnd_code hc hlt]
        split
        next hident =>
          obtain ⟨hword, hend⟩ := ih (limit - ix.text.next p) (by omega) hgap hle' rfl
          exact ⟨.char hc hident hword, hend⟩
        next => exact ⟨.nil p, hle⟩
      · rw [hix.identEnd_region hr]
        exact ⟨.nil p, hle⟩
    · rw [identEnd_limit (Nat.le_refl p)]
      exact ⟨.nil p, hle⟩

theorem stepForward_spec (hlimit : ix.CodeGap limit) (hp : ix.CodeGap p) (hlt : p < limit)
    (h : ix.stepForward? limit p = some q) : ix.SameLevel p q ∧ ix.CodeGap q ∧ q ≤ limit := by
  rcases hix.at_codeGap hp hlimit hlt with ⟨c, hc, hgap, hle⟩ | ⟨r, hr, -, -⟩
  · rw [stepForward_code hc] at h
    split at h
    next hident =>
      cases h
      obtain ⟨hword, hend⟩ := hix.identEnd_spec (m := .angle) hlimit hp (Nat.le_of_lt hlt)
      exact ⟨hix.sameLevel_balanced (hword.balanced hix), hix.codeGap_word hword hp, hend⟩
    next =>
      split at h
      next =>
        obtain ⟨k, hk, rfl⟩ := Option.map_eq_some_iff.mp h
        refine ⟨hix.sameLevel_groupEnd hlimit hc hlt hk, ?_⟩
        rw [groupEnd_angle_code hc] at hk
        obtain ⟨d, b, hd, pair, hkl⟩ := closer_of_balanceForward (Option.ite_none_right_eq_some.mp hk).2
        rw [← hd.next_closer pair]
        exact ⟨hix.codeGap_next hd, Text.next_le_of_isBoundary hd.char hkl hlimit.boundary⟩
      next =>
        obtain ⟨hmark, h⟩ := Option.ite_none_right_eq_some.mp h
        cases h
        simp only [Bool.or_eq_true, beq_iff_eq] at hmark
        have hnext : ix.text.next p = p + 1 := by
          rw [Text.next_of_charAt hc.char]
          rcases hmark with rfl | rfl <;> rfl
        rw [hnext] at hgap hle
        refine ⟨?_, hgap, hle⟩
        rw [← hnext]
        rcases hmark with rfl | rfl
        · exact hix.sameLevel_balanced (.char hc (by decide) (.nil _))
        · exact hix.sameLevel_balanced (.char hc (by decide) (.nil _))
  · simp [stepForward_region hr] at h

/-- A list of types that leads to a gap begins on its level. -/
theorem sameLevel_skipsForwardTo (hlimit : ix.CodeGap limit) (hp : ix.CodeGap p) (hle : p ≤ limit)
    (h : ix.skipsForwardTo limit p = true) : ix.SameLevel p limit := by
  induction hn : limit - p using Nat.strongRecOn generalizing p with
  | ind n ih =>
    obtain ⟨htrivia, hgap⟩ := hix.skipTriviaForward_spec hlimit hp hle
    obtain ⟨hge, hskip⟩ := ix.of_skipTriviaForward hle
    have hfirst := hix.sameLevel_balanced htrivia.balanced
    rw [skipsForwardTo] at h
    split at h
    next hend =>
      rw [hend] at hfirst
      exact hfirst
    next hend =>
      split at h
      next => simp at h
      next q hq =>
        have hlt := Nat.lt_of_le_of_ne hskip hend
        have hadvance := lt_of_stepForward hlt hq
        obtain ⟨hstep, hqgap, hqle⟩ := hix.stepForward_spec hlimit hgap hlt hq
        exact hfirst.trans (hstep.trans (ih (limit - q) (by omega) hqgap hqle h rfl))

end IsJava

end Lexed

end BraceScopes
