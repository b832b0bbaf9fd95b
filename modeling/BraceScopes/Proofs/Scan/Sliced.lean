import BraceScopes.Proofs.Scan.Leading
/-!
The walk back over a declaration with its slices checked. A text can be sliced between two characters
only, and a walk that slices it elsewhere has no result. The walk from a place between two characters
never does so: it comes to such places alone.
-/
namespace BraceScopes

open BraceScopes.Lex

namespace Text

variable {t : Text} {p q : Nat} {c : Char}

/-- The character before gap `p`, where the text can be sliced at `p`. -/
def before? (t : Text) (p : Nat) : Option (Option (Nat × Char)) :=
  if t.isBoundary p then some (t.charBefore p) else none

/-- The character at `p`, where the text can be sliced at `p`. -/
def at? (t : Text) (p : Nat) : Option (Option Char) :=
  if t.isBoundary p then some (t.charAt p) else none

theorem before_eq (h : t.isBoundary p = true) : t.before? p = some (t.charBefore p) := if_pos h

theorem at_eq (h : t.isBoundary p = true) : t.at? p = some (t.charAt p) := if_pos h

theorem lt_of_before (h : t.before? p = some (some (q, c))) : q < p :=
  charBefore_lt (Option.some.inj (Option.ite_none_right_eq_some.mp h).2)

end Text

namespace Lexed

namespace Sliced

def retreat (ix : Lexed) (bound p : Nat) : Option Nat :=
  if bound < p then
    match _h : ix.text.before? p with
    | none => none
    | some none => some p
    | some (some (q, c)) =>
      if isBlank c then retreat ix bound q
      else
        match _hr : ix.regionAtChar? q with
        | some r => if r.kind = .comment then retreat ix bound r.start else some p
        | none => some p
  else some bound
termination_by p
decreasing_by
  · exact Text.lt_of_before _h
  · have := Text.lt_of_before _h
    have := of_regionAtChar _hr
    omega

def skipTriviaBack (ix : Lexed) (p bound : Nat) : Option Nat :=
  match ix.regionAtGap? p with
  | some r => retreat ix bound r.start
  | none => retreat ix bound p

def identRun (ix : Lexed) (m : Mode) (bound p : Nat) : Option Nat :=
  if bound < p then
    match _h : ix.text.before? p with
    | none => none
    | some none => some p
    | some (some (q, c)) => if ix.isIdentChar m c && ix.isCode q then identRun ix m bound q else some p
  else some p
termination_by p
decreasing_by exact Text.lt_of_before _h

def balanceBack (ix : Lexed) (limit : Nat) (stack : List Char) (p : Nat) : Option (Option Nat) :=
  if limit < p then
    match _h : ix.text.before? p with
    | none => none
    | some none => some none
    | some (some (q, c)) =>
      match _hr : ix.regionAtChar? q with
      | some r => balanceBack ix limit stack r.start
      | none =>
        if c = ';' then some none
        else if (groupOpenerOf c).isSome then balanceBack ix limit (c :: stack) q
        else if isGroupOpener c then
          match stack with
          | [] => some none
          | top :: rest =>
            if groupOpenerOf top ≠ some c then some none
            else if rest.isEmpty then some (if limit ≤ q then some q else none)
            else balanceBack ix limit rest q
        else balanceBack ix limit stack q
  else some none
termination_by p
decreasing_by
  all_goals have := Text.lt_of_before _h
  · have := of_regionAtChar _hr
    omega
  all_goals assumption

def groupStart (ix : Lexed) (m : Mode) (limit close : Nat) : Option (Option Nat) := do
  match ← ix.text.at? close with
  | none => return none
  | some c =>
    if m.isCloser c && ix.isCode close then
      match m with
      | .normal => return (ix.openOf close).filter fun o => limit ≤ o && o < close
      | .angle => balanceBack ix limit [c] close
    else return none

def pieceEndingAt? (ix : Lexed) (m : Mode) (bound stop : Nat) : Option (Option Piece) := do
  match ← ix.text.before? stop with
  | none => return none
  | some (q, c) =>
    match ix.regionAtChar? q with
    | some r => return if bound ≤ r.start then some ⟨.literal, r.start, stop⟩ else none
    | none =>
      if m.isCloser c then
        let found ← groupStart ix m bound q
        return found.map fun o => ⟨.group ((ix.text.charAt o).getD c), o, stop⟩
      else if ix.isIdentChar m c then
        let start ← identRun ix m bound q
        return some ⟨.ident, start, stop⟩
      else return some ⟨.punct c, q, stop⟩

def pieceBefore? (ix : Lexed) (m : Mode) (p bound : Nat) : Option (Option Piece) := do
  let stop ← skipTriviaBack ix p bound
  if stop ≤ bound then return none else pieceEndingAt? ix m bound stop

def leadingPiece? (ix : Lexed) (bound p : Nat) : Option (Option Nat) := do
  match ← pieceBefore? ix .angle p bound with
  | none => return none
  | some u =>
    match u.kind with
    | .ident => return some u.start
    | .group '<' => return some u.start
    | .group '[' => return some u.start
    | .group '(' =>
      match ← pieceBefore? ix .angle u.start bound with
      | some a =>
        if a.kind = .ident then
          let c ← ix.text.at? a.start
          return if c = some '@' then some a.start else none
        else return none
      | none => return none
    | _ => return none

/-- Each piece begins before the gap it is read from; the test whether it does is for termination. -/
def extendBack (ix : Lexed) (bound p : Nat) : Option Nat :=
  match leadingPiece? ix bound p with
  | none => none
  | some none => some p
  | some (some q) => if q < p then extendBack ix bound q else none
termination_by p

def declarationStart (ix : Lexed) (p bound : Nat) : Option Nat := do
  let p := ix.text.floor p
  let bound := ix.text.floor bound
  let p := match ix.regionAtGap? p with
    | some r => r.start
    | none => p
  let start ← identRun ix .normal 0 p
  extendBack ix bound (max start bound)

end Sliced

variable {ix : Lexed} {m : Mode} {bound limit p q k o : Nat} {c : Char} {r : Region} {u : Piece}
  {stack : List Char}

namespace Sliced

theorem retreat_of_charBefore (hlt : bound < p) (hp : ix.text.isBoundary p = true)
    (h : ix.text.charBefore p = some (q, c)) :
    retreat ix bound p =
      if isBlank c then retreat ix bound q
      else match ix.regionAtChar? q with
        | some r => if r.kind = .comment then retreat ix bound r.start else some p
        | none => some p := by
  have hbefore : ix.text.before? p = some (some (q, c)) := by rw [Text.before_eq hp, h]
  rw [retreat, if_pos hlt]
  split
  next hnone => simp [hbefore] at hnone
  next hnone => simp [hbefore] at hnone
  next a d ha =>
    cases hbefore.symm.trans ha
    split
    next => rfl
    next =>
      split
      next r hr => simp only [hr]
      next hr => simp only [hr]

theorem identRun_of_charBefore (hlt : bound < p) (hp : ix.text.isBoundary p = true)
    (h : ix.text.charBefore p = some (q, c)) :
    identRun ix m bound p =
      if ix.isIdentChar m c && ix.isCode q then identRun ix m bound q else some p := by
  have hbefore : ix.text.before? p = some (some (q, c)) := by rw [Text.before_eq hp, h]
  rw [identRun, if_pos hlt]
  split
  next hnone => simp [hbefore] at hnone
  next hnone => simp [hbefore] at hnone
  next a d ha =>
    cases hbefore.symm.trans ha
    rfl

theorem balanceBack_of_charBefore (hlt : limit < p) (hp : ix.text.isBoundary p = true)
    (h : ix.text.charBefore p = some (q, c)) :
    balanceBack ix limit stack p =
      match ix.regionAtChar? q with
      | some r => balanceBack ix limit stack r.start
      | none =>
        if c = ';' then some none
        else if (groupOpenerOf c).isSome then balanceBack ix limit (c :: stack) q
        else if isGroupOpener c then
          match stack with
          | [] => some none
          | top :: rest =>
            if groupOpenerOf top ≠ some c then some none
            else if rest.isEmpty then some (if limit ≤ q then some q else none)
            else balanceBack ix limit rest q
        else balanceBack ix limit stack q := by
  have hbefore : ix.text.before? p = some (some (q, c)) := by rw [Text.before_eq hp, h]
  rw [balanceBack, if_pos hlt]
  split
  next hnone => simp [hbefore] at hnone
  next hnone => simp [hbefore] at hnone
  next a d ha =>
    cases hbefore.symm.trans ha
    split
    next r hr => simp only [hr]
    next hr => simp only [hr]

end Sliced

theorem isBoundary_identRun (hp : ix.text.isBoundary p = true) :
    ix.text.isBoundary (ix.identRun m bound p) = true := by
  fun_induction identRun ix m bound p with
  | case1 p hlt h => exact hp
  | case2 p hlt q c h hident ih => exact ih (Text.isBoundary_of_charBefore hp h)
  | case3 p hlt q c h hident => exact hp
  | case4 p hlt => exact hp

theorem sliced_identRun (hp : ix.text.isBoundary p = true) :
    Sliced.identRun ix m bound p = some (ix.identRun m bound p) := by
  induction p using Nat.strongRecOn with
  | ind p ih =>
    by_cases hlt : bound < p
    · obtain ⟨q, c, hc, rfl⟩ := Text.exists_charBefore hp (by omega)
      have hback := Text.charBefore_next hc
      rw [Sliced.identRun_of_charBefore hlt hp hback, identRun_of_charBefore hlt hback]
      split
      next => exact ih q (ix.text.lt_next q) (Text.isBoundary_of_charAt hc)
      next => rfl
    · rw [Sliced.identRun, if_neg hlt, identRun, if_neg hlt]

namespace Complete

variable {rs : Rules} (hix : ix.Complete rs)

include hix

theorem isBoundary_retreat (hb : ix.text.isBoundary bound = true) (hp : ix.text.isBoundary p = true) :
    ix.text.isBoundary (ix.retreat bound p) = true := by
  fun_induction retreat ix bound p with
  | case1 p hlt h => exact hp
  | case2 p hlt q c h hblank ih => exact ih (Text.isBoundary_of_charBefore hp h)
  | case3 p hlt q c h hblank r hr hkind ih => exact ih (hix.extent hr).isBoundary_start
  | case4 p hlt q c h hblank r hr hkind => exact hp
  | case5 p hlt q c h hblank hr => exact hp
  | case6 p hlt => exact hb

theorem sliced_retreat (hp : ix.text.isBoundary p = true) :
    Sliced.retreat ix bound p = some (ix.retreat bound p) := by
  induction p using Nat.strongRecOn with
  | ind p ih =>
    by_cases hlt : bound < p
    · obtain ⟨q, c, hc, rfl⟩ := Text.exists_charBefore hp (by omega)
      have hqp := ix.text.lt_next q
      have hback := Text.charBefore_next hc
      rw [Sliced.retreat_of_charBefore hlt hp hback, retreat_of_charBefore hlt hback]
      split
      next => exact ih q hqp (Text.isBoundary_of_charAt hc)
      next =>
        cases hr : ix.regionAtChar? q with
        | none => rfl
        | some r =>
          have hstart := (of_regionAtChar hr).1
          simp only
          split
          next => exact ih r.start (by omega) (hix.extent hr).isBoundary_start
          next => rfl
    · rw [Sliced.retreat, if_neg hlt, retreat, if_neg hlt]

theorem isBoundary_regionAtGap (h : ix.regionAtGap? p = some r) :
    ix.text.isBoundary r.start = true :=
  (extent_of_mem (hix.regionAtGap_eq_some.mp h).1).isBoundary_start

theorem isBoundary_skipTriviaBack (hb : ix.text.isBoundary bound = true)
    (hp : ix.text.isBoundary p = true) : ix.text.isBoundary (ix.skipTriviaBack p bound) = true := by
  unfold skipTriviaBack
  split
  next r hr => exact hix.isBoundary_retreat hb (hix.isBoundary_regionAtGap hr)
  next => exact hix.isBoundary_retreat hb hp

theorem sliced_skipTriviaBack (hp : ix.text.isBoundary p = true) :
    Sliced.skipTriviaBack ix p bound = some (ix.skipTriviaBack p bound) := by
  unfold Sliced.skipTriviaBack skipTriviaBack
  cases hr : ix.regionAtGap? p with
  | none => exact hix.sliced_retreat hp
  | some r => exact hix.sliced_retreat (hix.isBoundary_regionAtGap hr)

theorem isBoundary_balanceBack (hp : ix.text.isBoundary p = true)
    (h : ix.balanceBack limit stack p = some o) : ix.text.isBoundary o = true := by
  induction p using Nat.strongRecOn generalizing stack with
  | ind p ih =>
    have hbounds := of_balanceBack h
    obtain ⟨q, c, hc, rfl⟩ := Text.exists_charBefore hp (by omega)
    have hqp := ix.text.lt_next q
    have hq := Text.isBoundary_of_charAt hc
    rw [balanceBack_of_charBefore (by omega) (Text.charBefore_next hc)] at h
    split at h
    next r hr =>
      have hstart := (of_regionAtChar hr).1
      exact ih r.start (by omega) (hix.extent hr).isBoundary_start h
    next =>
      split at h
      next => simp at h
      next =>
        split at h
        next => exact ih q hqp hq h
        next =>
          split at h
          next =>
            cases stack with
            | nil => simp at h
            | cons top rest =>
              simp only at h
              split at h
              next => simp at h
              next =>
                split at h
                next =>
                  obtain ⟨-, h⟩ := Option.ite_none_right_eq_some.mp h
                  exact Option.some.inj h ▸ hq
                next => exact ih q hqp hq h
          next => exact ih q hqp hq h

theorem sliced_balanceBack (hp : ix.text.isBoundary p = true) :
    Sliced.balanceBack ix limit stack p = some (ix.balanceBack limit stack p) := by
  induction p using Nat.strongRecOn generalizing stack with
  | ind p ih =>
    by_cases hlt : limit < p
    · obtain ⟨q, c, hc, rfl⟩ := Text.exists_charBefore hp (by omega)
      have hqp := ix.text.lt_next q
      have hq := Text.isBoundary_of_charAt hc
      have hback := Text.charBefore_next hc
      rw [Sliced.balanceBack_of_charBefore hlt hp hback, balanceBack_of_charBefore hlt hback]
      cases hr : ix.regionAtChar? q with
      | some r =>
        have hstart := (of_regionAtChar hr).1
        exact ih r.start (by omega) (hix.extent hr).isBoundary_start
      | none =>
        simp only [ih q hqp hq]
        cases stack with
        | nil => simp only [apply_ite some]
        | cons top rest => simp only [apply_ite some]
    · rw [Sliced.balanceBack, if_neg hlt, balanceBack, if_neg hlt]

theorem isBoundary_groupStart (h : ix.groupStart m limit k = some o) :
    ix.text.isBoundary o = true := by
  unfold groupStart at h
  split at h
  next => simp at h
  next c hc =>
    obtain ⟨-, h⟩ := Option.ite_none_right_eq_some.mp h
    cases m with
    | normal =>
      obtain ⟨a, b, ha, -⟩ := hix.codeChar_of_openOf (Option.filter_eq_some_iff.mp h).1
      exact Text.isBoundary_of_charAt ha.char
    | angle => exact hix.isBoundary_balanceBack (Text.isBoundary_of_charAt hc) h

theorem sliced_groupStart (hk : ix.text.isBoundary k = true) :
    Sliced.groupStart ix m limit k = some (ix.groupStart m limit k) := by
  simp only [Sliced.groupStart, Text.at_eq hk, Option.bind_eq_bind, Option.bind_some, Option.pure_def]
  unfold groupStart
  cases ix.text.charAt k with
  | none => rfl
  | some c =>
    simp only
    split
    next =>
      cases m with
      | normal => rfl
      | angle => exact hix.sliced_balanceBack hk
    next => rfl

theorem sliced_pieceEndingAt {stop : Nat} (hstop : ix.text.isBoundary stop = true) :
    Sliced.pieceEndingAt? ix m bound stop = some (ix.pieceEndingAt? m bound stop) := by
  simp only [Sliced.pieceEndingAt?, Text.before_eq hstop, Option.bind_eq_bind, Option.bind_some,
    Option.pure_def]
  unfold pieceEndingAt?
  cases hback : ix.text.charBefore stop with
  | none => rfl
  | some found =>
    obtain ⟨q, c⟩ := found
    have hq := Text.isBoundary_of_charBefore hstop hback
    simp only [hix.sliced_groupStart hq, sliced_identRun hq, Option.bind_some]
    cases ix.regionAtChar? q with
    | some r => rfl
    | none =>
      simp only
      split
      next => rfl
      next => split <;> rfl

theorem sliced_pieceBefore (hb : ix.text.isBoundary bound = true) (hp : ix.text.isBoundary p = true) :
    Sliced.pieceBefore? ix m p bound = some (ix.pieceBefore? m p bound) := by
  simp only [Sliced.pieceBefore?, hix.sliced_skipTriviaBack hp, Option.bind_eq_bind, Option.bind_some,
    Option.pure_def]
  unfold pieceBefore?
  split
  next => rfl
  next => exact hix.sliced_pieceEndingAt (hix.isBoundary_skipTriviaBack hb hp)

/-- The character that a piece is read from, and what the piece is then. -/
theorem of_pieceBefore (hb : ix.text.isBoundary bound = true) (hp : ix.text.isBoundary p = true)
    (h : ix.pieceBefore? m p bound = some u) :
    ∃ q c, ix.text.charAt q = some c ∧ bound ≤ q ∧
      ((∃ r, ix.regionAtChar? q = some r ∧ bound ≤ r.start ∧ u.kind = .literal ∧ u.start = r.start) ∨
        ix.CodeChar q c ∧ ((∃ a, u.kind = .group a) ∧ ix.groupStart m bound q = some u.start ∨
          u.kind = .ident ∧ ix.isIdentChar m c = true ∧ u.start = ix.identRun m bound q ∨
          u.kind = .punct c ∧ u.start = q)) := by
  obtain ⟨hstop, h⟩ := Option.ite_none_left_eq_some.mp h
  have hboundary := hix.isBoundary_skipTriviaBack hb hp
  unfold pieceEndingAt? at h
  split at h
  next => simp at h
  next q c hback =>
    have hc := ((Text.charBefore_eq_some hboundary).mp hback).1
    have hle := Text.le_of_charBefore hb hboundary (by omega) hback
    refine ⟨q, c, hc, hle, ?_⟩
    split at h
    next r hr =>
      obtain ⟨hstart, h⟩ := Option.ite_none_right_eq_some.mp h
      cases h
      exact .inl ⟨r, hr, hstart, rfl, rfl⟩
    next hr =>
      refine .inr ⟨⟨hc, hr⟩, ?_⟩
      split at h
      next =>
        obtain ⟨o, ho, rfl⟩ := Option.map_eq_some_iff.mp h
        exact .inl ⟨⟨_, rfl⟩, ho⟩
      next =>
        split at h
        next hident =>
          cases h
          exact .inr (.inl ⟨rfl, hident, rfl⟩)
        next =>
          cases h
          exact .inr (.inr ⟨rfl, rfl⟩)

theorem isBoundary_pieceBefore (hb : ix.text.isBoundary bound = true)
    (hp : ix.text.isBoundary p = true) (h : ix.pieceBefore? m p bound = some u) :
    ix.text.isBoundary u.start = true := by
  obtain ⟨q, c, hc, -, ⟨r, hr, -, -, hu⟩ | ⟨-, ⟨-, hu⟩ | ⟨-, -, hu⟩ | ⟨-, hu⟩⟩⟩ :=
    hix.of_pieceBefore hb hp h
  · exact hu ▸ (hix.extent hr).isBoundary_start
  · exact hix.isBoundary_groupStart hu
  · exact hu ▸ isBoundary_identRun (Text.isBoundary_of_charAt hc)
  · exact hu ▸ Text.isBoundary_of_charAt hc

theorem isBoundary_leadingPiece (hb : ix.text.isBoundary bound = true)
    (hp : ix.text.isBoundary p = true) (h : ix.leadingPiece? bound p = some q) :
    ix.text.isBoundary q = true := by
  obtain ⟨u, hu, ⟨-, rfl⟩ | ⟨-, a, ha, -, -, rfl⟩⟩ := leadingPiece_eq_some.mp h
  · exact hix.isBoundary_pieceBefore hb hp hu
  · exact hix.isBoundary_pieceBefore hb (hix.isBoundary_pieceBefore hb hp hu) ha

theorem sliced_leadingPiece (hb : ix.text.isBoundary bound = true) (hp : ix.text.isBoundary p = true) :
    Sliced.leadingPiece? ix bound p = some (ix.leadingPiece? bound p) := by
  simp only [Sliced.leadingPiece?, hix.sliced_pieceBefore hb hp, Option.bind_eq_bind, Option.bind_some,
    Option.pure_def]
  unfold leadingPiece?
  cases hu : ix.pieceBefore? .angle p bound with
  | none => rfl
  | some u =>
    have hstart := hix.isBoundary_pieceBefore hb hp hu
    cases hkind : u.kind with
    | ident | literal | punct c => simp only [hkind]
    | group o =>
      by_cases hangle : o = '<'
      · simp only [hkind, hangle]
      by_cases hsquare : o = '['
      · simp only [hkind, hsquare]
      by_cases hround : o = '('
      · simp only [Option.bind_some, hkind, hround, hix.sliced_pieceBefore hb hstart]
        cases ha : ix.pieceBefore? .angle u.start bound with
        | none => rfl
        | some a =>
          simp only [Text.at_eq (hix.isBoundary_pieceBefore hb hstart ha), Option.bind_some]
          by_cases hident : a.kind = .ident <;> simp [hident]
      · simp [hkind, hangle, hsquare, hround]

theorem sliced_extendBack (hb : ix.text.isBoundary bound = true) (hp : ix.text.isBoundary p = true) :
    Sliced.extendBack ix bound p = some (ix.extendBack bound p) := by
  fun_induction extendBack ix bound p with
  | case1 p h => rw [Sliced.extendBack, hix.sliced_leadingPiece hb hp, h]
  | case2 p q h ih =>
    rw [Sliced.extendBack, hix.sliced_leadingPiece hb hp, h]
    simp only [leadingPiece_lt h, ↓reduceIte]
    exact ih (hix.isBoundary_leadingPiece hb hp h)

end Complete

end Lexed

end BraceScopes
