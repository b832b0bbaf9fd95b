import BraceScopes.Lex.Index
/-!
Balanced groups. Brackets of code are paired by the lexed text; where types are written, angle brackets
pair as well, and all four types have to be balanced inside a group.
-/
namespace BraceScopes

/-- How brackets and identifiers are read. -/
inductive Mode where
  /-- Code in general. -/
  | normal
  /-- Types, where angle brackets pair and a qualified or annotated name is one identifier. -/
  | angle
deriving DecidableEq

def groupOpenerOf (c : Char) : Option Char := if c = '>' then some '<' else openerOf c

def isGroupOpener (c : Char) : Bool := isOpener c || c == '<'

namespace Mode

def isCloser (m : Mode) (c : Char) : Bool := (openerOf c).isSome || (m == .angle && c == '>')

def isOpener (m : Mode) (c : Char) : Bool := BraceScopes.isOpener c || (m == .angle && c == '<')

end Mode

namespace Lexed

def isIdentChar (ix : Lexed) (m : Mode) (c : Char) : Bool :=
  match m with
  | .normal => ix.rules.isIdentChar c
  | .angle => ix.rules.isTypeIdentChar c

/-- Reads back from gap `p` for the opening bracket that balances the closing brackets of `stack`,
innermost first. A semicolon of code ends the search. -/
def balanceBack (ix : Lexed) (limit : Nat) (stack : List Char) (p : Nat) : Option Nat :=
  if limit < p then
    match _h : ix.text.charBefore p with
    | none => none
    | some (q, c) =>
      match _hr : ix.regionAtChar? q with
      | some r => balanceBack ix limit stack r.start
      | none =>
        if c = ';' then none
        else if (groupOpenerOf c).isSome then balanceBack ix limit (c :: stack) q
        else if isGroupOpener c then
          match stack with
          | [] => none
          | top :: rest =>
            if groupOpenerOf top ≠ some c then none
            else if rest.isEmpty then if limit ≤ q then some q else none
            else balanceBack ix limit rest q
        else balanceBack ix limit stack q
  else none
termination_by p
decreasing_by
  all_goals have := Text.charBefore_lt _h
  · have := of_regionAtChar _hr
    omega
  all_goals assumption

/-- Reads forward from `p` for the closing bracket that balances the opening brackets of `stack`,
innermost first. -/
def balanceForward (ix : Lexed) (limit : Nat) (stack : List Char) (p : Nat) : Option Nat :=
  if p < limit then
    match _hr : ix.regionAtChar? p with
    | some r => balanceForward ix limit stack r.stop
    | none =>
      match ix.text.charAt p with
      | none => none
      | some c =>
        if isGroupOpener c then balanceForward ix limit (c :: stack) (ix.text.next p)
        else if (groupOpenerOf c).isSome then
          match stack with
          | [] => none
          | top :: rest =>
            if groupOpenerOf c ≠ some top then none
            else if rest.isEmpty then some p
            else balanceForward ix limit rest (ix.text.next p)
        else balanceForward ix limit stack (ix.text.next p)
  else none
termination_by limit - p
decreasing_by
  · have := of_regionAtChar _hr
    omega
  all_goals
    have := ix.text.lt_next p
    omega

/-- Where the group opens that the character at `close` ends, not below `limit`. -/
def groupStart (ix : Lexed) (m : Mode) (limit close : Nat) : Option Nat :=
  match ix.text.charAt close with
  | none => none
  | some c =>
    if m.isCloser c && ix.isCode close then
      match m with
      | .normal => (ix.openOf close).filter fun o => limit ≤ o && o < close
      | .angle => ix.balanceBack limit [c] close
    else none

/-- Where the group closes that the character at `o` begins, below `limit`. -/
def groupEnd (ix : Lexed) (m : Mode) (limit o : Nat) : Option Nat :=
  match ix.text.charAt o with
  | none => none
  | some c =>
    if m.isOpener c && ix.isCode o then
      match m with
      | .normal => (ix.closeOf o).filter fun c => o < c && c < limit
      | .angle => ix.balanceForward limit [c] (o + 1)
    else none

theorem of_balanceBack {ix : Lexed} {limit p o : Nat} {stack : List Char}
    (h : ix.balanceBack limit stack p = some o) : limit ≤ o ∧ o < p := by
  fun_induction balanceBack ix limit stack p with
  | case2 stack p hlt q c hq r hr ih =>
    have := Text.charBefore_lt hq
    have := of_regionAtChar hr
    have := ih h
    omega
  | case4 stack p hlt q c hq hr hs hc ih | case10 stack p hlt q c hq hr hs hc ho ih =>
    have := Text.charBefore_lt hq
    have := ih h
    omega
  | case7 p hlt q c hq hr hs hc ho top rest hm he hl =>
    have := Text.charBefore_lt hq
    cases h
    omega
  | case9 p hlt q c hq hr hs hc ho top rest hm he ih =>
    have := Text.charBefore_lt hq
    have := ih h
    omega
  | _ => simp_all

theorem le_of_balanceForward {ix : Lexed} {limit p c : Nat} {stack : List Char}
    (h : ix.balanceForward limit stack p = some c) : p ≤ c := by
  fun_induction balanceForward ix limit stack p with
  | case1 stack p hlt r hr ih =>
    have := of_regionAtChar hr
    have := ih h
    omega
  | case3 stack p hlt hr c hc ho ih | case8 stack p hlt hr c hc ho hg ih =>
    have := ix.text.lt_next p
    have := ih h
    omega
  | case7 p hlt hr c hc ho hg top rest hm he ih =>
    have := ix.text.lt_next p
    have := ih h
    omega
  | case6 => cases h; exact Nat.le_refl _
  | _ => simp_all

/-- A group opens before it closes, and not below the limit. -/
theorem of_groupStart {ix : Lexed} {m : Mode} {limit close o : Nat}
    (h : ix.groupStart m limit close = some o) : limit ≤ o ∧ o < close := by
  unfold groupStart at h
  split at h
  next => simp at h
  next c hc =>
    split at h
    next =>
      cases m with
      | normal =>
        have h := (Option.filter_eq_some_iff.mp h).2
        simpa using h
      | angle => exact of_balanceBack h
    next => simp at h

/-- A group closes after it opens. -/
theorem lt_of_groupEnd {ix : Lexed} {m : Mode} {limit o c : Nat}
    (h : ix.groupEnd m limit o = some c) : o < c := by
  unfold groupEnd at h
  split at h
  next => simp at h
  next =>
    split at h
    next =>
      cases m with
      | normal =>
        have h := (Option.filter_eq_some_iff.mp h).2
        simp only [Bool.and_eq_true, decide_eq_true_eq] at h
        exact h.1
      | angle => exact le_of_balanceForward h
    next => simp at h

end Lexed

end BraceScopes
