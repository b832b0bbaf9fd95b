import BraceScopes.Proofs.Lex.Code
import BraceScopes.Proofs.Text.Classes
/-!
Balanced code, read from left to right. Going back from a closing bracket finds the opening bracket
exactly when the code between them is balanced.
-/
namespace BraceScopes

open BraceScopes.Lex

namespace Lexed

/-- Code from `p` to `q` without semicolons in which the brackets of all four types are balanced.
Comments and literals may stand anywhere. -/
inductive Balanced (ix : Lexed) : Nat → Nat → Prop
  | nil (p : Nat) : Balanced ix p p
  | char {p q : Nat} {c : Char} (char : ix.CodeChar p c) (plain : IsPlain c)
      (rest : Balanced ix (ix.text.next p) q) : Balanced ix p q
  | region {p q : Nat} {r : Region} (region : ix.RegionAt p r) (rest : Balanced ix r.stop q) :
      Balanced ix p q
  | group {p k q : Nat} {a c : Char} (opener : ix.CodeChar p a) (inner : Balanced ix (p + 1) k)
      (closer : ix.CodeChar k c) (pair : groupOpenerOf c = some a)
      (rest : Balanced ix (k + 1) q) : Balanced ix p q

/-- A balanced group from the bracket `a` at `o` to its partner at `k`. -/
structure Group (ix : Lexed) (a : Char) (o k : Nat) : Prop where
  opener : ix.CodeChar o a
  inner : ix.Balanced (o + 1) k
  closer : ∃ c, ix.CodeChar k c ∧ groupOpenerOf c = some a

variable {ix : Lexed} {limit p q k o : Nat} {a c : Char} {r : Region} {stack : List Char}

theorem balanceBack_of_charBefore (hlt : limit < p) (h : ix.text.charBefore p = some (q, c)) :
    ix.balanceBack limit stack p =
      match ix.regionAtChar? q with
      | some r => ix.balanceBack limit stack r.start
      | none =>
        if c = ';' then none
        else if (groupOpenerOf c).isSome then ix.balanceBack limit (c :: stack) q
        else if isGroupOpener c then
          match stack with
          | [] => none
          | top :: rest =>
            if groupOpenerOf top ≠ some c then none
            else if rest.isEmpty then if limit ≤ q then some q else none
            else ix.balanceBack limit rest q
        else ix.balanceBack limit stack q := by
  rw [balanceBack, if_pos hlt]
  split
  next hnone => simp [h] at hnone
  next a d ha =>
    cases h.symm.trans ha
    split
    next r hr => simp only [hr]
    next hr => cases stack <;> simp only [hr]

theorem CodeChar.next_closer (h : ix.CodeChar k c) (hc : groupOpenerOf c = some a) :
    ix.text.next k = k + 1 := by
  rw [Text.next_of_charAt h.char]
  rcases groupOpenerOf_eq_some.mp hc with ⟨rfl, -⟩ | ⟨rfl, -⟩ | ⟨rfl, -⟩ | ⟨rfl, -⟩ <;> rfl

theorem CodeChar.next_opener (h : ix.CodeChar o a) (hc : groupOpenerOf c = some a) :
    ix.text.next o = o + 1 := by
  rw [Text.next_of_charAt h.char]
  rcases groupOpenerOf_eq_some.mp hc with ⟨-, rfl⟩ | ⟨-, rfl⟩ | ⟨-, rfl⟩ | ⟨-, rfl⟩ <;> rfl

namespace Balanced

theorem trans {m : Nat} (h : ix.Balanced p m) (h' : ix.Balanced m q) : ix.Balanced p q := by
  induction h with
  | nil => exact h'
  | char char plain _ ih => exact .char char plain (ih h')
  | region region _ ih => exact .region region (ih h')
  | group opener inner closer pair _ _ ih => exact .group opener inner closer pair (ih h')

theorem le {rs : Rules} (hix : ix.Complete rs) (h : ix.Balanced p q) : p ≤ q := by
  induction h with
  | nil => exact Nat.le_refl _
  | @char p q c char plain rest ih =>
    have := ix.text.lt_next p
    omega
  | region region rest ih =>
    have := hix.nonempty region.region
    have := region.start
    omega
  | group opener inner closer pair rest ihi ihr => omega

end Balanced

theorem isOpener_of_pair (hc : c ≠ '>') (pair : groupOpenerOf c = some a) :
    isOpener a = true ∧ openerOf c = some a := by
  rcases groupOpenerOf_eq_some.mp pair with ⟨rfl, -⟩ | ⟨rfl, rfl⟩ | ⟨rfl, rfl⟩ | ⟨rfl, rfl⟩
  · exact absurd rfl hc
  all_goals exact ⟨rfl, rfl⟩

/-- From inside balanced code, balanced code leads to its end or to a closing bracket before. -/
theorem Balanced.split {rs : Rules} (hix : ix.Complete rs) (h : ix.Balanced p q) (ho : ix.CodeGap o)
    (hpo : p ≤ o) (hoq : o ≤ q) : ix.Balanced o q ∨
      ∃ k c a, ix.Balanced o k ∧ ix.CodeChar k c ∧ groupOpenerOf c = some a ∧ k < q := by
  induction h with
  | nil p =>
    obtain rfl := Nat.le_antisymm hpo hoq
    exact .inl (.nil _)
  | char char plain rest ih =>
    rcases Nat.lt_or_eq_of_le hpo with hlt | rfl
    · exact ih (Text.next_le_of_isBoundary char.char hlt ho.boundary) hoq
    · exact .inl (.char char plain rest)
  | @region p q r region rest ih =>
    rcases Nat.lt_or_eq_of_le hpo with hlt | rfl
    · have := hix.codeGap_outside ho region.region
      have := region.start
      exact ih (by omega) hoq
    · exact .inl (.region region rest)
  | @group p k q a c opener inner closer pair rest ihi ihr =>
    have hkq := rest.le hix
    rcases Nat.lt_or_eq_of_le hpo with hlt | rfl
    · rcases Nat.lt_or_ge k o with hko | hok
      · exact ihr hko hoq
      · rcases ihi hlt hok with hinner | ⟨k', c', a', hinner, hk', pair', hlt'⟩
        · exact .inr ⟨k, c, a, hinner, closer, pair, hkq⟩
        · exact .inr ⟨k', c', a', hinner, hk', pair', by omega⟩
    · exact .inl (.group opener inner closer pair rest)

theorem balanceBack_code (h : ix.CodeChar p c) (hlt : limit < ix.text.next p) :
    ix.balanceBack limit stack (ix.text.next p) =
      if c = ';' then none
      else if (groupOpenerOf c).isSome then ix.balanceBack limit (c :: stack) p
      else if isGroupOpener c then
        match stack with
        | [] => none
        | top :: rest =>
          if groupOpenerOf top ≠ some c then none
          else if rest.isEmpty then if limit ≤ p then some p else none
          else ix.balanceBack limit rest p
      else ix.balanceBack limit stack p := by
  rw [balanceBack_of_charBefore hlt h.charBefore, h.code]

namespace Complete

variable {rs : Rules} (hix : ix.Complete rs)

include hix

theorem balanceBack_region (h : ix.RegionAt p r) (hlt : limit < r.stop) :
    ix.balanceBack limit stack r.stop = ix.balanceBack limit stack p := by
  obtain ⟨q, c, hq, hr⟩ := hix.charBefore_stop h.region
  rw [balanceBack_of_charBefore hlt hq, hr, ← h.start]

/-- Going back for the partner of a bracket goes over balanced code. -/
theorem balanceBack_balanced (h : ix.Balanced p q) (hlimit : limit ≤ p) (hstack : stack ≠ []) :
    ix.balanceBack limit stack q = ix.balanceBack limit stack p := by
  induction h generalizing stack with
  | nil => rfl
  | @char p q c char plain rest ih =>
    have hlt := ix.text.lt_next p
    rw [ih (by omega) hstack, balanceBack_code char (by omega), if_neg plain.1]
    simp [plain.2.1, plain.2.2]
  | @region p q r region rest ih =>
    have := hix.nonempty region.region
    have := region.start
    rw [ih (by omega) hstack, hix.balanceBack_region region (by omega)]
  | @group p k q a c opener inner closer pair rest ihi ihr =>
    have hk := inner.le hix
    have hne : c ≠ ';' := by
      rintro rfl
      simp [groupOpenerOf, openerOf] at pair
    have hopener := isGroupOpener_of_pair pair
    have hne' : a ≠ ';' := by
      rintro rfl
      simp [isGroupOpener, isOpener] at hopener
    obtain ⟨top, rest, rfl⟩ := List.exists_cons_of_ne_nil hstack
    calc ix.balanceBack limit (top :: rest) q
        = ix.balanceBack limit (top :: rest) (ix.text.next k) := by
          rw [ihr (by omega) hstack, closer.next_closer pair]
      _ = ix.balanceBack limit (c :: top :: rest) k := by
          rw [balanceBack_code closer (by have := ix.text.lt_next k; omega), if_neg hne]
          simp [pair]
      _ = ix.balanceBack limit (c :: top :: rest) (ix.text.next p) := by
          rw [ihi (by omega) (List.cons_ne_nil _ _), opener.next_opener pair]
      _ = ix.balanceBack limit (top :: rest) p := by
          rw [balanceBack_code opener (by have := ix.text.lt_next p; omega), if_neg hne']
          simp [groupOpenerOf_of_opener hopener, hopener, pair]

theorem balanceBack_group (h : ix.Group a o k) (hc : ix.CodeChar k c) (hlimit : limit ≤ o) :
    ix.balanceBack limit [c] k = some o := by
  obtain ⟨d, hd, pair⟩ := h.closer
  obtain rfl := hc.unique hd
  have hopener := isGroupOpener_of_pair pair
  have hne : a ≠ ';' := by
    rintro rfl
    simp [isGroupOpener, isOpener] at hopener
  rw [hix.balanceBack_balanced h.inner (by omega) (List.cons_ne_nil _ _),
    ← h.opener.next_opener pair, balanceBack_code h.opener (by have := ix.text.lt_next o; omega),
    if_neg hne]
  simp [groupOpenerOf_of_opener hopener, hopener, pair, hlimit]

theorem stackBelow_unpaired (h : ix.CodeChar p c) (hopener : isGroupOpener c = false)
    (hcloser : groupOpenerOf c = none) :
    stackBelow (ix.text.next p) (events ix.text rs) = stackBelow p (events ix.text rs) := by
  refine hix.stackBelow_next h (Bool.or_eq_false_iff.mp hopener).1 ?_
  unfold groupOpenerOf at hcloser
  split at hcloser
  next => simp at hcloser
  next => exact hcloser

/-- Balanced code leaves the open brackets as they are. -/
theorem stackBelow_balanced (h : ix.Balanced p q) :
    stackBelow q (events ix.text rs) = stackBelow p (events ix.text rs) := by
  induction h with
  | nil => rfl
  | char char plain rest ih => rw [ih, hix.stackBelow_unpaired char plain.2.2 plain.2.1]
  | region region rest ih => rw [ih, hix.stackBelow_region region]
  | @group p k q a c opener inner closer pair rest ihi ihr =>
    by_cases hc : c = '>'
    · subst hc
      obtain rfl : '<' = a := Option.some.inj pair
      rw [ihr, ← closer.next_closer pair, hix.stackBelow_next closer rfl rfl, ihi,
        ← opener.next_opener pair, hix.stackBelow_next opener rfl rfl]
    · obtain ⟨hopener, hcloser⟩ := isOpener_of_pair hc pair
      rw [ihr, hix.stackBelow_closer closer (by simp [hcloser]), ihi, hix.stackBelow_opener opener hopener,
        List.tail_cons]

/-- The partner of a closing bracket, where angle brackets do not pair. -/
theorem openOf_group (h : ix.Group a o k) (hc : ix.CodeChar k c) (hne : c ≠ '>') :
    ix.openOf k = some o := by
  obtain ⟨d, hd, pair⟩ := h.closer
  obtain rfl := hc.unique hd
  obtain ⟨hopener, hcloser⟩ := isOpener_of_pair hne pair
  refine hix.openOf_eq_some.mpr ⟨hix.mem_closed.mpr ⟨c, hc, by simp [hcloser]⟩, ?_, ?_⟩
  · rw [hix.stackBelow_balanced h.inner, hix.stackBelow_opener h.opener hopener, List.head?_cons]
  · exact (sameType_eq_true h.opener.char hc.char).mpr hcloser

end Complete

/-- What is left to read back from `p` when the closing brackets of `stack` are unpaired and the last
of them is paired at `o`. -/
def Pending (ix : Lexed) (o : Nat) : List Char → Nat → Prop
  | [], _ => False
  | [c], p => ∃ a, groupOpenerOf c = some a ∧ ix.CodeChar o a ∧ ix.Balanced (o + 1) p
  | c :: rest, p => ∃ a m, groupOpenerOf c = some a ∧ ix.CodeChar m a ∧ ix.Balanced (m + 1) p ∧
      ix.Pending o rest m

/-- Balanced code may be put after what is left to read. -/
theorem Pending.balanced (h : ix.Pending o stack p) (hq : ix.Balanced p q) : ix.Pending o stack q := by
  match stack with
  | [] => exact h
  | [c] =>
    obtain ⟨a, pair, opener, inner⟩ := h
    exact ⟨a, pair, opener, inner.trans hq⟩
  | c :: d :: rest =>
    obtain ⟨a, m, pair, opener, inner, left⟩ := h
    exact ⟨a, m, pair, opener, inner.trans hq, left⟩

namespace Complete

variable {rs : Rules} (hix : ix.Complete rs)

include hix

theorem pending_of_balanceBack (hp : ix.CodeGap p) (hstack : stack ≠ [])
    (h : ix.balanceBack limit stack p = some o) : ix.Pending o stack p := by
  induction p using Nat.strongRecOn generalizing stack with
  | ind p ih =>
    have hbounds := of_balanceBack h
    rcases hix.before_codeGap hp (by omega) with ⟨q, c, hc, rfl⟩ | ⟨q, c, r, hc, rfl, hr, hstop⟩
    · have hq := hix.codeGap_of_code hc
      have hlt := ix.text.lt_next q
      rw [balanceBack_code hc (by omega)] at h
      split at h
      next => simp at h
      next hsemi =>
        split at h
        next hcloser =>
          obtain ⟨a, pair⟩ := Option.isSome_iff_exists.mp hcloser
          have left := ih q hlt hq (List.cons_ne_nil _ _) h
          rw [hc.next_closer pair]
          match stack, hstack, left with
          | d :: rest, _, ⟨b, m, pair', opener, inner, left⟩ =>
            obtain rfl := Option.some.inj (pair.symm.trans pair')
            exact left.balanced (.group opener inner hc pair (.nil _))
        next hcloser =>
          have hnone : groupOpenerOf c = none := Option.not_isSome_iff_eq_none.mp hcloser
          split at h
          next hopener =>
            match stack with
            | top :: rest =>
              simp only at h
              split at h
              next => simp at h
              next pair =>
                have pair : groupOpenerOf top = some c := not_not.mp pair
                rw [hc.next_opener pair]
                match rest with
                | [] =>
                  obtain ⟨-, h⟩ := Option.ite_none_right_eq_some.mp h
                  cases h
                  exact ⟨c, pair, hc, .nil _⟩
                | d :: rest => exact ⟨c, q, pair, hc, .nil _, ih q hlt hq (List.cons_ne_nil _ _) h⟩
          next hopener =>
            exact (ih q hlt hq hstack h).balanced (.char hc ⟨hsemi, hnone, by simpa using hopener⟩ (.nil _))
    · have hregion := hix.regionAt_start hr
      have hstart := of_regionAtChar hr
      have hlt := ix.text.lt_next q
      rw [← hstop] at h ⊢
      rw [hix.balanceBack_region hregion (by omega)] at h
      exact (ih r.start (by omega) (hix.codeGap_start hr) hstack h).balanced (.region hregion (.nil _))

theorem balanceBack_eq_some (hc : ix.CodeChar k c) :
    ix.balanceBack limit [c] k = some o ↔
      limit ≤ o ∧ ∃ a, groupOpenerOf c = some a ∧ ix.Group a o k := by
  constructor
  · intro h
    obtain ⟨a, pair, opener, inner⟩ :=
      hix.pending_of_balanceBack (hix.codeGap_of_code hc) (List.cons_ne_nil _ _) h
    exact ⟨(of_balanceBack h).1, a, pair, opener, inner, c, hc, pair⟩
  · rintro ⟨hle, a, -, hgroup⟩
    exact hix.balanceBack_group hgroup hc hle

theorem groupStart_angle (hc : ix.CodeChar k c) (hcloser : Mode.angle.isCloser c = true) :
    ix.groupStart .angle limit k = some o ↔
      limit ≤ o ∧ ∃ a, groupOpenerOf c = some a ∧ ix.Group a o k := by
  rw [groupStart, hc.char]
  simp only [hcloser, hc.isCode, Bool.and_self, ↓reduceIte]
  exact hix.balanceBack_eq_some hc

end Complete

end Lexed

end BraceScopes
