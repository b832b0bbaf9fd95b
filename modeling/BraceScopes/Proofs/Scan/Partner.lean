import BraceScopes.Proofs.Scan.Forward
/-!
Reading forward from an opening bracket and reading back from a closing bracket find each other, and
brackets that pair in types pair in the lexed text too. Only a semicolon makes a difference: it ends the
search back and not the search forward.
-/
namespace BraceScopes

open BraceScopes.Lex

namespace Lexed

variable {ix : Lexed} {limit p q k o : Nat} {a c : Char} {stack : List Char}

/-- What is left to read forward from `p` when the opening brackets of `stack` are unpaired and the last
of them is paired at `k`. -/
def Awaited (ix : Lexed) (k : Nat) : List Char → Nat → Prop
  | [], _ => False
  | [a], p => ∃ c, groupOpenerOf c = some a ∧ ix.CodeChar k c ∧ ix.Balanced p k
  | a :: rest, p => ∃ c m, groupOpenerOf c = some a ∧ ix.CodeChar m c ∧ ix.Balanced p m ∧
      ix.Awaited k rest (m + 1)

/-- Balanced code may be put before what is left to read. -/
theorem Awaited.balanced (h : ix.Awaited k stack q) (hp : ix.Balanced p q) : ix.Awaited k stack p := by
  match stack with
  | [] => exact h
  | [a] =>
    obtain ⟨c, pair, closer, inner⟩ := h
    exact ⟨c, pair, closer, hp.trans inner⟩
  | a :: b :: rest =>
    obtain ⟨c, m, pair, closer, inner, left⟩ := h
    exact ⟨c, m, pair, closer, hp.trans inner, left⟩

/-- The character of code at an opening bracket where a group begins. -/
theorem codeChar_of_groupEnd (h : ix.groupEnd .angle limit o = some k) :
    ∃ a, ix.CodeChar o a ∧ isGroupOpener a = true ∧ ix.balanceForward limit [a] (o + 1) = some k := by
  unfold groupEnd at h
  split at h
  next => simp at h
  next a ha =>
    obtain ⟨hopener, h⟩ := Option.ite_none_right_eq_some.mp h
    obtain ⟨hopener, hcode⟩ := Bool.and_eq_true_iff.mp hopener
    exact ⟨a, codeChar_of_isCode ha hcode, by simpa [Mode.isOpener, isGroupOpener] using hopener, h⟩

/-- The character of code at a closing bracket where a group ends. -/
theorem codeChar_of_groupStart (h : ix.groupStart .angle limit k = some o) :
    ∃ c, ix.CodeChar k c ∧ Mode.angle.isCloser c = true := by
  unfold groupStart at h
  split at h
  next => simp at h
  next c hc =>
    obtain ⟨hcloser, -⟩ := Option.ite_none_right_eq_some.mp h
    obtain ⟨hcloser, hcode⟩ := Bool.and_eq_true_iff.mp hcloser
    exact ⟨c, codeChar_of_isCode hc hcode, hcloser⟩

namespace Complete

variable {rs : Rules} (hix : ix.Complete rs)

include hix

theorem awaited_of_balanceForward (hp : ix.CodeGap p) (hstack : stack ≠ [])
    (hsemi : ∀ i, p ≤ i → i < k → ¬ ix.CodeChar i ';')
    (h : ix.balanceForward limit stack p = some k) : ix.Awaited k stack p := by
  induction hn : limit - p using Nat.strongRecOn generalizing p stack with
  | ind n ih =>
    have hpk := le_of_balanceForward h
    obtain ⟨b, a, hb, -, hk⟩ := closer_of_balanceForward h
    have hsize := Text.lt_size_of_charAt hb.char
    cases hr : ix.regionAtChar? p with
    | some r =>
      have hregion := hix.codeGap_region hp hr
      have hlt := hix.nonempty hr
      have hstart := hregion.start
      rw [balanceForward_region hregion (by omega)] at h
      have hle := le_of_balanceForward h
      have closed : r.terminated = true := by
        refine Bool.eq_true_of_not_eq_false fun hopen => ?_
        have := (hix.extent hr).unterminated hopen
        omega
      have left := ih (limit - r.stop) (by omega) (hix.codeGap_of_terminated hregion closed) hstack
        (fun i hi => hsemi i (by omega)) h rfl
      exact left.balanced (.region hregion (.nil _))
    | none =>
      obtain ⟨c, hc⟩ := Text.exists_charAt hp.boundary (by omega)
      have hc : ix.CodeChar p c := ⟨hc, hr⟩
      have hlt := ix.text.lt_next p
      have hnext := hix.codeGap_next hc
      have further : ∀ i, ix.text.next p ≤ i → i < k → ¬ ix.CodeChar i ';' :=
        fun i hi => hsemi i (by omega)
      rw [balanceForward_code hc (by omega)] at h
      split at h
      next hopener =>
        have left := ih (limit - ix.text.next p) (by omega) hnext (List.cons_ne_nil _ _) further h rfl
        match stack, hstack, left with
        | d :: rest, _, ⟨e, m, pair, closer, inner, left⟩ =>
          rw [hc.next_opener pair] at inner
          exact left.balanced (.group hc inner closer pair (.nil _))
      next hopener =>
        split at h
        next hcloser =>
          match stack with
          | top :: rest =>
            simp only at h
            split at h
            next => simp at h
            next pair =>
              have pair : groupOpenerOf c = some top := not_not.mp pair
              match rest with
              | [] =>
                cases h
                exact ⟨c, pair, hc, .nil _⟩
              | d :: rest =>
                have left := ih (limit - ix.text.next p) (by omega) hnext (List.cons_ne_nil _ _)
                  further h rfl
                rw [hc.next_closer pair] at left
                exact ⟨c, p, pair, hc, .nil _, left⟩
        next hcloser =>
          have hnot : c ≠ ';' := by
            rintro rfl
            have := le_of_balanceForward h
            exact hsemi p (Nat.le_refl p) (by omega) hc
          have plain : IsPlain c :=
            ⟨hnot, Option.not_isSome_iff_eq_none.mp hcloser, by simpa using hopener⟩
          have left := ih (limit - ix.text.next p) (by omega) hnext hstack further h rfl
          exact left.balanced (.char hc plain (.nil _))

theorem group_of_groupEnd (h : ix.groupEnd .angle limit o = some k)
    (hsemi : ∀ i, o < i → i < k → ¬ ix.CodeChar i ';') : ∃ a, ix.Group a o k := by
  obtain ⟨a, ha, hopener, h⟩ := codeChar_of_groupEnd h
  have hnext : ix.text.next o = o + 1 := by
    rw [Text.next_of_charAt ha.char]
    rcases isGroupOpener_iff.mp hopener with rfl | rfl | rfl | rfl <;> rfl
  have hgap := hix.codeGap_next ha
  rw [hnext] at hgap
  obtain ⟨c, pair, closer, inner⟩ :=
    hix.awaited_of_balanceForward hgap (List.cons_ne_nil _ _) (fun i hi => hsemi i hi) h
  exact ⟨a, ha, inner, c, closer, pair⟩

theorem group_of_groupStart (h : ix.groupStart .angle limit k = some o) :
    limit ≤ o ∧ ∃ a c, ix.CodeChar k c ∧ groupOpenerOf c = some a ∧ ix.Group a o k := by
  obtain ⟨c, hc, hcloser⟩ := codeChar_of_groupStart h
  obtain ⟨hle, a, pair, hgroup⟩ := (hix.groupStart_angle hc hcloser).mp h
  exact ⟨hle, a, c, hc, pair, hgroup⟩

/-- A group is found from its end, above any limit that it stands above. -/
theorem groupStart_group (h : ix.Group a o k) (hle : limit ≤ o) :
    ix.groupStart .angle limit k = some o := by
  obtain ⟨c, hc, pair⟩ := h.closer
  exact (hix.groupStart_angle hc (Mode.isCloser_of_pair pair)).mpr ⟨hle, a, pair, h⟩

/-- In code that is no type a group is the same, unless it is one of angle brackets. -/
theorem groupStart_normal_group (h : ix.Group a o k) (hc : ix.CodeChar k c) (hne : c ≠ '>')
    (hle : limit ≤ o) : ix.groupStart .normal limit k = some o := by
  have hopen := hix.openOf_group h hc hne
  obtain ⟨d, hd, pair⟩ := h.closer
  obtain rfl := hc.unique hd
  have hlt := h.inner.le hix
  have hcloser : Mode.normal.isCloser c = true := by simp [Mode.isCloser, (isOpener_of_pair hne pair).2]
  rw [groupStart, hc.char]
  simp only [hcloser, hc.isCode, Bool.and_self, ↓reduceIte, hopen, Option.filter_some]
  rw [if_pos]
  simp only [Bool.and_eq_true, decide_eq_true_eq]
  omega

end Complete

end Lexed

/-- Reading back from a closing bracket and reading forward from an opening bracket find each other
whenever lexing ends, and the lexed text pairs the same brackets, if they are no angle brackets. The one
exception is that a group with a semicolon in it is found only forward. -/
theorem groupStart_groupEnd_agree (t : Text) (r : Rules) (h : finishes t r = true) :
    let ix := Lexed.ofText t r
    (∀ limit c o, ix.groupStart .angle limit c = some o →
      (∀ m, c < m → ix.groupEnd .angle m o = some c) ∧
        ((∃ b ∈ [')', ']', '\x7d'], t.charAt c = some b) → ix.groupStart .normal limit c = some o)) ∧
    ∀ m o c, ix.groupEnd .angle m o = some c → (∀ i, o < i → i < c → ¬ ix.CodeChar i ';') →
      ∀ limit ≤ o, ix.groupStart .angle limit c = some o := by
  intro ix
  have hix : ix.Complete r := Lexed.complete_ofText h
  refine ⟨fun limit c o hstart => ?_, fun m o c hend hsemi limit hle => ?_⟩
  · obtain ⟨hle, a, b, hb, pair, hgroup⟩ := hix.group_of_groupStart hstart
    refine ⟨fun m hlt => hix.groupEnd_group hgroup hlt, ?_⟩
    rintro ⟨d, hd, hc⟩
    have hchar := hb.char
    rw [Lexed.ofText_text, hc] at hchar
    cases hchar
    refine hix.groupStart_normal_group hgroup hb ?_ hle
    rintro rfl
    simp at hd
  · obtain ⟨a, hgroup⟩ := hix.group_of_groupEnd hend hsemi
    exact hix.groupStart_group hgroup hle

/-- A list of arguments with a comment in it, where a comment begins with a number sign. -/
theorem groupStart_groupEnd_agree_comment :
    let t : Text := .ofString "f(a, # )\n b[<c>])"
    let r : Rules := { lineComment := some "#" }
    let ix := Lexed.ofText t r
    finishes t r = true ∧ ix.groupStart .angle 0 16 = some 1 ∧
      (∀ m, 16 < m → ix.groupEnd .angle m 1 = some 16) ∧ ix.groupStart .normal 0 16 = some 1 ∧
      ix.groupStart .angle 1 16 = some 1 := by
  intro t r ix
  have ends : finishes t r = true := by decide +kernel
  have start : ix.groupStart .angle 0 16 = some 1 := by decide +kernel
  obtain ⟨back, forward⟩ := groupStart_groupEnd_agree t r ends
  obtain ⟨closes, opens⟩ := back 0 16 1 start
  have hsemi : ∀ i, 1 < i → i < 16 → ¬ ix.CodeChar i ';' := by
    have hnone : ∀ i < 16, t.charAt i ≠ some ';' := by decide +kernel
    intro i _ hi hcode
    exact hnone i hi (by simpa [ix] using hcode.char)
  exact ⟨ends, start, closes, opens ⟨')', by simp, by decide +kernel⟩,
    forward 17 1 16 (closes 17 (by omega)) hsemi 1 (Nat.le_refl 1)⟩

-- The semicolon ends the search back.
example : let ix := Lexed.ofText (.ofString "(a;b)") .java
    ix.groupEnd .angle 5 0 = some 4 ∧ ix.groupStart .angle 0 4 = none := by
  decide +kernel

end BraceScopes
