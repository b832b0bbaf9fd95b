import BraceScopes.Proofs.Lex.Chars
import BraceScopes.Proofs.Scan.Balanced
import BraceScopes.Proofs.Scan.Retreat
import BraceScopes.Scan.Piece
import BraceScopes.Scan.Skip
/-!
The last piece of Java code before a gap, in the words of the code itself: what kind of piece is read
back is decided by the last character of code that is no blank, an identifier is as long as it can be,
and a group is balanced.
-/
namespace BraceScopes

/-- The same piece, where the end of a literal does not count. -/
def Piece.Alike (u v : Piece) : Prop :=
  u = v ∨ u.kind = .literal ∧ v.kind = .literal ∧ u.start = v.start

namespace Lexed

/-- Identifier characters of code from `p` to `q`. -/
inductive Word (ix : Lexed) (m : Mode) : Nat → Nat → Prop
  | nil (p : Nat) : Word ix m p p
  | char {p q : Nat} {c : Char} (char : ix.CodeChar p c) (ident : ix.isIdentChar m c = true)
      (rest : Word ix m (ix.text.next p) q) : Word ix m p q

/-- No identifier is cut at `p` by going back no further: `p` is the bound, or the character of code
before it belongs to no identifier. -/
def Stops (ix : Lexed) (m : Mode) (bound p : Nat) : Prop :=
  p = bound ∨ ∀ a c, ix.text.next a = p → ix.CodeChar a c → ix.isIdentChar m c = false

variable {ix : Lexed} {m : Mode} {bound p q e a : Nat} {c : Char} {u : Piece}

theorem isIdentChar_angle :
    ix.isIdentChar .angle c = (ix.isIdentChar .normal c || c == '.' || c == '@') := rfl

namespace Word

theorem trans {k : Nat} (h : ix.Word m p k) (h' : ix.Word m k q) : ix.Word m p q := by
  induction h with
  | nil => exact h'
  | char char ident _ ih => exact .char char ident (ih h')

theorem le (h : ix.Word m p q) : p ≤ q := by
  induction h with
  | nil => exact Nat.le_refl _
  | @char p q c char ident rest ih =>
    have := ix.text.lt_next p
    omega

/-- The first character. -/
theorem first (h : ix.Word m p q) (hlt : p < q) : ∃ c, ix.CodeChar p c ∧ ix.isIdentChar m c = true := by
  cases h with
  | nil => omega
  | char char ident rest => exact ⟨_, char, ident⟩

/-- The last character. -/
theorem last (h : ix.Word m p q) (hlt : p < q) :
    ∃ a c, ix.CodeChar a c ∧ ix.isIdentChar m c = true ∧ ix.text.next a = q ∧ p ≤ a ∧ ix.Word m p a := by
  induction h with
  | nil => omega
  | @char p q c char ident rest ih =>
    rcases Nat.lt_or_eq_of_le rest.le with hlt | heq
    · obtain ⟨a, d, hd, hident, hnext, hle, hword⟩ := ih hlt
      have := ix.text.lt_next p
      exact ⟨a, d, hd, hident, hnext, by omega, .char char ident hword⟩
    · exact ⟨p, c, char, ident, heq, Nat.le_refl _, .nil _⟩

theorem codeChars (h : ix.Word m p q) : ∃ cs, ix.CodeChars p q cs := by
  induction h with
  | nil => exact ⟨[], .nil _⟩
  | char char ident rest ih =>
    obtain ⟨cs, hcs⟩ := ih
    exact ⟨_, .cons char hcs⟩

/-- Without dots and at signs, a word of a type is a word of code in general. -/
theorem normal (h : ix.Word .angle p q)
    (hsimple : ∀ i, p ≤ i → i < q → ix.text.charAt i ≠ some '.' ∧ ix.text.charAt i ≠ some '@') :
    ix.Word .normal p q := by
  induction h with
  | nil => exact .nil _
  | @char p q c char ident rest ih =>
    have hlt := ix.text.lt_next p
    have hle := rest.le
    obtain ⟨hdot, hat⟩ := hsimple p (Nat.le_refl _) (by omega)
    rw [char.char, ne_eq, Option.some.injEq] at hdot hat
    refine .char char (by simpa [isIdentChar_angle, hdot, hat] using ident) (ih fun i hi hiq => ?_)
    exact hsimple i (by omega) hiq

theorem angle (h : ix.Word .normal p q) : ix.Word .angle p q := by
  induction h with
  | nil => exact .nil _
  | char char ident _ ih => exact .char char (by simp [isIdentChar_angle, ident]) ih

end Word

theorem Trivia.balanced (h : ix.Trivia p q) : ix.Balanced p q := by
  induction h with
  | nil p => exact .nil p
  | blank char blank rest ih => exact .char char (isPlain_of_isBlank blank) ih
  | comment region kind rest ih => exact .region region ih

theorem Word.balanced (hix : ix.IsJava) (h : ix.Word m p q) : ix.Balanced p q := by
  induction h with
  | nil p => exact .nil p
  | char char ident rest ih =>
    exact .char char (isPlain_of_ident (isTypeIdentChar_of_isIdentChar hix.rules ident)) ih

theorem Stops.normal (h : ix.Stops .angle bound p) : ix.Stops .normal bound p := by
  refine h.imp_right fun hnot a c hnext hc => ?_
  have := hnot a c hnext hc
  simp only [isIdentChar_angle, Bool.or_eq_false_iff] at this
  exact this.1.1

theorem identRun_of_charBefore (hlt : bound < p) (h : ix.text.charBefore p = some (q, c)) :
    ix.identRun m bound p =
      if ix.isIdentChar m c && ix.isCode q then ix.identRun m bound q else p := by
  rw [identRun, if_pos hlt]
  split
  next hnone => simp [h] at hnone
  next a d ha =>
    cases h.symm.trans ha
    rfl

theorem identRun_code (h : ix.CodeChar p c) (hbound : bound ≤ p) :
    ix.identRun m bound (ix.text.next p) =
      if ix.isIdentChar m c then ix.identRun m bound p else ix.text.next p := by
  have hlt : bound < ix.text.next p := by
    have := ix.text.lt_next p
    omega
  rw [identRun_of_charBefore hlt h.charBefore, h.isCode, Bool.and_true]

theorem Word.identRun (h : ix.Word m p q) (hbound : bound ≤ p) :
    ix.identRun m bound q = ix.identRun m bound p := by
  induction h with
  | nil => rfl
  | @char p q c char ident rest ih =>
    have := ix.text.lt_next p
    rw [ih (by omega), identRun_code char hbound, if_pos ident]

namespace IsJava

variable (hix : ix.IsJava)

include hix

theorem codeGap_word (h : ix.Word m p q) (hp : ix.CodeGap p) : ix.CodeGap q := by
  induction h with
  | nil => exact hp
  | char char ident rest ih => exact ih (hix.codeGap_next char)

theorem codeGap_word_start (h : ix.Word m p q) (hq : ix.CodeGap q) : ix.CodeGap p := by
  cases h with
  | nil => exact hq
  | char char ident rest => exact hix.codeGap_of_code char

theorem simple_of_word (h : ix.Word .normal p q) :
    ∀ i, p ≤ i → i < q → ix.text.charAt i ≠ some '.' ∧ ix.text.charAt i ≠ some '@' := by
  induction h with
  | nil => exact fun i hi hiq => by omega
  | @char p q c char ident rest ih =>
    intro i hi hiq
    rcases Nat.lt_or_ge i (ix.text.next p) with hlt | hge
    · rcases Nat.lt_or_eq_of_le hi with hpi | rfl
      · rw [Text.charAt_inside char.char hpi (by rwa [← Text.next_of_charAt char.char])]
        simp
      · simp only [isIdentChar, hix.rules] at ident
        rw [char.char]
        refine ⟨?_, ?_⟩ <;>
        · intro heq
          cases heq
          exact absurd ident (by decide)
    · exact ih i hge hiq

theorem identRun_stops (hp : ix.CodeGap p) (h : ix.Stops m bound p) (hle : bound ≤ p) :
    ix.identRun m bound p = p := by
  rcases Nat.lt_or_eq_of_le hle with hlt | rfl
  · rcases hix.before_codeGap hp (by omega) with ⟨a, c, hc, rfl⟩ | ⟨a, c, r, hc, rfl, hr, hstop⟩
    · have hident : ix.isIdentChar m c = false := h.resolve_left (by omega) a c rfl hc
      simp [identRun_of_charBefore hlt hc.charBefore, hident]
    · simp [identRun_of_charBefore hlt (Text.charBefore_next hc), isCode, hr]
  · rw [identRun, if_neg (Nat.lt_irrefl _)]

/-- Going back over an identifier reads the whole of it. -/
theorem identRun_spec (hb : ix.text.isBoundary bound = true) (hp : ix.CodeGap p) (hle : bound ≤ p) :
    bound ≤ ix.identRun m bound p ∧ ix.Word m (ix.identRun m bound p) p ∧
      ix.Stops m bound (ix.identRun m bound p) := by
  induction p using Nat.strongRecOn with
  | ind p ih =>
    by_cases hstops : ix.Stops m bound p
    · rw [hix.identRun_stops hp hstops hle]
      exact ⟨hle, .nil p, hstops⟩
    · simp only [Stops, not_or, not_forall, Bool.not_eq_false] at hstops
      obtain ⟨hne, a, c, rfl, hc, hident⟩ := hstops
      have hlt := ix.text.lt_next a
      have hba : bound ≤ a := by
        refine Nat.le_of_not_lt fun ha => ?_
        have := Text.next_le_of_isBoundary hc.char ha hb
        omega
      obtain ⟨hbound, hword, hstops⟩ := ih a hlt (hix.codeGap_of_code hc) hba
      rw [identRun_code hc hba, if_pos hident]
      exact ⟨hbound, hword.trans (.char hc hident (.nil _)), hstops⟩

end IsJava

/-- What may be read back from `p` as the last piece above `bound`. -/
inductive Last (ix : Lexed) (m : Mode) (bound p : Nat) : Option Piece → Prop
  | nothing (trivia : ix.Trivia bound p) : Last ix m bound p none
  | unpaired {k : Nat} {c : Char} (char : ix.CodeChar k c) (closer : m.isCloser c = true)
      (above : bound ≤ k) (alone : ix.groupStart m bound k = none)
      (trivia : ix.Trivia (ix.text.next k) p) : Last ix m bound p none
  | group {k o : Nat} {c a : Char} (char : ix.CodeChar k c) (closer : m.isCloser c = true)
      (opener : ix.CodeChar o a) (partner : ix.groupStart m bound k = some o)
      (trivia : ix.Trivia (ix.text.next k) p) : Last ix m bound p (some ⟨.group a, o, ix.text.next k⟩)
  | ident {s e : Nat} (word : ix.Word m s e) (nonempty : s < e) (above : bound ≤ s)
      (stops : ix.Stops m bound s) (trivia : ix.Trivia e p) : Last ix m bound p (some ⟨.ident, s, e⟩)
  | punct {k : Nat} {c : Char} (char : ix.CodeChar k c) (solid : isBlank c = false)
      (closer : m.isCloser c = false) (ident : ix.isIdentChar m c = false) (above : bound ≤ k)
      (trivia : ix.Trivia (ix.text.next k) p) :
      Last ix m bound p (some ⟨.punct c, k, ix.text.next k⟩)
  | literal {q : Nat} {r : Region} (region : ix.RegionAt r.start r) (kind : r.kind = .string)
      (above : bound ≤ r.start) (trivia : ix.Trivia r.stop p) :
      Last ix m bound p (some ⟨.literal, r.start, q⟩)

theorem retreat_solid (h : ix.CodeChar a c) (solid : isBlank c = false) (hbound : bound ≤ a) :
    ix.retreat bound (ix.text.next a) = ix.text.next a := by
  have hlt : bound < ix.text.next a := by
    have := ix.text.lt_next a
    omega
  rw [retreat_of_charBefore hlt h.charBefore, h.code, solid]
  rfl

theorem pieceEndingAt_code (h : ix.CodeChar a c) :
    ix.pieceEndingAt? m bound (ix.text.next a) =
      if m.isCloser c then
        (ix.groupStart m bound a).map fun o => ⟨.group ((ix.text.charAt o).getD c), o, ix.text.next a⟩
      else if ix.isIdentChar m c then some ⟨.ident, ix.identRun m bound a, ix.text.next a⟩
      else some ⟨.punct c, a, ix.text.next a⟩ := by
  rw [pieceEndingAt?, h.charBefore]
  simp only [h.code]

theorem skipTriviaBack_codeGap (hp : ix.CodeGap p) : ix.skipTriviaBack p bound = ix.retreat bound p := by
  rw [skipTriviaBack, hp.code]

theorem not_isBlank_of_isCloser (h : m.isCloser c = true) : isBlank c = false := by
  obtain ⟨b, hb⟩ := Option.isSome_iff_exists.mp (m.isCloser_eq c h)
  rcases groupOpenerOf_eq_some.mp hb with ⟨rfl, -⟩ | ⟨rfl, -⟩ | ⟨rfl, -⟩ | ⟨rfl, -⟩ <;> rfl

namespace IsJava

variable (hix : ix.IsJava)

include hix

theorem retreat_trivia (h : ix.Trivia q p) (hbound : bound ≤ q) :
    ix.retreat bound p = ix.retreat bound q := by
  induction h with
  | nil => rfl
  | @blank q p c char blank rest ih =>
    have hlt := ix.text.lt_next q
    rw [ih (by omega), retreat_of_charBefore (by omega) char.charBefore, if_pos blank]
  | @comment q p r region kind rest ih =>
    have hdelim := hix.delimited region.region
    have hlt := hdelim.nonempty
    have hstart := region.start
    rw [ih (by omega), hix.retreat_comment region.region kind (by omega) hdelim.isBoundary_stop
      (by omega) (Nat.le_refl _), hstart]

theorem pieceBefore_code (hp : ix.CodeGap p) (hc : ix.CodeChar a c) (solid : isBlank c = false)
    (hbound : bound ≤ a) (htrivia : ix.Trivia (ix.text.next a) p) :
    ix.pieceBefore? m p bound = ix.pieceEndingAt? m bound (ix.text.next a) := by
  have hlt := ix.text.lt_next a
  rw [pieceBefore?, skipTriviaBack_codeGap hp, hix.retreat_trivia htrivia (by omega),
    retreat_solid hc solid hbound, if_neg (by omega)]

theorem not_isCloser_of_ident (h : ix.isIdentChar m c = true) : m.isCloser c = false := by
  refine Bool.eq_false_iff.mpr fun hcloser => ?_
  have hplain := isPlain_of_ident (isTypeIdentChar_of_isIdentChar hix.rules h)
  have := m.isCloser_eq c hcloser
  simp [hplain.2.1] at this

theorem not_isBlank_of_ident (h : ix.isIdentChar m c = true) : isBlank c = false := by
  refine Bool.eq_false_iff.mpr fun hblank => ?_
  have hident := isTypeIdentChar_of_isIdentChar hix.rules h
  simp [isTypeIdentChar_of_isBlank hblank] at hident

theorem codeChar_groupStart {k o : Nat} (hc : ix.CodeChar k c)
    (h : ix.groupStart m bound k = some o) : ∃ b, ix.CodeChar o b ∧ groupOpenerOf c = some b := by
  rw [groupStart, hc.char] at h
  obtain ⟨-, h⟩ := Option.ite_none_right_eq_some.mp h
  cases m with
  | normal =>
    obtain ⟨b, d, hb, hd, -, pair⟩ := hix.codeChar_of_openOf (Option.filter_eq_some_iff.mp h).1
    obtain rfl := hc.unique hd
    have hne : c ≠ '>' := by
      rintro rfl
      simp [openerOf] at pair
    exact ⟨b, hb, by rw [groupOpenerOf, if_neg hne, pair]⟩
  | angle =>
    obtain ⟨-, b, pair, hgroup⟩ := (hix.balanceBack_eq_some hc).mp h
    exact ⟨b, hgroup.opener, pair⟩

theorem pieceBefore_spec (hb : ix.CodeGap bound) (hp : ix.CodeGap p) (hle : bound ≤ p) :
    ix.Last m bound p (ix.pieceBefore? m p bound) := by
  generalize hq : ix.retreat bound p = q
  have hretreat := hix.retreat_spec hb hp hle
  rw [hq] at hretreat
  cases hretreat with
  | bound trivia =>
    rw [pieceBefore?, skipTriviaBack_codeGap hp, hq, if_pos (Nat.le_refl _)]
    exact .nothing trivia
  | @code k c char solid above trivia =>
    rw [hix.pieceBefore_code hp char solid above trivia, pieceEndingAt_code char]
    split
    next hcloser =>
      cases ho : ix.groupStart m bound k with
      | none => exact .unpaired char hcloser above ho trivia
      | some o =>
        obtain ⟨b, opener, -⟩ := hix.codeChar_groupStart char ho
        simp only [Option.map_some, opener.char, Option.getD_some]
        exact .group char hcloser opener ho trivia
    next hcloser =>
      have hcloser : m.isCloser c = false := by simpa using hcloser
      split
      next hident =>
        obtain ⟨hbound, hword, hstops⟩ := hix.identRun_spec (m := m) hb.boundary (hix.codeGap_of_code char) above
        have := ix.text.lt_next k
        have := hword.le
        exact .ident (hword.trans (.char char hident (.nil _))) (by omega) hbound hstops trivia
      next hident => exact .punct char solid hcloser (by simpa using hident) above trivia
  | @literal q r region kind above inside before trivia =>
    obtain ⟨k, c, hk, hr⟩ := inside
    have hlt := Text.charBefore_lt hk
    have hrk := (of_regionAtChar hr).1
    rw [pieceBefore?, skipTriviaBack_codeGap hp, hq, if_neg (by omega), pieceEndingAt?, hk]
    simp only [hr, above, ↓reduceIte]
    exact .literal region kind above trivia

/-- There is one last piece, up to the end of a literal. -/
theorem alike_of_last {o : Option Piece} (hp : ix.CodeGap p) (h : ix.Last m bound p o) :
    Option.Rel Piece.Alike o (ix.pieceBefore? m p bound) := by
  cases h with
  | nothing trivia =>
    rw [pieceBefore?, skipTriviaBack_codeGap hp, hix.retreat_trivia trivia (Nat.le_refl _),
      retreat_eq_bound (Nat.le_refl _), if_pos (Nat.le_refl _)]
    exact .none
  | unpaired char closer above alone trivia =>
    rw [hix.pieceBefore_code hp char (not_isBlank_of_isCloser closer) above trivia,
      pieceEndingAt_code char, if_pos closer, alone]
    exact .none
  | group char closer opener partner trivia =>
    have hbounds := of_groupStart partner
    rw [hix.pieceBefore_code hp char (not_isBlank_of_isCloser closer) (by omega) trivia,
      pieceEndingAt_code char, if_pos closer, partner]
    simp only [Option.map_some, opener.char, Option.getD_some]
    exact .some (.inl rfl)
  | ident word nonempty above stops trivia =>
    obtain ⟨k, c, char, ident, rfl, hle, before⟩ := word.last nonempty
    obtain ⟨d, first, -⟩ := word.first nonempty
    rw [hix.pieceBefore_code hp char (hix.not_isBlank_of_ident ident) (by omega) trivia,
      pieceEndingAt_code char, hix.not_isCloser_of_ident ident, ident, before.identRun above,
      hix.identRun_stops (hix.codeGap_of_code first) stops above]
    exact .some (.inl rfl)
  | punct char solid closer ident above trivia =>
    rw [hix.pieceBefore_code hp char solid above trivia, pieceEndingAt_code char, closer, ident]
    exact .some (.inl rfl)
  | @literal q r region kind above trivia =>
    have hdelim := hix.delimited region.region
    have hnonempty := hdelim.nonempty
    obtain ⟨⟨k, c, hk, hr⟩, -⟩ := hix.retreat_literal region.region kind above hdelim.isBoundary_stop
      hnonempty (Nat.le_refl _)
    have hlt := Text.charBefore_lt hk
    have hrk := (of_regionAtChar hr).1
    rw [pieceBefore?, skipTriviaBack_codeGap hp, hix.retreat_trivia trivia (by omega),
      if_neg (by omega), pieceEndingAt?, hk]
    simp only [hr, above, ↓reduceIte]
    exact .some (.inr ⟨rfl, rfl, rfl⟩)

theorem pieceBefore_eq_some (hp : ix.CodeGap p) (h : ix.Last m bound p (some u))
    (hu : u.kind ≠ .literal) : ix.pieceBefore? m p bound = some u := by
  have halike := hix.alike_of_last hp h
  generalize ix.pieceBefore? m p bound = o at halike
  cases halike with
  | some halike =>
    rcases halike with rfl | ⟨hkind, -⟩
    · rfl
    · exact absurd hkind hu

theorem pieceBefore_eq_none (hp : ix.CodeGap p) (h : ix.Last m bound p none) :
    ix.pieceBefore? m p bound = none := by
  have halike := hix.alike_of_last hp h
  generalize ix.pieceBefore? m p bound = o at halike
  cases halike
  rfl

/-- A step back over code ends with the last character of code that is no blank. -/
theorem stepBack_closing (hp : ix.CodeGap p) (hc : ix.CodeChar a c) (solid : isBlank c = false)
    (htrivia : ix.Trivia (ix.text.next a) p) :
    ∃ skipped q, ix.stepBack? p = some (skipped, q) ∧ skipped.closingChar = some c := by
  rw [stepBack?, skipTriviaBack_codeGap hp, hix.retreat_trivia htrivia (Nat.zero_le _),
    retreat_solid hc solid (Nat.zero_le _), hc.charBefore]
  simp only [hc.code]
  cases ho : ix.groupStart .normal 0 a with
  | none => exact ⟨_, _, rfl, rfl⟩
  | some o =>
    rw [groupStart, hc.char] at ho
    obtain ⟨-, hfilter⟩ := Option.ite_none_right_eq_some.mp ho
    obtain ⟨b, d, hb, hd, -, pair⟩ := hix.codeChar_of_openOf (Option.filter_eq_some_iff.mp hfilter).1
    obtain rfl := hc.unique hd
    refine ⟨_, _, rfl, ?_⟩
    simp only [hb.char, Option.getD_some]
    unfold openerOf at pair
    split at pair <;> cases pair <;> rfl

theorem code_of_stepBack {skipped : Skipped} (hp : ix.CodeGap p) (h : ix.stepBack? p = some (skipped, q))
    (hc : skipped.closingChar = some c) :
    ∃ a, ix.CodeChar a c ∧ isBlank c = false ∧ ix.Trivia (ix.text.next a) p := by
  generalize hk : ix.retreat 0 p = k
  have hretreat := hix.retreat_spec hix.codeGap_zero hp (Nat.zero_le p)
  rw [hk] at hretreat
  cases hretreat with
  | bound trivia =>
    rw [stepBack?, skipTriviaBack_codeGap hp, hk] at h
    simp [Text.charBefore] at h
  | @code a d char solid above trivia =>
    obtain ⟨skipped', q', h', hd⟩ := hix.stepBack_closing hp char solid trivia
    rw [h] at h'
    cases h'
    rw [hc] at hd
    cases hd
    exact ⟨a, char, solid, trivia⟩
  | literal region kind above inside before trivia =>
    obtain ⟨a, d, ha, hr⟩ := inside
    rw [stepBack?, skipTriviaBack_codeGap hp, hk, ha] at h
    simp only [hr, Option.some.injEq, Prod.mk.injEq] at h
    rw [← h.1] at hc
    simp [Skipped.closingChar] at hc

end IsJava

end Lexed

end BraceScopes
