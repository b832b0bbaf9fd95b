import BraceScopes.Proofs.Lex.Closing
import BraceScopes.Proofs.Lex.Java
/-!
Two Java texts that agree below a place, lexed side by side. At each place both lexers do the same, or
neither sees a bracket before the texts may differ, or a literal is torn: one text closes it later, the
other never does and ends it with its line, although the line terminator is escaped.
-/
namespace BraceScopes

namespace Lex

variable {s t : Text} {P p : Nat}

/-- From `p` on, no bracket is seen before `P`. -/
def Blind (t : Text) (P p : Nat) : Prop :=
  ∀ e ∈ eventsFrom t .java p, e.isBracket = true → P ≤ e.pos

/-- The literal at `p` is closed after `P` in `s`. In `t` it ends with its line before `P`, and the
line terminator is escaped. -/
structure Tears (s t : Text) (P p stop line : Nat) : Prop where
  closed : regionAt? s .java p = some ⟨.string, p, stop, true⟩
  unclosed : regionAt? t .java p = some ⟨.string, p, line, true⟩
  after : P < stop
  begins : p < line
  before : line < P
  terminator : t.endsLine line = true
  escaped : t.charAt (line - 1) = some '\\'

/-- What two lexers do at one place. -/
inductive Lockstep (s t : Text) (P p : Nat) : Prop where
  | same (h : step s .java p = step t .java p)
  | blind (hs : Blind s P p) (ht : Blind t P p)
  | torn (stop line : Nat) (h : Tears s t P p stop line)
  | tornBack (stop line : Nat) (h : Tears t s P p stop line)

theorem step_of_regionAt {r : Rules} {x : Region} (h : regionAt? t r p = some x) :
    step t r p = (some (.region x), x.stop) := by
  rw [step, h]

/-- Where a comment or literal begins, the next bracket stands behind it. -/
theorem bracket_after_region {x : Region} (h : regionAt? t .java p = some x) {e : Event}
    (he : e ∈ eventsFrom t .java p) (hb : e.isBracket = true) :
    p < e.pos ∧ x.stop ≤ e.pos ∧ e ∈ eventsFrom t .java x.stop := by
  have hs := step_of_regionAt h
  have hne : e ≠ .region x := by
    rintro rfl
    simp [Event.isBracket] at hb
  rw [eventsFrom] at he
  split at he
  next hlt =>
    simp only [hs, Option.toList_some] at he
    split at he
    next hprog =>
      rcases List.mem_cons.mp he with rfl | he
      · exact absurd rfl hne
      · have := pos_ge_of_mem he
        exact ⟨by omega, this, he⟩
    next => exact absurd (List.mem_singleton.mp he) hne
  next => simp at he

theorem blind_of_region {x : Region} (h : regionAt? t .java p = some x) (hP : P ≤ x.stop) :
    Blind t P p :=
  fun _ he hb => Nat.le_trans hP (bracket_after_region h he hb).2.1

theorem bracketAt_congr (h : Text.AgreeBelow P s t) (hp : p < P) : bracketAt? s p = bracketAt? t p := by
  rw [bracketAt?, bracketAt?, h p hp]

theorem blind_of_no_bracket (h : ∀ i, p ≤ i → i < P → bracketAt? t i = none) : Blind t P p := by
  intro e he hb
  refine Nat.le_of_not_lt fun hlt => ?_
  have := bracketAt_of_mem he hb
  rw [h e.pos (pos_ge_of_mem he) hlt] at this
  simp at this

/-- Two searches that agree on what ends by `P`. -/
theorem same_or_beyond {f g : Option Nat} {w : Nat} (hfg : ∀ q, f = some q → q + w ≤ P → g = some q)
    (hgf : ∀ q, g = some q → q + w ≤ P → f = some q) :
    f = g ∨ (∀ q, f = some q → P < q + w) ∧ ∀ q, g = some q → P < q + w := by
  by_cases hf : ∃ q, f = some q ∧ q + w ≤ P
  · obtain ⟨q, hq, hle⟩ := hf
    exact .inl (hq.trans (hfg q hq hle).symm)
  · by_cases hg : ∃ q, g = some q ∧ q + w ≤ P
    · obtain ⟨q, hq, hle⟩ := hg
      exact .inl ((hgf q hq hle).trans hq.symm)
    · refine .inr ⟨fun q hq => ?_, fun q hq => ?_⟩
      · exact Nat.lt_of_not_le fun hle => hf ⟨q, hq, hle⟩
      · exact Nat.lt_of_not_le fun hle => hg ⟨q, hq, hle⟩

theorem lineEnd_same_or_beyond (h : Text.AgreeBelow P s t) (hs : P ≤ s.size) (ht : P ≤ t.size) :
    s.lineEnd p < P ∧ t.lineEnd p = s.lineEnd p ∨ P ≤ s.lineEnd p ∧ P ≤ t.lineEnd p := by
  rcases Nat.lt_or_ge (s.lineEnd p) P with hlt | hge
  · exact .inl ⟨hlt, h.lineEnd hs ht hlt⟩
  · rcases Nat.lt_or_ge (t.lineEnd p) P with hlt' | hge'
    · have := h.symm.lineEnd ht hs hlt'
      omega
    · exact .inr ⟨hge, hge'⟩

namespace Lockstep

theorem symm (h : Lockstep s t P p) : Lockstep t s P p := by
  cases h with
  | same h => exact .same h.symm
  | blind hs ht => exact .blind ht hs
  | torn stop line h => exact .tornBack stop line h
  | tornBack stop line h => exact .torn stop line h

theorem of_regions {x : Region} (hs : regionAt? s .java p = some x)
    (ht : regionAt? t .java p = some x) : Lockstep s t P p :=
  .same ((step_of_regionAt hs).trans (step_of_regionAt ht).symm)

theorem of_late_regions {x y : Region} (hs : regionAt? s .java p = some x)
    (ht : regionAt? t .java p = some y) (hx : P ≤ x.stop) (hy : P ≤ y.stop) : Lockstep s t P p :=
  .blind (blind_of_region hs hx) (blind_of_region ht hy)

/-- Regions that end with a delimiter, where the searches for it agree. -/
theorem of_searches {k : RegionKind} {w : Nat} {f g : Option Nat} (hs : P ≤ s.size) (ht : P ≤ t.size)
    (hrs : regionAt? s .java p = some (upTo s k p w f))
    (hrt : regionAt? t .java p = some (upTo t k p w g))
    (hfg : ∀ q, f = some q → q + w ≤ P → g = some q) (hgf : ∀ q, g = some q → q + w ≤ P → f = some q) :
    Lockstep s t P p := by
  have late : ∀ {u : Text} {f : Option Nat}, P ≤ u.size → (∀ q, f = some q → P < q + w) →
      P ≤ (upTo u k p w f).stop := by
    intro u f hu hfar
    cases f with
    | none => exact hu
    | some q => exact Nat.le_of_lt (hfar q rfl)
  rcases same_or_beyond hfg hgf with rfl | ⟨hfar, hfar'⟩
  · cases f with
    | some q => exact of_regions hrs hrt
    | none => exact of_late_regions hrs hrt hs ht
  · exact of_late_regions hrs hrt (late hs hfar) (late ht hfar')

theorem of_slash (h : Text.AgreeBelow P s t) (hs : P ≤ s.size) (ht : P ≤ t.size) (hp : p + 2 ≤ P)
    (hc : s.charAt p = some '/') : Lockstep s t P p := by
  have hc' : t.charAt p = some '/' := (h p (by omega)).symm.trans hc
  have hline := h.startsWith (w := ['/', '/']) (show p + 2 ≤ P from hp)
  have hblock := h.startsWith (w := ['/', '*']) (show p + 2 ≤ P from hp)
  have hrs := regionAt_java_slash hc
  have hrt := regionAt_java_slash hc'
  rw [lineComment_java, blockComment_java] at hrs hrt
  rw [← hline, ← hblock] at hrt
  by_cases hl : s.startsWith p ['/', '/'] = true
  · rw [if_pos hl, Option.some_or] at hrs hrt
    rcases lineEnd_same_or_beyond (p := p) h hs ht with ⟨-, heq⟩ | ⟨hle, hle'⟩
    · exact of_regions hrs (heq ▸ hrt)
    · exact of_late_regions hrs hrt hle hle'
  · rw [if_neg hl, Option.none_or] at hrs hrt
    by_cases hb : s.startsWith p ['/', '*'] = true
    · rw [if_pos hb] at hrs hrt
      exact of_searches hs ht hrs hrt (fun q => h.find ht) (fun q => h.symm.find hs)
    · rw [if_neg hb] at hrs hrt
      refine .same ?_
      rw [step, step, hrs, hrt, bracketAt_congr h (by omega), h.next (by omega)]

theorem of_textBlocks (h : Text.AgreeBelow P s t) (hs : P ≤ s.size) (ht : P ≤ t.size)
    (hbs : s.startsWith p ['"', '"', '"'] = true) (hbt : t.startsWith p ['"', '"', '"'] = true) :
    Lockstep s t P p := by
  have hrs := regionAt_java_textBlock hbs
  have hrt := regionAt_java_textBlock hbt
  rw [textBlock_java, if_pos hbs] at hrs
  rw [textBlock_java, if_pos hbt] at hrt
  exact of_searches hs ht hrs hrt (fun q hq hle => closing_congr h (by simp) hq hle)
    (fun q hq hle => closing_congr h.symm (by simp) hq hle)

/-- A literal that one text closes and the other does not. -/
theorem of_unclosed {c : Char} {a : Nat} (h : Text.AgreeBelow P s t) (ht : P ≤ t.size)
    (hq : closing? s '\\' [c] true (p + 1) = some a) (ha : P ≤ a)
    (hrs : regionAt? s .java p = some ⟨.string, p, a + 1, true⟩)
    (hrt : regionAt? t .java p =
      some ⟨.string, p, t.lineEnd (p + 1), t.lineEnd (p + 1) < t.size⟩) : Lockstep s t P p := by
  rcases Nat.lt_or_ge (t.lineEnd (p + 1)) P with hlt | hge
  · have hsize : t.lineEnd (p + 1) < t.size := by omega
    obtain ⟨hle, hend, -⟩ := (Text.lineEnd_eq_iff hsize).mp rfl
    have hesc := closing_escaped hq hle (by omega) (by rw [h.endsLine hlt]; exact hend)
    rw [h _ (by omega)] at hesc
    simp only [hsize, decide_true] at hrt
    exact .torn (a + 1) _ ⟨hrs, hrt, by omega, hle, hlt, hend, hesc⟩
  · exact of_late_regions hrs hrt (Nat.le_trans ha (Nat.le_succ a)) hge

theorem of_quote {c : Char} (h : Text.AgreeBelow P s t) (hs : P ≤ s.size) (ht : P ≤ t.size) (hp : p < P)
    (hc : s.charAt p = some c) (hquote : c = '"' ∨ c = '\'')
    (hbs : s.startsWith p ['"', '"', '"'] = false) (hbt : t.startsWith p ['"', '"', '"'] = false) :
    Lockstep s t P p := by
  have hc' : t.charAt p = some c := (h p hp).symm.trans hc
  have width : byteLength [c] = 1 := by rcases hquote with rfl | rfl <;> rfl
  have hrs := regionAt_java_quote hc hquote hbs
  have hrt := regionAt_java_quote hc' hquote hbt
  rw [quoted_java hc hquote] at hrs
  rw [quoted_java hc' hquote] at hrt
  have hsearch := same_or_beyond (P := P) (w := 1) (f := closing? s '\\' [c] true (p + 1))
    (g := closing? t '\\' [c] true (p + 1))
    (fun q hq hle => closing_congr h (by simp) hq (width.symm ▸ hle))
    (fun q hq hle => closing_congr h.symm (by simp) hq (width.symm ▸ hle))
  cases hqs : closing? s '\\' [c] true (p + 1) with
  | none =>
    cases hqt : closing? t '\\' [c] true (p + 1) with
    | none =>
      simp only [hqs] at hrs
      simp only [hqt] at hrt
      rcases lineEnd_same_or_beyond (p := p + 1) h hs ht with ⟨hlt, heq⟩ | ⟨hle, hle'⟩
      · rw [heq, decide_eq_true (show s.lineEnd (p + 1) < t.size by omega)] at hrt
        rw [decide_eq_true (show s.lineEnd (p + 1) < s.size by omega)] at hrs
        exact of_regions hrs hrt
      · exact of_late_regions hrs hrt hle hle'
    | some b =>
      simp only [hqs] at hrs
      simp only [hqt] at hrt
      rcases hsearch with heq | ⟨-, hfar⟩
      · simp [hqs, hqt] at heq
      · exact (of_unclosed h.symm hs hqt (Nat.le_of_lt_succ (hfar b hqt)) hrt hrs).symm
  | some a =>
    cases hqt : closing? t '\\' [c] true (p + 1) with
    | none =>
      simp only [hqs] at hrs
      simp only [hqt] at hrt
      rcases hsearch with heq | ⟨hfar, -⟩
      · simp [hqs, hqt] at heq
      · exact of_unclosed h ht hqs (Nat.le_of_lt_succ (hfar a hqs)) hrs hrt
    | some b =>
      simp only [hqs] at hrs
      simp only [hqt] at hrt
      rcases hsearch with heq | ⟨hfar, hfar'⟩
      · obtain rfl : a = b := by simpa [hqs, hqt] using heq
        exact of_regions hrs hrt
      · exact of_late_regions hrs hrt (Nat.le_of_lt (hfar a hqs)) (Nat.le_of_lt (hfar' b hqt))

theorem of_no_bracket (h : Text.AgreeBelow P s t)
    (hnone : ∀ i, p ≤ i → i < P → bracketAt? s i = none) : Lockstep s t P p :=
  .blind (blind_of_no_bracket hnone)
    (blind_of_no_bracket fun i hi hlt => by rw [← bracketAt_congr h hlt]; exact hnone i hi hlt)

/-- Where only one text has room for three quotes, the second quote is the last byte they share. -/
theorem of_short_textBlock (h : Text.AgreeBelow P s t) (hbs : s.startsWith p ['"', '"', '"'] = true)
    (hbt : t.startsWith p ['"', '"', '"'] = false) : Lockstep s t P p := by
  have hP : P < p + 3 := by
    refine Nat.lt_of_not_le fun hle => ?_
    rw [h.startsWith (show p + byteLength ['"', '"', '"'] ≤ P from hle), hbt] at hbs
    simp at hbs
  simp only [Text.startsWith, Bool.and_eq_true, beq_iff_eq] at hbs
  obtain ⟨hfirst, hsecond, -⟩ := hbs
  refine of_no_bracket h fun i hi hlt => ?_
  rcases Nat.lt_or_eq_of_le hi with hi | rfl
  · obtain rfl : i = p + 1 := by omega
    rw [bracketAt?, show s.charAt (p + 1) = some '"' from hsecond]
    rfl
  · rw [bracketAt?, hfirst]
    rfl

end Lockstep

theorem lockstep (h : Text.AgreeBelow P s t) (hs : P ≤ s.size) (ht : P ≤ t.size) (hp : p < P) :
    Lockstep s t P p := by
  by_cases hslash : s.charAt p = some '/'
  · by_cases hroom : p + 2 ≤ P
    · exact .of_slash h hs ht hroom hslash
    · refine .of_no_bracket h fun i hi hlt => ?_
      obtain rfl : i = p := by omega
      rw [bracketAt?, hslash]
      rfl
  · by_cases hquote : ∃ c, s.charAt p = some c ∧ (c = '"' ∨ c = '\'')
    · obtain ⟨c, hc, hquote⟩ := hquote
      cases hbs : s.startsWith p ['"', '"', '"'] with
      | true =>
        cases hbt : t.startsWith p ['"', '"', '"'] with
        | true => exact .of_textBlocks h hs ht hbs hbt
        | false => exact .of_short_textBlock h hbs hbt
      | false =>
        cases hbt : t.startsWith p ['"', '"', '"'] with
        | true => exact (Lockstep.of_short_textBlock h.symm hbt hbs).symm
        | false => exact .of_quote h hs ht hp hc hquote hbs hbt
    · have hdouble : s.charAt p ≠ some '"' := fun hc => hquote ⟨_, hc, .inl rfl⟩
      have hsingle : s.charAt p ≠ some '\'' := fun hc => hquote ⟨_, hc, .inr rfl⟩
      have hcode := regionAt_java_of_ne hslash hdouble hsingle
      rw [h p hp] at hslash hdouble hsingle
      have hcode' := regionAt_java_of_ne hslash hdouble hsingle
      refine .same ?_
      rw [step, step, hcode, hcode', bracketAt_congr h hp, h.next hp]

end Lex

end BraceScopes
