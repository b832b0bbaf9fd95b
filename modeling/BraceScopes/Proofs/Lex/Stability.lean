import BraceScopes.Proofs.Lex.Classify
import BraceScopes.Proofs.Lex.Lockstep
/-!
What an edit leaves of the brackets before it. Two Java texts that agree below a place have the same
brackets there, with the same brackets around them, unless a literal is torn.
-/
namespace BraceScopes

open BraceScopes.Lex

def BracketAt (t : Text) (r : Rules) (q : Nat) : Prop :=
  .opened q ∈ events t r ∨ .closed q ∈ events t r

instance (t : Text) (r : Rules) (q : Nat) : Decidable (BracketAt t r q) :=
  inferInstanceAs (Decidable (_ ∨ _))

/-- A literal of both texts is closed after `P` in `s`, but ends with its line in `t`, where the line
terminator is escaped, and `t` has a bracket between the literal and `P`. -/
def Torn (s t : Text) (P : Nat) : Prop :=
  ∃ start stop line q,
    .region ⟨.string, start, stop, true⟩ ∈ events s .java ∧ P < stop ∧
    .region ⟨.string, start, line, true⟩ ∈ events t .java ∧ start < line ∧
    t.endsLine line = true ∧ t.charAt (line - 1) = some '\\' ∧
    line < q ∧ q < P ∧ BracketAt t .java q

namespace Lex

variable {s t : Text} {P p : Nat}

theorem bracketAt_iff {r : Rules} {q : Nat} :
    BracketAt t r q ↔ ∃ e ∈ events t r, e.isBracket = true ∧ e.pos = q := by
  constructor
  · rintro (h | h)
    · exact ⟨_, h, rfl, rfl⟩
    · exact ⟨_, h, rfl, rfl⟩
  · rintro ⟨e, he, hb, rfl⟩
    cases e with
    | opened q => exact .inl he
    | closed q => exact .inr he
    | region x => simp [Event.isBracket] at hb

/-- A comment or literal hides the brackets inside it. -/
theorem not_bracketAt_inside {r : Rules} {x : Region} (hx : .region x ∈ events t r) {q : Nat}
    (hstart : x.start ≤ q) (hstop : q < x.stop) : ¬ BracketAt t r q := by
  rw [bracketAt_iff]
  rintro ⟨e, he, hb, rfl⟩
  have hne : Event.region x ≠ e := by
    rintro rfl
    simp [Event.isBracket] at hb
  rcases before_or_after (pairwise_events t r) hx he hne with hlt | hlt
  · exact absurd hlt.2 (Nat.not_le_of_lt hstop)
  · exact absurd hlt.1 (Nat.not_lt_of_le hstart)

theorem mem_eventsFrom {r : Rules} {e : Event} {q : Nat} (hp : p < t.size)
    (h : step t r p = (some e, q)) : e ∈ eventsFrom t r p := by
  rw [eventsFrom, if_pos hp, h]
  simp only [Option.toList_some]
  split <;> simp

/-- Where both lexers do the same, they report the same and go on at the same place. -/
theorem eventsFrom_of_same {r : Rules} (hs : p < s.size) (ht : p < t.size)
    (h : step s r p = step t r p) :
    (∃ es, eventsFrom s r p = es ∧ eventsFrom t r p = es) ∨
      ∃ es q, p < q ∧ (∀ e ∈ es, e.pos = p) ∧ eventsFrom s r p = es ++ eventsFrom s r q ∧
        eventsFrom t r p = es ++ eventsFrom t r q := by
  obtain ⟨⟨e, q⟩, hstep⟩ : ∃ out, step t r p = out := ⟨_, rfl⟩
  by_cases hq : p < q
  · refine .inr ⟨e.toList, q, hq, fun f hf => ?_, eventsFrom_of_lt hs (h.trans hstep) hq,
      eventsFrom_of_lt ht hstep hq⟩
    obtain rfl : e = some f := by simpa using hf
    exact (step_event hstep).1
  · refine .inl ⟨e.toList, ?_, ?_⟩
    · rw [eventsFrom, if_pos hs, h, hstep]
      simp only [hq, ↓reduceIte]
    · rw [eventsFrom, if_pos ht, hstep]
      simp only [hq, ↓reduceIte]

/-- A bracket of one text below `P` is one of the other, unless a literal is torn. -/
theorem bracket_or_torn (h : Text.AgreeBelow P s t) (hs : P ≤ s.size) (ht : P ≤ t.size)
    (hsub : eventsFrom s .java p ⊆ events s .java) (hsub' : eventsFrom t .java p ⊆ events t .java)
    {e : Event} (he : e ∈ eventsFrom t .java p) (hb : e.isBracket = true) (hP : e.pos < P) :
    e ∈ eventsFrom s .java p ∨ Torn s t P := by
  induction hn : P - p using Nat.strongRecOn generalizing p with
  | ind n ih =>
    have hp : p < P := Nat.lt_of_le_of_lt (pos_ge_of_mem he) hP
    cases lockstep h hs ht hp with
    | same hsame =>
      rcases eventsFrom_of_same (by omega) (by omega) hsame with
        ⟨es, hes, het⟩ | ⟨es, q, hq, -, hes, het⟩
      · rw [het] at he
        rw [hes]
        exact .inl he
      · rw [hes] at hsub ⊢
        rw [het] at hsub' he
        rcases List.mem_append.mp he with he | he
        · exact .inl (List.mem_append_left _ he)
        · rcases ih (P - q) (by omega) (fun f hf => hsub (List.mem_append_right es hf))
            (fun f hf => hsub' (List.mem_append_right es hf)) he rfl with hin | htorn
          · exact .inl (List.mem_append_right es hin)
          · exact .inr htorn
    | blind _ hblind => exact absurd (hblind e he hb) (by omega)
    | torn stop line htear =>
      have hs' := hsub (mem_eventsFrom (by omega) (step_of_regionAt htear.closed))
      have ht' := hsub' (mem_eventsFrom (by omega) (step_of_regionAt htear.unclosed))
      obtain ⟨-, hle, -⟩ := bracket_after_region htear.unclosed he hb
      have hne : e.pos ≠ line := by
        intro heq
        have hbr := bracketAt_of_mem he hb
        have hend := htear.terminator
        rw [← heq] at hend
        simp only [Text.endsLine, Bool.or_eq_true, beq_iff_eq] at hend
        rcases hend with hend | hend <;> simp [bracketAt?, hend, isOpener, openerOf] at hbr
      exact .inr ⟨p, stop, line, e.pos, hs', htear.after, ht', htear.begins, htear.terminator,
        htear.escaped, by simp only at hle; omega, hP, bracketAt_iff.mpr ⟨e, hsub' he, hb, rfl⟩⟩
    | tornBack stop line htear =>
      obtain ⟨-, hle, -⟩ := bracket_after_region htear.closed he hb
      have := htear.after
      simp only at hle
      omega

/-- Up to a bracket that both texts have, they have the same events. -/
theorem below_eq_of_common {e f : Event} (h : Text.AgreeBelow (e.pos + 1) s t)
    (he : e ∈ eventsFrom s .java p) (hbe : e.isBracket = true) (hf : f ∈ eventsFrom t .java p)
    (hbf : f.isBracket = true) (hpos : f.pos = e.pos) :
    below (e.pos + 1) (eventsFrom s .java p) = below (e.pos + 1) (eventsFrom t .java p) := by
  have hs : e.pos + 1 ≤ s.size := (step_of_mem he).1
  have ht : e.pos + 1 ≤ t.size := hpos ▸ (step_of_mem hf).1
  induction hn : e.pos - p using Nat.strongRecOn generalizing p with
  | ind n ih =>
    have hp := pos_ge_of_mem he
    cases lockstep h hs ht (Nat.lt_succ_of_le hp) with
    | same hsame =>
      rcases eventsFrom_of_same (by omega) (by omega) hsame with
        ⟨es, hes, het⟩ | ⟨es, q, hq, hat, hes, het⟩
      · rw [hes, het]
      · rw [hes, het, below_append, below_append]
        congr 1
        by_cases hle : q ≤ e.pos
        · rw [hes] at he
          rw [het] at hf
          have he' : e ∈ eventsFrom s .java q := by
            rcases List.mem_append.mp he with hin | hin
            · have := hat e hin
              omega
            · exact hin
          have hf' : f ∈ eventsFrom t .java q := by
            rcases List.mem_append.mp hf with hin | hin
            · have := hat f hin
              omega
            · exact hin
          exact ih (e.pos - q) (by omega) he' hf' rfl
        · have late : ∀ u : Text, below (e.pos + 1) (eventsFrom u .java q) = [] := fun u =>
            below_eq_nil_of_le fun g hg => Nat.le_trans (by omega) (pos_ge_of_mem hg)
          rw [late s, late t]
    | blind hblind _ => exact absurd (hblind e he hbe) (by omega)
    | torn stop line htear =>
      obtain ⟨-, hle, -⟩ := bracket_after_region htear.closed he hbe
      have := htear.after
      simp only at hle
      omega
    | tornBack stop line htear =>
      obtain ⟨-, hle, -⟩ := bracket_after_region htear.closed hf hbf
      have := htear.after
      simp only at hle
      omega

/-- A bracket that both texts have stands inside the same brackets. -/
theorem enclosing_eq_of_common {q : Nat} (h : Text.AgreeBelow (q + 1) s t) (hs : BracketAt s .java q)
    (ht : BracketAt t .java q) :
    (classify s .java q).enclosing = (classify t .java q).enclosing := by
  obtain ⟨e, he, hbe, rfl⟩ := bracketAt_iff.mp hs
  obtain ⟨f, hf, hbf, hpos⟩ := bracketAt_iff.mp ht
  have hsize := (step_of_mem he).1
  have hsize' := (step_of_mem hf).1
  have same := below_eq_of_common h he hbe hf hbf hpos
  rw [classify_enclosing, classify_enclosing, Nat.min_eq_left (Nat.le_of_lt hsize),
    Nat.min_eq_left (by omega), stackBelow, stackBelow, ← below_below (Nat.le_succ e.pos),
    ← below_below (Nat.le_succ e.pos) (events t .java)]
  exact congrArg (fun es => stackAfter (below e.pos es)) same

theorem bracket_of_torn (h : Torn s t P) :
    ∃ q < P, BracketAt t .java q ∧ ¬ BracketAt s .java q := by
  obtain ⟨start, stop, line, q, hclosed, hstop, -, hstart, -, -, hline, hq, hbr⟩ := h
  exact ⟨q, hq, hbr, not_bracketAt_inside hclosed (by simp only; omega) (by simp only; omega)⟩

end Lex

/-- Below a place where two Java texts agree, they have the same brackets of code and each of them
stands inside the same brackets, exactly when no literal is torn between the texts. -/
theorem brackets_stable_iff {s t : Text} {P : Nat} (h : Text.SameBefore s t P) :
    (∀ q < P, (BracketAt s .java q ↔ BracketAt t .java q) ∧
      (BracketAt s .java q → (classify s .java q).enclosing = (classify t .java q).enclosing)) ↔
    ¬ Torn s t P ∧ ¬ Torn t s P := by
  have hs := Text.isBoundary_le_size h.left
  have ht := Text.isBoundary_le_size h.right
  constructor
  · intro hstable
    constructor
    · intro htorn
      obtain ⟨q, hq, hbr, hnot⟩ := bracket_of_torn htorn
      exact hnot ((hstable q hq).1.mpr hbr)
    · intro htorn
      obtain ⟨q, hq, hbr, hnot⟩ := bracket_of_torn htorn
      exact hnot ((hstable q hq).1.mp hbr)
  · rintro ⟨hst, hts⟩ q hq
    have transfer : ∀ {u v : Text}, Text.AgreeBelow P u v → P ≤ u.size → P ≤ v.size → ¬ Torn u v P →
        BracketAt v .java q → BracketAt u .java q := by
      intro u v huv hu hv hnot hbr
      obtain ⟨e, he, hb, rfl⟩ := bracketAt_iff.mp hbr
      rcases bracket_or_torn huv hu hv (fun _ => id) (fun _ => id) he hb hq with hin | htorn
      · exact bracketAt_iff.mpr ⟨e, hin, hb, rfl⟩
      · exact absurd htorn hnot
    have iff : BracketAt s .java q ↔ BracketAt t .java q :=
      ⟨transfer h.agree.symm ht hs hts, transfer h.agree hs ht hst⟩
    exact ⟨iff, fun hbr => enclosing_eq_of_common (h.agree.mono hq) hbr (iff.mp hbr)⟩

/-- The final quote hides the brace of the second line: the literal is closed, and the line terminator
in it is escaped. -/
theorem brackets_not_stable_escaped_newline :
    Text.SameBefore (.ofString "\"\\\n\x7b\"") (.ofString "\"\\\n\x7b") 4 ∧
    ¬ ∀ q < 4, (BracketAt (.ofString "\"\\\n\x7b\"") .java q ↔ BracketAt (.ofString "\"\\\n\x7b") .java q) ∧
      (BracketAt (.ofString "\"\\\n\x7b\"") .java q →
        (classify (.ofString "\"\\\n\x7b\"") .java q).enclosing =
          (classify (.ofString "\"\\\n\x7b") .java q).enclosing) := by
  have same : Text.SameBefore (.ofString "\"\\\n\x7b\"") (.ofString "\"\\\n\x7b") 4 :=
    ⟨by decide, by decide, by unfold Text.AgreeBelow; decide⟩
  refine ⟨same, fun hstable => ?_⟩
  refine ((brackets_stable_iff same).mp hstable).1 ⟨0, 5, 2, 3, ?_, ?_, ?_, ?_, ?_, ?_, ?_, ?_, ?_⟩
  all_goals decide +kernel

end BraceScopes
