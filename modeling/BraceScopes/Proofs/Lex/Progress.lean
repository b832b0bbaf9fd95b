import BraceScopes.Proofs.Lex.Regions
import BraceScopes.Settings.Basic
/-!
Lexing as calls that each report one event, for whatever delimiters the settings give. All calls go
forward, except at a line comment that begins with a line terminator: it is over where it begins, and
is met there again by every later call.
-/
namespace BraceScopes

namespace Rules

/-- Whether the delimiter of line comments begins with a line terminator. -/
def BreaksLine (r : Rules) : Prop :=
  ∃ w, r.lineComment? = some w ∧ (w.head? = some '\n' ∨ w.head? = some '\r')

theorem ne_nil_of_delimiter {d : Option String} {w : List Char} (h : delimiter? d = some w) : w ≠ [] := by
  unfold delimiter? at h
  split at h
  · split at h
    · cases h
    next hne =>
      cases h
      simpa using hne
  · cases h

theorem ne_nil_of_lineComment {r : Rules} {w : List Char} (h : r.lineComment? = some w) : w ≠ [] :=
  ne_nil_of_delimiter h

theorem ne_nil_of_textBlock {r : Rules} {w : List Char} (h : r.textBlock? = some w) : w ≠ [] :=
  ne_nil_of_delimiter h

theorem ne_nil_of_blockComment {r : Rules} {u v : List Char} (h : r.blockComment? = some (u, v)) :
    u ≠ [] ∧ v ≠ [] := by
  unfold blockComment? at h
  split at h
  next u' v' hu hv =>
    cases h
    exact ⟨ne_nil_of_delimiter hu, ne_nil_of_delimiter hv⟩
  · cases h

end Rules

namespace Text

variable {t : Text} {p : Nat} {w : List Char}

theorem startsWith_le_size (hp : p ≤ t.size) (h : t.startsWith p w = true) :
    p + byteLength w ≤ t.size := by
  induction w generalizing p with
  | nil => exact hp
  | cons c w ih =>
    simp only [startsWith, Bool.and_eq_true, beq_iff_eq] at h
    have hnext := next_le_size h.1
    rw [next_of_charAt h.1] at hnext
    have htail := ih hnext h.2
    rw [byteLength]
    omega

theorem charAt_of_startsWith (h : t.startsWith p w = true) (hw : w ≠ []) : t.charAt p = w.head? := by
  cases w with
  | nil => exact absurd rfl hw
  | cons c w =>
    simp only [startsWith, Bool.and_eq_true, beq_iff_eq] at h
    exact h.1

theorem next_le_size_of_lt (h : p < t.size) : t.next p ≤ t.size := by
  cases hc : t.charAt p with
  | none =>
    simp only [next, hc, Option.elim_none]
    omega
  | some c => exact next_le_size hc

theorem lineEnd_eq_self (h : t.endsLine p = true) : t.lineEnd p = p := by
  have hp : p < t.size := by
    simp only [endsLine, Bool.or_eq_true, beq_iff_eq] at h
    rcases h with h | h
    · exact lt_size_of_charAt h
    · exact lt_size_of_charAt h
  exact (lineEnd_eq_iff hp).mpr ⟨Nat.le_refl p, h, fun i hi hlt => by omega⟩

theorem lt_lineEnd (hp : p < t.size) (h : t.endsLine p = false) : p < t.lineEnd p := by
  have hle := le_lineEnd (Nat.le_of_lt hp)
  refine Nat.lt_of_le_of_ne hle fun heq => ?_
  rcases lineEnd_cases t p with hend | ⟨-, hend⟩
  · omega
  · rw [← heq, h] at hend
    cases hend

end Text

namespace Lex

variable {t : Text} {r : Rules} {p q : Nat} {x : Region} {e : Event} {es : List Event}

/-- A line comment stands at `p`, and the line ends there. -/
structure Stalls (t : Text) (r : Rules) (p : Nat) : Prop where
  opens : ∃ w, r.lineComment? = some w ∧ t.startsWith p w = true
  endsLine : t.endsLine p = true

theorem Stalls.breaksLine (h : Stalls t r p) : r.BreaksLine := by
  obtain ⟨w, hw, hstarts⟩ := h.opens
  have hends := h.endsLine
  rw [Text.endsLine, Text.charAt_of_startsWith hstarts (Rules.ne_nil_of_lineComment hw)] at hends
  exact ⟨w, hw, by simpa using hends⟩

theorem Stalls.regionAt (h : Stalls t r p) : regionAt? t r p = some ⟨.comment, p, p, true⟩ := by
  obtain ⟨w, hw, hstarts⟩ := h.opens
  have hline : lineComment? t r p = some ⟨.comment, p, p, true⟩ := by
    simp [lineComment?, hw, hstarts, Text.lineEnd_eq_self h.endsLine]
  rw [regionAt?, hline]
  rfl

/-- A region goes forward and stays within the text. -/
def Advances (t : Text) (p : Nat) (x : Region) : Prop := p < x.stop ∧ x.stop ≤ t.size

theorem advances_lineComment (hp : p < t.size) (h : lineComment? t r p = some x)
    (hs : ¬ Stalls t r p) : Advances t p x := by
  unfold lineComment? at h
  split at h
  next w hw =>
    split at h
    next hstarts =>
      cases h
      have hends : t.endsLine p = false := by
        rw [Bool.eq_false_iff]
        exact fun hends => hs ⟨⟨w, hw, hstarts⟩, hends⟩
      exact ⟨Text.lt_lineEnd hp hends, t.lineEnd_le p⟩
    · cases h
  · cases h

theorem advances_blockComment (hp : p < t.size) (h : blockComment? t r p = some x) :
    Advances t p x := by
  unfold blockComment? at h
  split at h
  next opener closer hw =>
    obtain ⟨-, hcloser⟩ := Rules.ne_nil_of_blockComment hw
    split at h
    · split at h
      next q hq =>
        cases h
        obtain ⟨hle, hlt, hstarts, -⟩ := Text.firstFrom_eq_some.mp hq
        have hstop := Text.startsWith_le_size (show q ≤ t.size by omega) hstarts
        have hpos := byteLength_pos hcloser
        exact ⟨show p < q + byteLength closer by omega, hstop⟩
      · cases h
        exact ⟨hp, Nat.le_refl _⟩
    · cases h
  · cases h

theorem closing_lt_size {escape : Char} {delim : List Char} {oneLine : Bool}
    (h : closing? t escape delim oneLine p = some q) : q < t.size := by
  fun_induction closing? t escape delim oneLine p with
  | case1 p hc => cases h
  | case2 p hc ih => exact ih h
  | case3 p c hc he hn => cases h
  | case4 p c hc he hn hs =>
    cases h
    exact Text.lt_size_of_charAt hc
  | case5 p c hc he hn hs ih => exact ih h

theorem advances_textBlock (hp : p < t.size) (h : textBlock? t r p = some x) : Advances t p x := by
  unfold textBlock? at h
  split at h
  next delim hw =>
    split at h
    · split at h
      next q hq =>
        cases h
        obtain ⟨hle, hstarts⟩ := of_closing hq
        have hlt := closing_lt_size hq
        have hstop := Text.startsWith_le_size (show q ≤ t.size by omega) hstarts
        have hpos := byteLength_pos (Rules.ne_nil_of_textBlock hw)
        exact ⟨show p < q + byteLength delim by omega, hstop⟩
      · cases h
        exact ⟨hp, Nat.le_refl _⟩
    · cases h
  · cases h

theorem advances_quoted (h : quoted? t r p = some x) : Advances t p x := by
  unfold quoted? at h
  split at h
  next c hc =>
    have hpos := c.utf8Size_pos
    have hbody := Text.next_le_size hc
    rw [Text.next_of_charAt hc] at hbody
    split at h
    · simp only at h
      split at h
      next q hq =>
        cases h
        obtain ⟨hle, hstarts⟩ := of_closing hq
        have hlt := closing_lt_size hq
        have hstop := Text.startsWith_le_size (show q ≤ t.size by omega) hstarts
        simp only [byteLength, Nat.add_zero] at hstop
        exact ⟨show p < q + c.utf8Size by omega, hstop⟩
      · cases h
        have hle := Text.le_lineEnd hbody
        exact ⟨show p < t.lineEnd (p + c.utf8Size) by omega, t.lineEnd_le _⟩
    · cases h
  · cases h

theorem advances_regionAt (hp : p < t.size) (h : regionAt? t r p = some x) (hs : ¬ Stalls t r p) :
    Advances t p x := by
  simp only [regionAt?, Option.orElse_eq_orElse, Option.orElse_eq_or, Option.or_eq_some_iff] at h
  rcases h with h | ⟨-, h | ⟨-, h | ⟨-, h⟩⟩⟩
  · exact advances_lineComment hp h hs
  · exact advances_blockComment hp h
  · exact advances_textBlock hp h
  · exact advances_quoted h

theorem step_of_stalls (h : Stalls t r p) :
    step t r p = (some (.region ⟨.comment, p, p, true⟩), p) := by
  rw [step, h.regionAt]

/-- Lexing goes on further ahead, within the text, unless it stalls. -/
theorem step_advances {event : Option Event} (hp : p < t.size) (h : step t r p = (event, q))
    (hs : ¬ Stalls t r p) : p < q ∧ q ≤ t.size := by
  unfold step at h
  split at h
  next x hx =>
    cases h
    exact advances_regionAt hp hx hs
  next =>
    cases h
    exact ⟨t.lt_next p, Text.next_le_size_of_lt hp⟩

theorem step_none (h : step t r p = (none, q)) : q = t.next p := by
  unfold step at h
  split at h
  · cases h
  · exact (Prod.mk.inj h).2.symm

/-- One call of the lexer at `p`: the next event, if one is left, and where lexing goes on. -/
def call (t : Text) (r : Rules) (p : Nat) : Option Event × Nat :=
  if p < t.size then
    match _h : step t r p with
    | (some e, q) => (some e, q)
    | (none, q) => call t r q
  else (none, p)
termination_by t.size - p
decreasing_by
  have hq := step_none _h
  have hlt := t.lt_next p
  omega

/-- A call that reports an event ends where the event does, and ahead of where it began unless the
event is a comment at which lexing stalls. -/
theorem call_some (h : call t r p = (some e, q)) :
    p ≤ e.pos ∧ e.pos < t.size ∧ step t r e.pos = (some e, q) ∧ e.stop = q ∧ q ≤ t.size ∧
      (e.pos < q ∧ ¬ Stalls t r e.pos ∨ q = e.pos ∧ Stalls t r e.pos) := by
  fun_induction call t r p with
  | case1 p hp e' q' hstep =>
    cases h
    obtain ⟨hpos, hstop⟩ := step_event hstep
    rw [hpos]
    refine ⟨Nat.le_refl p, hp, hstep, hstop, ?_⟩
    by_cases hs : Stalls t r p
    · have hq : q = p := by
        rw [step_of_stalls hs] at hstep
        exact (Prod.mk.inj hstep).2.symm
      exact ⟨by omega, .inr ⟨hq, hs⟩⟩
    · obtain ⟨hlt, hle⟩ := step_advances hp hstep hs
      exact ⟨hle, .inl ⟨hlt, hs⟩⟩
  | case2 p hp q' hstep ih =>
    obtain ⟨hle, rest⟩ := ih h
    have hq := step_none hstep
    have hlt := t.lt_next p
    exact ⟨by omega, rest⟩
  | case3 p hp => cases h

/-- The call that reports nothing more has reached the end of the text. -/
theorem call_none (hp : p ≤ t.size) (h : call t r p = (none, q)) : q = t.size := by
  fun_induction call t r p with
  | case1 p hlt e' q' hstep => cases h
  | case2 p hlt q' hstep ih =>
    have hq := step_none hstep
    have hle := Text.next_le_size_of_lt hlt
    exact ih (by omega) h
  | case3 p hge =>
    cases h
    omega

/-- The events of a text are those that the calls report, up to one at which lexing stalls. -/
theorem eventsFrom_eq_call (t : Text) (r : Rules) (p : Nat) :
    eventsFrom t r p =
      match call t r p with
      | (some e, q) => if e.pos < q then e :: eventsFrom t r q else [e]
      | (none, _) => [] := by
  fun_induction call t r p with
  | case1 p hp e q hstep =>
    obtain ⟨hpos, -⟩ := step_event hstep
    rw [eventsFrom, if_pos hp, hstep]
    simp only [hpos]
    rfl
  | case2 p hp q hstep ih =>
    have hq := step_none hstep
    have hlt := t.lt_next p
    rw [eventsFrom_of_lt hp hstep (by omega)]
    exact ih
  | case3 p hp => rw [eventsFrom, if_neg hp]

theorem call_of_stalls (h : Stalls t r p) :
    call t r p = (some (.region ⟨.comment, p, p, true⟩), p) := by
  obtain ⟨w, hw, hstarts⟩ := h.opens
  have hends := h.endsLine
  have hp : p < t.size := by
    simp only [Text.endsLine, Bool.or_eq_true, beq_iff_eq] at hends
    rcases hends with hc | hc
    · exact Text.lt_size_of_charAt hc
    · exact Text.lt_size_of_charAt hc
  rw [call, if_pos hp]
  split
  next e q hstep =>
    rw [step_of_stalls h] at hstep
    obtain ⟨he, rfl⟩ := Prod.mk.inj hstep
    cases he
    rfl
  next q hstep =>
    rw [step_of_stalls h] at hstep
    cases (Prod.mk.inj hstep).1

/-- Calls from `p` that come to an end at `q`, with the events they report. -/
inductive Run (t : Text) (r : Rules) : Nat → List Event → Nat → Prop
  | done {p q : Nat} : call t r p = (none, q) → Run t r p [] q
  | next {p q z : Nat} {e : Event} {es : List Event} : call t r p = (some e, q) → Run t r q es z →
      Run t r p (e :: es) z

/-- Where lexing stalls, the calls never come to an end. -/
theorem not_run_of_stalls (hs : Stalls t r p) (z : Nat) : ¬ Run t r p es z := by
  intro h
  induction h with
  | done hcall => cases hcall.symm.trans (call_of_stalls hs)
  | next hcall _ ih =>
    obtain ⟨-, rfl⟩ := Prod.mk.inj (hcall.symm.trans (call_of_stalls hs))
    exact ih hs

/-- Calls that come to an end have read the text to its end, and reported all its events. -/
theorem Run.events {z : Nat} (h : Run t r p es z) (hp : p ≤ t.size) :
    z = t.size ∧ es = eventsFrom t r p ∧ ∀ e ∈ es, e.pos < e.stop := by
  induction h with
  | @done p q hcall =>
    refine ⟨call_none hp hcall, ?_, by simp⟩
    rw [eventsFrom_eq_call, hcall]
  | @next p q z e es hcall hrun ih =>
    obtain ⟨-, -, -, hstop, hle, hlt | ⟨rfl, hs⟩⟩ := call_some hcall
    · obtain ⟨hz, hes, hall⟩ := ih hle
      refine ⟨hz, ?_, ?_⟩
      · rw [eventsFrom_eq_call, hcall]
        simp only [if_pos hlt.1, hes]
      · intro f hf
        rcases List.mem_cons.mp hf with rfl | hf
        · omega
        · exact hall f hf
    · exact (not_run_of_stalls hs z hrun).elim

/-- Without a stall, each call leaves less of the text, so the calls come to an end. -/
theorem run_of_advancing (p : Nat) (hp : p ≤ t.size) (h : ∀ e ∈ eventsFrom t r p, e.pos < e.stop) :
    Run t r p (eventsFrom t r p) t.size := by
  rw [eventsFrom_eq_call] at h ⊢
  cases hcall : call t r p with
  | mk event q =>
    cases event with
    | none =>
      obtain rfl := call_none hp hcall
      exact .done hcall
    | some e =>
      obtain ⟨hpe, hsize, -, hstop, hle, hlt | ⟨heq, -⟩⟩ := call_some hcall
      · simp only [hcall, if_pos hlt.1] at h ⊢
        exact .next hcall (run_of_advancing q hle fun f hf => h f (List.mem_cons_of_mem e hf))
      · have hmem := h e (by simp [hcall, heq])
        omega
termination_by t.size - p

theorem finishes_iff : finishes t r = true ↔ ∀ e ∈ events t r, e.pos < e.stop := by
  rw [finishes, List.all_eq_true]
  refine forall₂_congr fun e _ => ?_
  cases e with
  | opened p => simp [Event.stop]
  | closed p => simp [Event.stop]
  | region x => simp [Event.stop]

theorem finishes_iff_run : finishes t r = true ↔ ∃ es z, Run t r 0 es z := by
  rw [finishes_iff]
  constructor
  · exact fun h => ⟨_, _, run_of_advancing 0 (Nat.zero_le _) h⟩
  · rintro ⟨es, z, hrun⟩
    obtain ⟨-, rfl, hall⟩ := hrun.events (Nat.zero_le _)
    exact hall

theorem exists_stalls (h : r.BreaksLine) : ∃ t, Stalls t r 0 := by
  obtain ⟨w, hw, hhead⟩ := h
  have hstarts : (Text.ofChars w).startsWith 0 w = true :=
    Text.startsWith_of_append (u := []) (v := []) (by simp [Text.ofChars])
  have hends : (Text.ofChars w).endsLine 0 = true := by
    rw [Text.endsLine, Text.charAt_of_startsWith hstarts (Rules.ne_nil_of_lineComment hw)]
    simpa using hhead
  exact ⟨Text.ofChars w, ⟨w, hw, hstarts⟩, hends⟩

/-- A call reports an event of the text and ends where the event does, never before its beginning.
All calls over all texts go forward, and come to an end with the text, exactly if line comments do not
begin with a line terminator. Otherwise the calls come to an end for the texts without a comment that
takes up no text. -/
theorem lexing_progresses_iff (r : Rules) :
    (∀ t p e q, call t r p = (some e, q) →
      p ≤ e.pos ∧ e.stop = q ∧ q ≤ t.size ∧ (e.pos < q ∨ q = e.pos ∧ Stalls t r e.pos)) ∧
    ((∀ t p e q, call t r p = (some e, q) → p < q ∧ e.pos < e.stop) ↔ ¬ r.BreaksLine) ∧
    ((∀ t, Run t r 0 (events t r) t.size) ↔ ¬ r.BreaksLine) ∧
    ∀ t, (∃ es z, Run t r 0 es z) ↔ finishes t r = true := by
  refine ⟨?_, ⟨?_, ?_⟩, ⟨?_, ?_⟩, fun t => finishes_iff_run.symm⟩
  · intro t p e q hcall
    obtain ⟨hpe, -, -, hstop, hle, hlt | hstall⟩ := call_some hcall
    · exact ⟨hpe, hstop, hle, .inl hlt.1⟩
    · exact ⟨hpe, hstop, hle, .inr hstall⟩
  · intro hall hbreaks
    obtain ⟨t, hs⟩ := exists_stalls hbreaks
    exact Nat.lt_irrefl 0 (hall t 0 _ _ (call_of_stalls hs)).1
  · intro hbreaks t p e q hcall
    obtain ⟨hpe, -, -, hstop, -, hlt | ⟨-, hs⟩⟩ := call_some hcall
    · exact ⟨by omega, by omega⟩
    · exact (hbreaks hs.breaksLine).elim
  · intro hall hbreaks
    obtain ⟨t, hs⟩ := exists_stalls hbreaks
    exact not_run_of_stalls hs _ (hall t)
  · intro hbreaks t
    apply run_of_advancing 0 (Nat.zero_le _)
    intro e he
    obtain ⟨hsize, hstep⟩ := step_of_mem he
    have hs : ¬ Stalls t r e.pos := fun hs => hbreaks hs.breaksLine
    exact (step_advances hsize hstep hs).1

/-- Settings may let line comments begin with a line feed, and then lexing a text of one line feed
never comes to an end. -/
theorem lineFeed_comment_never_ends :
    ∃ s, Settings.ofToml "[lexical]\nline_comment = \"\\n\"" = .ok s ∧
      ¬ ∃ es z, Run (Text.ofString "\n") s.lexical 0 es z := by
  have hread : (Settings.ofToml "[lexical]\nline_comment = \"\\n\"").toOption =
      some { lexical := { lineComment := some "\n" } } := by decide +kernel
  cases hs : Settings.ofToml "[lexical]\nline_comment = \"\\n\"" with
  | error e =>
    rw [hs] at hread
    cases hread
  | ok s =>
    rw [hs] at hread
    obtain rfl := Option.some.inj hread
    refine ⟨_, rfl, ?_⟩
    rw [(lexing_progresses_iff _).2.2.2]
    decide +kernel

end Lex

end BraceScopes
