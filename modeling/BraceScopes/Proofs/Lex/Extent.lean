import BraceScopes.Proofs.Lex.Progress
/-!
Where the comments and literals of a text begin and end, whatever the rules: before a character, and
between two characters or with the text.
-/
namespace BraceScopes

namespace Text

variable {t : Text} {p : Nat} {w : List Char}

theorem isBoundary_of_startsWith (hw : w ≠ []) (h : t.startsWith p w = true) :
    t.isBoundary (p + byteLength w) = true := by
  obtain ⟨c, w, rfl⟩ := List.exists_cons_of_ne_nil hw
  have hc : t.charAt p = some c := charAt_of_startsWith h hw
  obtain ⟨u, v, hchars, rfl⟩ := exists_append_of_isBoundary (isBoundary_of_charAt hc)
  obtain ⟨v, rfl⟩ := prefix_of_startsWith hchars h
  rw [← byteLength_append]
  exact isBoundary_byteLength (by rw [hchars, List.append_assoc])

theorem isBoundary_lineEnd (t : Text) (p : Nat) : t.isBoundary (t.lineEnd p) = true := by
  rcases t.lineEnd_cases p with hend | ⟨-, hend⟩
  · simp [isBoundary, hend]
  · simp only [endsLine, Bool.or_eq_true, beq_iff_eq] at hend
    rcases hend with hc | hc
    · exact isBoundary_of_charAt hc
    · exact isBoundary_of_charAt hc

end Text

namespace Lex

variable {t : Text} {r : Rules} {p : Nat} {x : Region}

/-- What is known about the ends of a region, whatever the rules. -/
structure Extent (t : Text) (x : Region) : Prop where
  opening : ∃ c, t.charAt x.start = some c
  isBoundary_stop : t.isBoundary x.stop = true
  unterminated : x.terminated = false → x.stop = t.size

theorem exists_charAt_of_startsWith {w : List Char} (hw : w ≠ []) (h : t.startsWith p w = true) :
    ∃ c, t.charAt p = some c := by
  obtain ⟨c, w, rfl⟩ := List.exists_cons_of_ne_nil hw
  exact ⟨c, Text.charAt_of_startsWith h hw⟩

theorem extent_lineComment (h : lineComment? t r p = some x) : Extent t x := by
  unfold lineComment? at h
  split at h
  next w hw =>
    obtain ⟨hstarts, h⟩ := Option.ite_none_right_eq_some.mp h
    cases h
    exact ⟨exists_charAt_of_startsWith (Rules.ne_nil_of_lineComment hw) hstarts,
      t.isBoundary_lineEnd p, by simp⟩
  next => simp at h

theorem extent_toEnd {k : RegionKind} (hc : ∃ c, t.charAt p = some c) :
    Extent t ⟨k, p, t.size, false⟩ :=
  ⟨hc, by simp [Text.isBoundary], fun _ => rfl⟩

theorem extent_delimited {k : RegionKind} {w : List Char} {q : Nat} (hc : ∃ c, t.charAt p = some c)
    (hw : w ≠ []) (h : t.startsWith q w = true) : Extent t ⟨k, p, q + byteLength w, true⟩ :=
  ⟨hc, Text.isBoundary_of_startsWith hw h, by simp⟩

theorem extent_blockComment (h : blockComment? t r p = some x) : Extent t x := by
  unfold blockComment? at h
  split at h
  next opener closer hw =>
    obtain ⟨hopener, hcloser⟩ := Rules.ne_nil_of_blockComment hw
    obtain ⟨hstarts, h⟩ := Option.ite_none_right_eq_some.mp h
    have hc := exists_charAt_of_startsWith hopener hstarts
    split at h
    next q hq =>
      cases h
      exact extent_delimited hc hcloser (Text.firstFrom_eq_some.mp hq).2.2.1
    next =>
      cases h
      exact extent_toEnd hc
  next => simp at h

theorem extent_textBlock (h : textBlock? t r p = some x) : Extent t x := by
  unfold textBlock? at h
  split at h
  next delim hw =>
    have hne := Rules.ne_nil_of_textBlock hw
    obtain ⟨hstarts, h⟩ := Option.ite_none_right_eq_some.mp h
    have hc := exists_charAt_of_startsWith hne hstarts
    split at h
    next q hq =>
      cases h
      exact extent_delimited hc hne (of_closing hq).2
    next =>
      cases h
      exact extent_toEnd hc
  next => simp at h

theorem extent_quoted (h : quoted? t r p = some x) : Extent t x := by
  unfold quoted? at h
  split at h
  next c hc =>
    obtain ⟨-, h⟩ := Option.ite_none_right_eq_some.mp h
    simp only at h
    split at h
    next q hq =>
      cases h
      exact extent_delimited ⟨c, hc⟩ (List.cons_ne_nil c []) (of_closing hq).2
    next =>
      cases h
      refine ⟨⟨c, hc⟩, t.isBoundary_lineEnd _, fun hopen => ?_⟩
      have := t.lineEnd_le (p + c.utf8Size)
      simp only [decide_eq_false_iff_not] at hopen ⊢
      omega
  next => simp at h

theorem extent_regionAt (h : regionAt? t r p = some x) : Extent t x := by
  simp only [regionAt?, Option.orElse_eq_orElse, Option.orElse_eq_or, Option.or_eq_some_iff] at h
  rcases h with h | ⟨-, h | ⟨-, h | ⟨-, h⟩⟩⟩
  · exact extent_lineComment h
  · exact extent_blockComment h
  · exact extent_textBlock h
  · exact extent_quoted h

theorem extent_of_mem (h : .region x ∈ events t r) : Extent t x := by
  have hstep := (step_of_mem h).2
  unfold step at hstep
  split at hstep
  next y hy =>
    cases (Prod.mk.inj hstep).1
    exact extent_regionAt hy
  next =>
    obtain ⟨he, -⟩ := bracketAt_eq_some (Prod.mk.inj hstep).1
    simp at he

theorem Extent.isBoundary_start (h : Extent t x) : t.isBoundary x.start = true := by
  obtain ⟨c, hc⟩ := h.opening
  exact Text.isBoundary_of_charAt hc

/-- Lexing by the rules of Java ends. -/
theorem finishes_java (t : Text) : finishes t .java = true := by
  refine finishes_iff.mpr fun e he => ?_
  cases e with
  | opened p | closed p => exact Nat.lt_succ_self p
  | region x => exact (delimited_of_mem he).nonempty

end Lex

end BraceScopes
