import BraceScopes.Proofs.Text.Slice
import BraceScopes.Text.Lines
/-!
The lines of a text cut it into parts: between one line and the next stands exactly one terminator, and
no line has a terminator inside.
-/
namespace BraceScopes

namespace Text

/-- The bytes of a stretch are what ends one line. -/
inductive Terminator (t : Text) (p : Nat) : Nat → Prop where
  | lineFeed : t.charAt p = some '\n' → Terminator t p (p + 1)
  | both : t.charAt p = some '\r' → t.charAt (p + 1) = some '\n' → Terminator t p (p + 2)
  | carriageReturn : t.charAt p = some '\r' → t.charAt (p + 1) ≠ some '\n' → Terminator t p (p + 1)

/-- No line ends in the bytes from `p` up to `q`. -/
def Unbroken (t : Text) (p q : Nat) : Prop :=
  ∀ i, p ≤ i → i < q → t.charAt i ≠ some '\n' ∧ t.charAt i ≠ some '\r'

variable {t : Text} {p q r : Nat}

theorem Terminator.lt (h : t.Terminator p q) : p < q := by
  cases h <;> omega

theorem Terminator.isBoundary_left (h : t.Terminator p q) : t.isBoundary p = true := by
  cases h with
  | lineFeed hp | both hp _ | carriageReturn hp _ => exact isBoundary_of_charAt hp

theorem Terminator.isBoundary_right (h : t.Terminator p q) : t.isBoundary q = true := by
  cases h with
  | lineFeed hp | carriageReturn hp _ =>
    rw [← show t.next p = p + 1 from next_of_charAt hp]
    exact isBoundary_next hp
  | both _ hp =>
    rw [← show t.next (p + 1) = p + 2 from next_of_charAt hp]
    exact isBoundary_next hp

theorem Unbroken.append (h : t.Unbroken p q) (h' : t.Unbroken q r) : t.Unbroken p r := by
  intro i hp hr
  by_cases hq : i < q
  · exact h i hp hq
  · exact h' i (by omega) hr

theorem unbroken_self (t : Text) (p : Nat) : t.Unbroken p p := fun i hp hlt => by omega

/-- A character that ends no line has no byte that does. -/
theorem unbroken_char {c : Char} (h : t.charAt p = some c) (hn : c ≠ '\n') (hr : c ≠ '\r') :
    t.Unbroken p (p + c.utf8Size) := by
  intro i hp hlt
  rcases Nat.lt_or_eq_of_le hp with inside | rfl
  · simp [charAt_inside h inside hlt]
  · simp [h, hn, hr]

end Text

namespace Lines

/-- Spans that cut a text from a place on into lines. -/
inductive Cut (t : Text) : Nat → List (Nat × Nat) → Prop where
  | last {a : Nat} : a ≤ t.size → t.Unbroken a t.size → Cut t a [(a, t.size)]
  | line {a b c : Nat} {spans : List (Nat × Nat)} : a ≤ b → t.Unbroken a b → t.Terminator b c →
      Cut t c spans → Cut t a ((a, b) :: spans)

variable {t : Text} {a b c i j : Nat} {cs u : List Char} {spans : List (Nat × Nat)}

theorem cut_lineSpans (h : t.chars = u ++ cs) (ha : a ≤ byteLength u)
    (free : t.Unbroken a (byteLength u)) : Cut t a (lineSpans cs a (byteLength u)) := by
  generalize hp : byteLength u = p at ha free ⊢
  -- the scan has read `u`, and the line that it is on, from `a` on, is not broken so far
  fun_induction lineSpans cs a p generalizing u with
  | case1 a p =>
    obtain rfl : t.size = p := by rw [Text.size_eq_byteLength, h, List.append_nil, hp]
    exact .last ha free
  | case2 cs a p ih =>
    subst hp
    have hreturn : t.charAt (byteLength u) = some '\r' := by
      rw [Text.charAt_byteLength h]
      rfl
    have hsplit : t.chars = (u ++ ['\r']) ++ ('\n' :: cs) := by simp [h]
    have hfeed : t.charAt (byteLength u + 1) = some '\n' := by
      have := Text.charAt_byteLength hsplit
      rwa [byteLength_append] at this
    refine .line ha free (.both hreturn hfeed) (ih (u := u ++ ['\r', '\n']) (by simp [h]) ?_ ?_ ?_)
    · rw [byteLength_append]
      rfl
    · exact Nat.le_refl _
    · exact t.unbroken_self _
  | case3 c cs a p hpair hc ih =>
    subst hp
    have hat : t.charAt (byteLength u) = some c := by
      rw [Text.charAt_byteLength h]
      rfl
    have hsplit : t.chars = (u ++ [c]) ++ cs := by simp [h]
    have hlength : byteLength (u ++ [c]) = byteLength u + c.utf8Size := byteLength_append u [c]
    have hone : c.utf8Size = 1 := by rcases hc with rfl | rfl <;> rfl
    have hterm : t.Terminator (byteLength u) (byteLength u + 1) := by
      rcases hc with rfl | rfl
      · exact .lineFeed hat
      · -- with a line feed after it the scan would have taken both
        refine .carriageReturn hat fun hnext => ?_
        have hhead := Text.charAt_byteLength hsplit
        rw [hlength, hone, hnext] at hhead
        obtain ⟨rest, hrest⟩ := List.head?_eq_some_iff.mp hhead.symm
        exact hpair rest rfl hrest
    exact .line ha free hterm (ih hsplit (by omega) (Nat.le_refl _) (t.unbroken_self _))
  | case4 c cs a p hpair hc ih =>
    subst hp
    have hat : t.charAt (byteLength u) = some c := by
      rw [Text.charAt_byteLength h]
      rfl
    have hne : c ≠ '\n' ∧ c ≠ '\r' := not_or.mp hc
    refine ih (u := u ++ [c]) (by simp [h]) ?_ (by omega) ?_
    · exact byteLength_append u [c]
    · exact free.append (Text.unbroken_char hat hne.1 hne.2)

theorem Cut.first (h : Cut t c spans) : ∃ b, spans[0]? = some (c, b) := by
  cases h with
  | last | line => exact ⟨_, rfl⟩

/-- A line of a cut is not broken, and a terminator or the end of the text follows it. -/
theorem Cut.at (h : Cut t c spans) (hi : spans[i]? = some (a, b)) : a ≤ b ∧ t.Unbroken a b ∧
    (∀ s, spans[i + 1]? = some s → t.Terminator b s.1) ∧ (spans[i + 1]? = none → b = t.size) := by
  induction h generalizing i with
  | @last start hle free =>
    cases i with
    | zero =>
      cases hi
      exact ⟨hle, free, by simp, fun _ => rfl⟩
    | succ i => simp at hi
  | @line start stop next rest hle free hterm htail ih =>
    cases i with
    | zero =>
      cases hi
      refine ⟨hle, free, fun s hs => ?_, fun hnone => ?_⟩
      · cases htail <;> cases hs <;> exact hterm
      · cases htail <;> simp at hnone
    | succ i => exact ih hi

theorem Cut.pairwise (h : Cut t c spans) :
    (∀ s ∈ spans, c ≤ s.1) ∧ spans.Pairwise fun x y => x.1 < y.1 := by
  induction h with
  | last hle free => simp
  | @line start stop next rest hle free hterm htail ih =>
    have hlt := hterm.lt
    refine ⟨fun s hs => ?_, List.pairwise_cons.mpr ⟨fun s hs => ?_, ih.2⟩⟩
    · rcases List.mem_cons.mp hs with rfl | hs
      · exact Nat.le_refl _
      · have := ih.1 s hs
        omega
    · have := ih.1 s hs
      simp only
      omega

theorem Cut.isBoundary (h : Cut t c spans) (hc : t.isBoundary c = true) :
    ∀ s ∈ spans, t.isBoundary s.1 = true ∧ t.isBoundary s.2 = true := by
  induction h with
  | last hle free => simpa using ⟨hc, t.isBoundary_size⟩
  | line hle free hterm htail ih =>
    intro s hs
    rcases List.mem_cons.mp hs with rfl | hs
    · exact ⟨hc, hterm.isBoundary_left⟩
    · exact ih hterm.isBoundary_right s hs

theorem cut_ofText (t : Text) : Cut t 0 (ofText t).spans.toList :=
  cut_lineSpans (u := []) rfl (Nat.le_refl 0) (t.unbroken_self 0)

theorem start?_eq_some {ls : Lines} : ls.start? i = some a ↔ ∃ b, ls.spans[i]? = some (a, b) := by
  simp [start?]

theorem stop?_eq_some {ls : Lines} : ls.stop? i = some b ↔ ∃ a, ls.spans[i]? = some (a, b) := by
  simp [stop?]

theorem start?_eq_none {ls : Lines} : ls.start? i = none ↔ ls.spans[i]? = none := by
  simp [start?]

theorem exists_span_iff {ls : Lines} : (∃ s, ls.spans[i]? = some s) ↔ i < ls.count := by
  constructor
  · rintro ⟨s, hs⟩
    exact (Array.getElem?_eq_some_iff.mp hs).1
  · exact fun hi => ⟨ls.spans[i], Array.getElem?_eq_getElem hi⟩

theorem span_of_getElem {ls : Lines} {s : Nat × Nat} (h : ls.spans[i]? = some s) : ls.span i = s := by
  rw [span, h, Option.getD_some]

theorem start?_zero (t : Text) : (ofText t).start? 0 = some 0 := by
  obtain ⟨b, hb⟩ := (cut_ofText t).first
  rw [Array.getElem?_toList] at hb
  exact start?_eq_some.mpr ⟨b, hb⟩

theorem start_lt_start (hij : i < j) (hi : (ofText t).start? i = some a)
    (hj : (ofText t).start? j = some b) : a < b := by
  obtain ⟨a', ha⟩ := start?_eq_some.mp hi
  obtain ⟨b', hb⟩ := start?_eq_some.mp hj
  rw [← Array.getElem?_toList] at ha hb
  obtain ⟨hilt, hai⟩ := List.getElem?_eq_some_iff.mp ha
  obtain ⟨hjlt, hbj⟩ := List.getElem?_eq_some_iff.mp hb
  have hlt := List.pairwise_iff_getElem.mp (cut_ofText t).pairwise.2 i j hilt hjlt hij
  simpa [hai, hbj] using hlt

theorem line_spec (h : (ofText t).spans[i]? = some (a, b)) : a ≤ b ∧ t.Unbroken a b ∧
    (∀ c, (ofText t).start? (i + 1) = some c → t.Terminator b c) ∧
    ((ofText t).start? (i + 1) = none → b = t.size) := by
  obtain ⟨hle, free, hnext, hlast⟩ := (cut_ofText t).at (by rwa [Array.getElem?_toList])
  rw [Array.getElem?_toList] at hnext hlast
  refine ⟨hle, free, fun c hc => ?_, fun hnone => hlast (start?_eq_none.mp hnone)⟩
  obtain ⟨d, hd⟩ := start?_eq_some.mp hc
  exact hnext _ hd

theorem line_isBoundary (h : (ofText t).spans[i]? = some (a, b)) :
    t.isBoundary a = true ∧ t.isBoundary b = true :=
  (cut_ofText t).isBoundary t.isBoundary_zero (a, b)
    (Array.mem_toList_iff.mpr (Array.mem_of_getElem? h))

theorem start_le_iff_lt_bisect (m : Nat) (h : (ofText t).start? i = some a) :
    i < bisect (fun i => ((ofText t).span i).1 ≤ m) 0 (ofText t).count ↔ a ≤ m := by
  have value : ∀ j, j < (ofText t).count → ∃ x, (ofText t).start? j = some x ∧
      ((ofText t).span j).1 = x := by
    intro j hj
    obtain ⟨s, hs⟩ := exists_span_iff.mpr hj
    exact ⟨s.1, start?_eq_some.mpr ⟨s.2, hs⟩, by rw [span_of_getElem hs]⟩
  have down : ∀ x y, x ≤ y → y < (ofText t).count → decide (((ofText t).span y).1 ≤ m) = true →
      decide (((ofText t).span x).1 ≤ m) = true := by
    intro x y hxy hy hle
    rcases Nat.lt_or_eq_of_le hxy with hlt | rfl
    · obtain ⟨sx, hsx, hvx⟩ := value x (by omega)
      obtain ⟨sy, hsy, hvy⟩ := value y hy
      have := start_lt_start hlt hsx hsy
      simp only [decide_eq_true_eq] at hle ⊢
      omega
    · exact hle
  obtain ⟨b, hb⟩ := start?_eq_some.mp h
  rw [lt_bisect_iff _ down (Nat.zero_le i) (exists_span_iff.mp ⟨_, hb⟩), span_of_getElem hb,
    decide_eq_true_eq]

/-- The line of an offset is the one that starts at or before it while the next one does not. -/
theorem lineOf_eq_iff (t : Text) (offset i : Nat) : (ofText t).lineOf offset = i ↔
    (∃ a, (ofText t).start? i = some a ∧ a ≤ min offset t.size) ∧
      ∀ c, (ofText t).start? (i + 1) = some c → min offset t.size < c := by
  change bisect (fun i => ((ofText t).span i).1 ≤ min offset t.size) 0 (ofText t).count - 1 = i ↔ _
  generalize min offset t.size = m
  -- the search ends after the lines that start by `m`, and the first line is one of them
  have reach := fun {i a : Nat} => start_le_iff_lt_bisect (t := t) (i := i) (a := a) m
  generalize hn : bisect (fun i => ((ofText t).span i).1 ≤ m) 0 (ofText t).count = n at reach
  have hpos : 0 < n := (reach (start?_zero t)).mpr (Nat.zero_le m)
  have hle : n ≤ (ofText t).count := hn ▸ bisect_le _ (Nat.zero_le _)
  constructor
  · rintro rfl
    obtain ⟨s, hs⟩ := exists_span_iff.mpr (show n - 1 < (ofText t).count by omega)
    have hstart := start?_eq_some.mpr ⟨s.2, hs⟩
    refine ⟨⟨s.1, hstart, (reach hstart).mp (by omega)⟩, fun c hc => ?_⟩
    refine Nat.lt_of_not_le fun hcm => ?_
    have := (reach hc).mpr hcm
    omega
  · rintro ⟨⟨a, ha, ham⟩, hnext⟩
    have hi := (reach ha).mpr ham
    refine Nat.le_antisymm (Nat.le_of_not_lt fun hlt => ?_) (by omega)
    obtain ⟨s, hs⟩ := exists_span_iff.mpr (show i + 1 < (ofText t).count by omega)
    have hstart := start?_eq_some.mpr ⟨s.2, hs⟩
    have := hnext s.1 hstart
    have := (reach hstart).mp (by omega)
    omega

theorem exists_lineOf (t : Text) (offset : Nat) : ∃ a b,
    (ofText t).spans[(ofText t).lineOf offset]? = some (a, b) ∧ a ≤ min offset t.size := by
  obtain ⟨⟨a, ha, hle⟩, -⟩ := (lineOf_eq_iff t offset _).mp rfl
  obtain ⟨b, hb⟩ := start?_eq_some.mp ha
  exact ⟨a, b, hb, hle⟩

theorem start_add_lineColumn (t : Text) (offset : Nat) : ∃ a b,
    (ofText t).start? ((ofText t).lineColumn offset).1 = some a ∧
    (ofText t).stop? ((ofText t).lineColumn offset).1 = some b ∧
    a + ((ofText t).lineColumn offset).2 = min (min offset t.size) b := by
  obtain ⟨a, b, hspan, hle⟩ := exists_lineOf t offset
  obtain ⟨hab, -, -, -⟩ := line_spec hspan
  refine ⟨a, b, start?_eq_some.mpr ⟨b, hspan⟩, stop?_eq_some.mpr ⟨a, hspan⟩, ?_⟩
  change a + (min (min offset t.size) ((ofText t).span _).2 - ((ofText t).span _).1) = _
  rw [span_of_getElem hspan]
  simp only
  omega

/-- The line table partitions the text. There are as many stops as starts, and the starts increase from
zero. No line is broken, one terminator stands between a line and the next, and the last line stops
where the text does. The line of an offset is the only one that starts at or before it and whose next
line, if any, starts after it, so that columns are counted from the start of a line. -/
theorem ofText_partitions (t : Text) :
    (∀ i, (((ofText t).start? i).isSome = true ↔ i < (ofText t).count) ∧
      (((ofText t).stop? i).isSome = true ↔ i < (ofText t).count)) ∧
    (ofText t).start? 0 = some 0 ∧
    (∀ i j a b, i < j → (ofText t).start? i = some a → (ofText t).start? j = some b → a < b) ∧
    (∀ i a b, (ofText t).start? i = some a → (ofText t).stop? i = some b →
      a ≤ b ∧ t.Unbroken a b ∧
      (∀ c, (ofText t).start? (i + 1) = some c → t.Terminator b c) ∧
      ((ofText t).start? (i + 1) = none → b = t.size)) ∧
    ∀ offset,
      (∀ i, (ofText t).lineOf offset = i ↔
        (∃ a, (ofText t).start? i = some a ∧ a ≤ min offset t.size) ∧
        ∀ c, (ofText t).start? (i + 1) = some c → min offset t.size < c) ∧
      ((ofText t).lineColumn offset).1 = (ofText t).lineOf offset ∧
      ∃ a b, (ofText t).start? ((ofText t).lineOf offset) = some a ∧
        (ofText t).stop? ((ofText t).lineOf offset) = some b ∧
        a + ((ofText t).lineColumn offset).2 = min (min offset t.size) b := by
  refine ⟨fun i => ⟨?_, ?_⟩, start?_zero t, fun i j a b => start_lt_start, ?_, fun offset =>
    ⟨lineOf_eq_iff t offset, rfl, start_add_lineColumn t offset⟩⟩
  · simp [start?, count]
  · simp [stop?, count]
  · intro i a b ha hb
    obtain ⟨b', hspan⟩ := start?_eq_some.mp ha
    obtain ⟨a', hspan'⟩ := stop?_eq_some.mp hb
    rw [hspan] at hspan'
    cases hspan'
    exact line_spec hspan

/-- After a line that ends with both characters an empty line ends with a carriage return, which is not
followed by the line feed of the next terminator. -/
theorem ofText_partitions_mixed :
    let t : Text := .ofString "a\r\n\r\r\nb"
    (ofText t).start? 1 = some 3 ∧ (ofText t).stop? 1 = some 3 ∧ (ofText t).start? 2 = some 4 ∧
      t.Terminator 3 4 ∧ (ofText t).lineOf 5 = 2 := by
  intro t
  have hstart : (ofText t).start? 1 = some 3 := by decide +kernel
  have hstop : (ofText t).stop? 1 = some 3 := by decide +kernel
  have hnext : (ofText t).start? 2 = some 4 := by decide +kernel
  obtain ⟨-, -, -, each, line⟩ := ofText_partitions t
  refine ⟨hstart, hstop, hnext, (each 1 3 3 hstart hstop).2.2.1 4 hnext, ((line 5).1 2).mpr ?_⟩
  have hlast : (ofText t).start? 3 = some 6 := by decide +kernel
  refine ⟨⟨4, hnext, by decide +kernel⟩, fun c hc => ?_⟩
  rw [hlast] at hc
  cases hc
  decide +kernel

end Lines

end BraceScopes
