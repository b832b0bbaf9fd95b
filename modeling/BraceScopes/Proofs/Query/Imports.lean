import BraceScopes.Proofs.Lex.Chars
import BraceScopes.Proofs.Query.ImportPattern
import BraceScopes.Proofs.Session.Lines
import BraceScopes.Proofs.Text.Positions
/-!
The imports of a session. The word that begins an import is followed by white space and a path, and no word
inside an import is: so matches never overlap, and the search from left to right comes to all of them. A
match goes over no character that a comment, a literal or a bracket begins or ends with, so it is code if
its first character is.
-/
namespace BraceScopes

open BraceScopes.Lex

namespace Header

open Regex

variable {t : Text} {x y : HeaderLine} {r : Regex} {star : Bool} {w : String} {p q i stop e : Nat}

theorem exists_of_part (h : part.Matches t p q) : ∃ c, t.charAt p = some c ∧ isPathChar c = true := by
  obtain ⟨m, ⟨c, hc, hpath, -⟩, -⟩ := h
  exact ⟨c, hc, hpath⟩

/-- The keyword of an import and white space, with a path character after them. -/
def Opens (t : Text) (i : Nat) : Prop :=
  ∃ q c, (keyword "import").Matches t i q ∧ t.charAt q = some c ∧ isPathChar c = true

theorem opens_of_reads (h : Reads t x) : Opens t x.start := by
  obtain ⟨q, stop, ⟨m, ⟨_, ⟨-, rfl⟩, hkeyword⟩, hkind⟩, ⟨k, hpart, -⟩, -, -⟩ := h
  have hfirst : ∃ c, t.charAt m = some c ∧ isPathChar c = true := by
    cases hstatic : x.isStatic with
    | true =>
      rw [hstatic] at hkind
      exact exists_of_part (part_of_keyword (by decide) (by decide) hkind).1
    | false =>
      rw [hstatic] at hkind
      obtain rfl : m = q := hkind
      exact exists_of_part hpart
  obtain ⟨c, hc, hpath⟩ := hfirst
  exact ⟨m, c, hkeyword, hc, hpath⟩

namespace Opens

variable (h : Opens t i)

include h

theorem charAt : t.charAt i = some 'i' := by
  obtain ⟨_, _, ⟨m, hword, -⟩, -, -⟩ := h
  have hstarts := (matches_word.mp hword).1
  simp only [String.reduceToList, Text.startsWith, Bool.and_eq_true, beq_iff_eq] at hstarts
  exact hstarts.1

theorem le_of_crosses (hm : r.Matches t p q) (hr : r.crosses 'i' = false) (hp : p ≤ i) : q ≤ i := by
  refine Nat.le_of_not_lt fun hlt => ?_
  rw [hm.crosses hp hlt h.charAt] at hr
  cases hr

/-- The keyword ends where the run of path characters around it ends. -/
theorem stop_run (hrun : (run isPathChar).Matches t p q) (hq : t.Ends isPathChar q) (hp : p ≤ i)
    (hi : i < q) : i + 6 = q := by
  have hsuffix := matches_run_suffix hrun (Text.isBoundary_of_charAt h.charAt) hp (Nat.le_of_lt hi)
  obtain ⟨_, _, hkeyword, -, -⟩ := h
  obtain ⟨hword, hends⟩ := part_of_keyword (by decide) (by decide) hkeyword
  exact matches_run_unique (matches_plus_char.mp hword).2 hends hsuffix hq

theorem not_stops : ¬ Stops t (i + 6) := by
  intro hstops
  obtain ⟨q, c, ⟨m, hword, hplus⟩, hc, hpath⟩ := h
  obtain ⟨-, rfl⟩ := matches_word.mp hword
  have hq : blanksEnd t (i + 6) = q :=
    runEnd_eq (matches_plus_char.mp hplus).2 (ends_of_charAt hc (not_isBlank_of_isPathChar hpath))
  have hafter := hstops.blanksEnd
  rw [hq] at hafter
  have hends : t.Ends isPathChar q := ends_of_mark hafter (by decide) (by decide)
  rw [hends c hc] at hpath
  cases hpath

theorem le_of_part (hpart : part.Matches t p q) (hq : Stops t q) (hp : p ≤ i) : q ≤ i := by
  refine Nat.le_of_not_lt fun hlt => h.not_stops ?_
  rw [h.stop_run (matches_plus_char.mp hpart).2 hq.ends hp hlt]
  exact hq

theorem le_of_tail (htail : (tail star).Matches t p q) (hq : Stops t q) (hp : p ≤ i) : q ≤ i := by
  obtain ⟨m, hdot, k, hblanks, hlast⟩ := htail
  have hm := h.le_of_crosses hdot (by decide) hp
  have hk := h.le_of_crosses hblanks (by decide) hm
  cases star with
  | false => exact h.le_of_part hlast hq hk
  | true =>
    rcases hlast with hpart | hstar
    · exact h.le_of_part hpart hq hk
    · exact h.le_of_crosses hstar (by decide) hk

theorem le_of_tails (htails : (tail star).star.Matches t p stop) (hclose : close.Matches t stop e)
    (hp : p ≤ i) : stop ≤ i := by
  induction htails using Relation.ReflTransGen.head_induction_on with
  | refl => exact hp
  | head htail hrest ih => exact ih (h.le_of_tail htail (stops_of_tails hrest hclose) hp)

/-- The only place of a keyword of six characters where an import can begin is its start. -/
theorem le_of_keyword (hw : ∀ c ∈ w.toList, isPathChar c = true) (hsix : byteLength w.toList = 6)
    (hkeyword : (keyword w).Matches t p q) (hp : p < i) : q ≤ i := by
  have hne : w.toList ≠ [] := by
    intro hnil
    rw [hnil] at hsix
    cases hsix
  obtain ⟨hword, hends⟩ := part_of_keyword hne hw hkeyword
  obtain ⟨m, hstarts, hplus⟩ := hkeyword
  obtain ⟨-, rfl⟩ := matches_word.mp hstarts
  have hm : p + byteLength w.toList ≤ i := by
    refine Nat.le_of_not_lt fun hlt => ?_
    have := h.stop_run (matches_plus_char.mp hword).2 hends (Nat.le_of_lt hp) hlt
    omega
  exact h.le_of_crosses hplus (by decide) hm

/-- No import begins inside another. -/
theorem le_of_reads (hx : Reads t x) (hi : x.start < i) : x.stop ≤ i := by
  obtain ⟨q, stop, ⟨m, ⟨_, ⟨-, rfl⟩, hkeyword⟩, hkind⟩, ⟨k, hpart, htails⟩, hclose, -⟩ := hx
  have hm := h.le_of_keyword (by decide) rfl hkeyword hi
  have hq : q ≤ i := by
    cases hstatic : x.isStatic with
    | false =>
      rw [hstatic] at hkind
      exact (show m = q from hkind) ▸ hm
    | true =>
      rw [hstatic] at hkind
      -- the second keyword has as many characters as the first, and begins with another one
      rcases Nat.lt_or_eq_of_le hm with hlt | rfl
      · exact h.le_of_keyword (by decide) rfl hkind hlt
      · obtain ⟨_, hword, -⟩ := hkind
        have hs := (matches_word.mp hword).1
        simp only [String.reduceToList, Text.startsWith, Bool.and_eq_true, beq_iff_eq] at hs
        rw [h.charAt] at hs
        exact absurd hs.1 (by decide)
  have hk := h.le_of_part hpart (stops_of_tails htails hclose) hq
  exact h.le_of_crosses hclose (by decide) (h.le_of_tails htails hclose hk)

end Opens

theorem match_iff_reads : importPattern.Matches t p e ↔ ∃ x, Reads t x ∧ x.start = p ∧ x.stop = e := by
  constructor
  · rintro ⟨m, hhead, q, hkind, stop, hpath, hclose⟩
    obtain ⟨ws, hparts⟩ := exists_parts hpath
    rcases hkind with hstatic | rfl
    · exact ⟨⟨p, e, ".".intercalate ws, true⟩,
        ⟨q, stop, ⟨m, hhead, hstatic⟩, hpath, hclose, ws, hparts, rfl⟩, rfl, rfl⟩
    · exact ⟨⟨p, e, ".".intercalate ws, false⟩,
        ⟨m, stop, ⟨m, hhead, rfl⟩, hpath, hclose, ws, hparts, rfl⟩, rfl, rfl⟩
  · rintro ⟨x, ⟨q, stop, ⟨m, hhead, hkind⟩, hpath, hclose, -⟩, rfl, rfl⟩
    refine ⟨m, hhead, q, ?_, stop, hpath, hclose⟩
    cases hstatic : x.isStatic with
    | true =>
      rw [hstatic] at hkind
      exact .inl hkind
    | false =>
      rw [hstatic] at hkind
      exact .inr hkind

theorem reads_unique (hx : Reads t x) (hy : Reads t y) (h : x.start = y.start) : x = y := by
  have hread := importAt?_eq_some.mpr ⟨rfl, hx⟩
  rw [h, importAt?_eq_some.mpr ⟨rfl, hy⟩] at hread
  exact (Option.some.inj hread).symm

/-- Matches never overlap. -/
theorem matches_apart {p' e' : Nat} (h : importPattern.Matches t p e)
    (h' : importPattern.Matches t p' e') (hlt : p < p') : e ≤ p' := by
  obtain ⟨x, hx, rfl, rfl⟩ := match_iff_reads.mp h
  obtain ⟨y, hy, rfl, -⟩ := match_iff_reads.mp h'
  exact (opens_of_reads hy).le_of_reads hx hlt

theorem bounds_of_reads (h : Reads t x) : x.start < x.stop ∧ x.stop ≤ t.size := by
  have hc := (opens_of_reads h).charAt
  obtain ⟨q, stop, hhead, hpath, ⟨m, hblanks, c, hsemi, -, hstop⟩, -⟩ := h
  have hq := hhead.le
  have hpq := hpath.le
  have hm : stop ≤ m := Matches.le hblanks
  have hlt := t.lt_next m
  have hsize := Text.next_le_size hsemi
  omega

/-- A reader finds a line where it looks for one, and never two that overlap. -/
structure Separate (t : Text) (read : Nat → Option HeaderLine) : Prop where
  place : ∀ p x, read p = some x → x.start = p ∧ p < x.stop ∧ x.stop ≤ t.size
  apart : ∀ p q x y, read p = some x → read q = some y → p < q → x.stop ≤ q

section

variable {read : Nat → Option HeaderLine} (h : Separate t read)

include h

/-- The search from left to right comes to every line. -/
theorem mem_linesFrom : x ∈ linesFrom t read p ↔ p ≤ x.start ∧ read x.start = some x := by
  -- after a line the search skips the places inside it, where nothing is found
  fun_induction linesFrom t read p with
  | case1 p hp line hline ih =>
    obtain ⟨rfl, hlt, -⟩ := h.place p line hline
    rw [List.mem_cons, ih]
    constructor
    · rintro (rfl | ⟨hle, hread⟩)
      · exact ⟨Nat.le_refl _, hline⟩
      · exact ⟨by omega, hread⟩
    · rintro ⟨hle, hread⟩
      rcases Nat.lt_or_eq_of_le hle with hlt' | heq
      · have := h.apart _ _ _ _ hline hread hlt'
        exact .inr ⟨by omega, hread⟩
      · rw [← heq, hline] at hread
        exact .inl (Option.some.inj hread).symm
  | case2 p hp hnone ih =>
    rw [ih]
    constructor
    · rintro ⟨hle, hread⟩
      exact ⟨by omega, hread⟩
    · rintro ⟨hle, hread⟩
      refine ⟨Nat.lt_of_le_of_ne hle fun heq => ?_, hread⟩
      rw [← heq, hnone] at hread
      cases hread
  | case3 p hp =>
    simp only [List.not_mem_nil, false_iff]
    rintro ⟨hle, hread⟩
    obtain ⟨-, hlt, hsize⟩ := h.place _ _ hread
    omega

theorem pairwise_linesFrom (p : Nat) :
    (linesFrom t read p).Pairwise fun x y => x.stop ≤ y.start := by
  fun_induction linesFrom t read p with
  | case1 p hp line hline ih =>
    refine List.pairwise_cons.mpr ⟨fun y hy => ?_, ih⟩
    have := ((mem_linesFrom h).mp hy).1
    omega
  | case2 p hp hnone ih => exact ih
  | case3 p hp => exact List.Pairwise.nil

end

theorem separate_importAt? (t : Text) : Separate t (importAt? t) where
  place p x hx := by
    obtain ⟨rfl, hreads⟩ := importAt?_eq_some.mp hx
    exact ⟨rfl, bounds_of_reads hreads⟩
  apart p q x y hx hy hlt := by
    obtain ⟨hp, hreads⟩ := importAt?_eq_some.mp hx
    obtain ⟨hq, hreads'⟩ := importAt?_eq_some.mp hy
    subst hp hq
    exact (opens_of_reads hreads').le_of_reads hreads hlt

/-- A byte of code that no bracket encloses. -/
def TopLevel (t : Text) (p : Nat) : Prop :=
  (Lexed.ofText t .java).isCode p = true ∧ (classify t .java p).enclosing = []

/-- The characters that begin a comment or a literal, and the brackets. -/
def structural : List Char := ['/', '"', '\'', '(', ')', '[', ']', '{', '}']

theorem not_structural_of_match (h : importPattern.Matches t p e) {j : Nat} {c : Char} (hp : p ≤ j)
    (hj : j < e) (hc : t.charAt j = some c) : c ∉ structural := by
  have hnone : ∀ d ∈ structural, importPattern.crosses d = false := by decide
  intro hmem
  have hcrosses := h.crosses hp hj hc
  rw [hnone c hmem] at hcrosses
  cases hcrosses

/-- A match that begins in code outside of brackets is code outside of brackets. -/
theorem topLevel_match (h : importPattern.Matches t p e) (htop : TopLevel t p) (hp : p ≤ i) (hi : i < e) :
    TopLevel t i := by
  obtain ⟨hcode, houter⟩ := htop
  have hix : (Lexed.ofText t .java).IsJava := Lexed.isJava_ofText t
  have hfree : ∀ j c, p ≤ j → j ≤ i → t.charAt j = some c → c ∉ structural := fun j c hj hji hc =>
    not_structural_of_match h hj (by omega) hc
  have hsize : i ≤ t.size := by
    obtain ⟨x, hx, rfl, rfl⟩ := match_iff_reads.mp h
    have := bounds_of_reads hx
    omega
  refine ⟨hix.isCode_of_no_delimiter hcode hp fun j c hj hji hc hdelim => ?_, ?_⟩
  · rw [Lexed.ofText_text] at hc
    refine hfree j c (Nat.le_of_lt hj) hji hc ?_
    rcases hdelim with rfl | rfl | rfl <;> decide
  · have hlevel : stackBelow i (events t .java) = stackBelow p (events t .java) := by
      have hnone := hix.no_bracket (p := p) (q := i) fun j c hj hji hc => ?_
      · rw [Lexed.ofText_text] at hnone
        exact stackBelow_eq_of_no_bracket hp hnone
      · have hchar := hc.char
        rw [Lexed.ofText_text] at hchar
        have hmem := hfree j c hj (Nat.le_of_lt hji) hchar
        refine ⟨Bool.eq_false_iff.mpr fun ho => hmem ?_, Option.not_isSome_iff_eq_none.mp fun ho => hmem ?_⟩
        · rcases isOpener_iff.mp ho with rfl | rfl | rfl <;> decide
        · rcases openerOf_isSome_iff.mp ho with rfl | rfl | rfl <;> decide
    rw [enclosing_of_le hsize, hlevel, ← enclosing_of_le (Nat.le_trans hp hsize), houter]

theorem mem_topLevel : x ∈ topLevel (.ofText t .java) importAt? ↔ Reads t x ∧ TopLevel t x.start := by
  have hclassify : Reads t x → ((Lexed.ofText t .java).classify x.start).enclosing =
      (classify t .java x.start).enclosing := by
    intro hx
    obtain ⟨hlt, hsize⟩ := bounds_of_reads hx
    have hle : x.start ≤ t.size := by omega
    have heq := (Lexed.isJava_ofText t).enclosing_eq (p := x.start) (by rwa [Lexed.ofText_text])
    rw [Lexed.ofText_text] at heq
    rw [heq, enclosing_of_le hle]
  rw [topLevel, List.mem_filter, Lexed.ofText_text, mem_linesFrom (separate_importAt? t),
    importAt?_eq_some, Bool.and_eq_true, List.isEmpty_iff]
  constructor
  · rintro ⟨⟨-, -, hx⟩, hcode, houter⟩
    exact ⟨hx, hcode, hclassify hx ▸ houter⟩
  · rintro ⟨hx, hcode, houter⟩
    exact ⟨⟨Nat.zero_le _, rfl, hx⟩, hcode, (hclassify hx).trans houter⟩

theorem pairwise_topLevel (t : Text) :
    (topLevel (.ofText t .java) importAt?).Pairwise fun x y => x.stop ≤ y.start := by
  rw [topLevel, Lexed.ofText_text]
  exact (pairwise_linesFrom (separate_importAt? t) 0).filter _

theorem not_isBlank_of_mem_path {c : Char} (h : Reads t x) (hc : c ∈ x.path.toList) :
    isBlank c = false := by
  obtain ⟨q, stop, -, -, -, ws, hparts, hpath⟩ := h
  rw [hpath, ← squeezed_parts hparts, squeezed, String.toList_ofList, List.mem_filter] at hc
  simpa using hc.2

theorem not_insidePair_of_reads (h : Reads t x) : ¬ t.InsidePair x.start ∧ ¬ t.InsidePair x.stop := by
  constructor
  · rintro ⟨-, -, -, hfeed⟩
    rw [(opens_of_reads h).charAt] at hfeed
    exact absurd hfeed (by decide)
  · rintro ⟨q, hq, hreturn, -⟩
    obtain ⟨_, stop, -, -, hclose, -⟩ := h
    obtain ⟨hsemi, hstop⟩ := close_iff.mp hclose
    obtain rfl : blanksEnd t stop = q := by omega
    rw [hsemi] at hreturn
    exact absurd hreturn (by decide)

end Header

namespace Lines

/-- The line of a place that lies inside no terminator goes around the place. -/
theorem spanOf_spec {t : Text} {p : Nat} (hsize : p ≤ t.size) (hpair : ¬ t.InsidePair p) :
    ∃ i a b, (ofText t).start? i = some a ∧ (ofText t).stop? i = some b ∧
      (ofText t).spanOf p = (a, b) ∧ a ≤ p ∧ p ≤ b ∧ t.Unbroken a b := by
  obtain ⟨a, b, hspan, hle⟩ := exists_lineOf t p
  refine ⟨_, a, b, start?_eq_some.mpr ⟨b, hspan⟩, stop?_eq_some.mpr ⟨a, hspan⟩,
    span_of_getElem hspan, by omega, ?_, (line_spec hspan).2.1⟩
  exact (le_stop_or_insidePair hspan hsize).resolve_right hpair

end Lines

namespace Session

variable {s : Session}

theorem resolve_document (s : Session) : s.resolve.document = s.document := by
  unfold resolve
  split
  next => rfl
  next => rfl

theorem entries_imports (h : s.Indexed .java) :
    s.imports.1.entries = Header.topLevel (.ofText s.text .java) Header.importAt? := by
  change Header.topLevel (.ofText s.resolve.document.text s.resolve.rules) Header.importAt? = _
  rw [h.resolve.rules, resolve_document]
  rfl

theorem region_imports (h : s.Indexed .java) : s.imports.1.region =
    match s.imports.1.entries.head?, s.imports.1.entries.getLast? with
    | some first, some last => some (((Lines.ofText s.text).spanOf first.start).1,
        ((Lines.ofText s.text).spanOf last.stop).2)
    | _, _ => none := by
  have hlines : s.resolve.document.lines = Lines.ofText s.text := by
    rw [h.resolve.document, resolve_document]
    rfl
  rw [← hlines]
  rfl

/-- The region goes from the start of the first line to the stop of the last. -/
theorem region_eq_some {a b : Nat} (h : s.Indexed .java) (hregion : s.imports.1.region = some (a, b)) :
    ∃ first last, s.imports.1.entries.head? = some first ∧ s.imports.1.entries.getLast? = some last ∧
      a = ((Lines.ofText s.text).spanOf first.start).1 ∧
      b = ((Lines.ofText s.text).spanOf last.stop).2 := by
  rw [region_imports h] at hregion
  split at hregion
  next first last hfirst hlast =>
    cases hregion
    exact ⟨first, last, hfirst, hlast, rfl, rfl⟩
  next => cases hregion

theorem region_eq_none (h : s.Indexed .java) :
    s.imports.1.region = none ↔ s.imports.1.entries = [] := by
  rw [region_imports h]
  cases hentries : s.imports.1.entries with
  | nil => simp
  | cons x xs =>
    obtain ⟨last, hlast⟩ : ∃ last, (x :: xs).getLast? = some last := ⟨_, List.getLast?_cons⟩
    simp [hlast]

theorem apart_entries (h : s.Indexed .java) :
    s.imports.1.entries.Pairwise fun x y => x.stop ≤ y.start := by
  rw [entries_imports h]
  exact Header.pairwise_topLevel s.text

theorem mem_entries {x : HeaderLine} (h : s.Indexed .java) :
    x ∈ s.imports.1.entries ↔ Header.Reads s.text x ∧ Header.TopLevel s.text x.start := by
  rw [entries_imports h]
  exact Header.mem_topLevel

theorem head_le_of_mem {first x : HeaderLine} (h : s.Indexed .java)
    (hfirst : s.imports.1.entries.head? = some first) (hx : x ∈ s.imports.1.entries) :
    first.start ≤ x.start := by
  have apart := apart_entries h
  have hbounds := Header.bounds_of_reads ((mem_entries h).mp (List.mem_of_head? hfirst)).1
  obtain ⟨rest, hrest⟩ := List.head?_eq_some_iff.mp hfirst
  rw [hrest] at hx apart
  rcases List.mem_cons.mp hx with rfl | hx
  · exact Nat.le_refl _
  · have := (List.pairwise_cons.mp apart).1 x hx
    omega

theorem le_getLast_of_mem {last x : HeaderLine} (h : s.Indexed .java)
    (hlast : s.imports.1.entries.getLast? = some last) (hx : x ∈ s.imports.1.entries) :
    x.stop ≤ last.stop := by
  have apart := apart_entries h
  have hbounds := Header.bounds_of_reads ((mem_entries h).mp (List.mem_of_getLast? hlast)).1
  obtain ⟨before, hbefore⟩ := List.getLast?_eq_some_iff.mp hlast
  rw [hbefore] at hx apart
  rcases List.mem_append.mp hx with hx | hx
  · have := (List.pairwise_append.mp apart).2.2 x hx last (List.mem_singleton_self last)
    omega
  · obtain rfl := List.mem_singleton.mp hx
    exact Nat.le_refl _

theorem region_spec {a b : Nat} (h : s.Indexed .java) (hregion : s.imports.1.region = some (a, b)) :
    (∃ i, (Lines.ofText s.text).start? i = some a) ∧ (∃ j, (Lines.ofText s.text).stop? j = some b) ∧
      (∃ x ∈ s.imports.1.entries, s.text.Unbroken a x.start) ∧
      (∃ x ∈ s.imports.1.entries, s.text.Unbroken x.stop b) ∧
      ∀ x ∈ s.imports.1.entries, a ≤ x.start ∧ x.stop ≤ b := by
  obtain ⟨first, last, hfirst, hlast, rfl, rfl⟩ := region_eq_some h hregion
  have hmem := List.mem_of_head? hfirst
  have hmem' := List.mem_of_getLast? hlast
  have hreads := ((mem_entries h).mp hmem).1
  have hreads' := ((mem_entries h).mp hmem').1
  have hsize := Header.bounds_of_reads hreads
  have hsize' := Header.bounds_of_reads hreads'
  obtain ⟨i, a, b, hi, -, hline, ha, hb, free⟩ :=
    Lines.spanOf_spec (p := first.start) (by omega) (Header.not_insidePair_of_reads hreads).1
  obtain ⟨j, a', b', -, hj, hline', ha', hb', free'⟩ :=
    Lines.spanOf_spec hsize'.2 (Header.not_insidePair_of_reads hreads').2
  rw [hline, hline']
  refine ⟨⟨i, hi⟩, ⟨j, hj⟩, ⟨first, hmem, fun k hk hlt => free k hk (by omega)⟩,
    ⟨last, hmem', fun k hk hlt => free' k (by omega) hlt⟩, fun x hx => ?_⟩
  have := head_le_of_mem h hfirst hx
  have := le_getLast_of_mem h hlast hx
  simp only
  omega

end Session

open Header in
/-- The imports of a session. In every state that a session with the rules of Java comes to, the entries are
what the pattern of imports matches in code outside of brackets: with the path and the kind that the match
gives, in ascending order, and one for each place where a match begins there. For at one place the pattern
matches in one way at most, and no two matches overlap anywhere in the text. Every byte of the matches is
code outside of brackets, and no path has white space in it. The region is there if an entry is, and it
goes from the start of a line, the one where the first entry begins, to the stop of a line, the one where
the last entry ends. -/
theorem imports_topLevel (t : Text) (cfg : ScopeConfig) (chain : List Detector) (rs : List Request) :
    let s := (Session.new t .java cfg chain).run rs
    let found := s.imports.1
    (∀ x, x ∈ found.entries ↔ Reads s.text x ∧ TopLevel s.text x.start) ∧
    (∀ p e, (∃ x ∈ found.entries, x.start = p ∧ x.stop = e) ↔
      importPattern.Matches s.text p e ∧ TopLevel s.text p) ∧
    found.entries.Pairwise (fun x y => x.start < y.start) ∧
    (∀ x y, Reads s.text x → Reads s.text y → x.start = y.start → x = y) ∧
    (∀ p e p' e', importPattern.Matches s.text p e → importPattern.Matches s.text p' e' → p < p' →
      e ≤ p') ∧
    (∀ x ∈ found.entries, (∀ i, x.start ≤ i → i < x.stop → TopLevel s.text i) ∧
      ∀ c ∈ x.path.toList, isBlank c = false) ∧
    (found.region = none ↔ found.entries = []) ∧
    ∀ a b, found.region = some (a, b) →
      (∃ i, (Lines.ofText s.text).start? i = some a) ∧ (∃ j, (Lines.ofText s.text).stop? j = some b) ∧
      (∃ x ∈ found.entries, s.text.Unbroken a x.start) ∧
      (∃ x ∈ found.entries, s.text.Unbroken x.stop b) ∧
      ∀ x ∈ found.entries, a ≤ x.start ∧ x.stop ≤ b := by
  intro s found
  have indexed : s.Indexed .java := (Session.Indexed.new t .java cfg chain).run rs
  have mem : ∀ x, x ∈ found.entries ↔ Reads s.text x ∧ TopLevel s.text x.start := fun x =>
    Session.mem_entries indexed
  refine ⟨mem, ?_, ?_, fun x y => reads_unique, fun p e p' e' => matches_apart, ?_,
    Session.region_eq_none indexed, ?_⟩
  · intro p e
    rw [match_iff_reads]
    constructor
    · rintro ⟨x, hx, rfl, rfl⟩
      obtain ⟨hreads, htop⟩ := (mem x).mp hx
      exact ⟨⟨x, hreads, rfl, rfl⟩, htop⟩
    · rintro ⟨⟨x, hreads, rfl, rfl⟩, htop⟩
      exact ⟨x, (mem x).mpr ⟨hreads, htop⟩, rfl, rfl⟩
  · refine (Session.apart_entries indexed).imp_of_mem fun {x y} hx _ hle => ?_
    have := (bounds_of_reads ((mem x).mp hx).1).1
    omega
  · intro x hx
    obtain ⟨hreads, htop⟩ := (mem x).mp hx
    exact ⟨fun i => topLevel_match (match_iff_reads.mpr ⟨x, hreads, rfl, rfl⟩) htop,
      fun c => not_isBlank_of_mem_path hreads⟩
  · intro a b
    exact Session.region_spec indexed

-- An import in a comment and one in a body are left out.
example : (Session.new (.ofString "//import a;\n import static b . c\t.*;import d; class E \x7bimport f;\x7d")
    .java {} []).imports.1 =
    ⟨some (12, 65), [⟨13, 36, "b.c.*", true⟩, ⟨36, 45, "d", false⟩]⟩ := by
  decide +kernel

end BraceScopes
