import BraceScopes.Proofs.ArgList.Entries
import BraceScopes.Proofs.Header.Phrases
import BraceScopes.Proofs.Scan.Normalized
/-!
Lists in headers: what is read of the parameters of a method, and of the types of a clause.
-/
namespace BraceScopes

open Header

namespace ArgList

/-- The piece belongs to the text of a type wherever it stands in it. -/
def Kept (ix : Lexed) (u : Piece) : Prop := ∀ before, isStruck ix before u = false

variable {ix : Lexed} {us fs : List Piece}

theorem remaining_kept (h : ∀ u ∈ us, Kept ix u) (before : Option Piece) :
    remaining ix before us = us.map some := by
  induction us generalizing before with
  | nil => rfl
  | cons u us ih =>
    obtain ⟨hu, hus⟩ := List.forall_mem_cons.mp h
    rw [remaining_cons, hu before, ih hus]
    rfl

/-- The word `final` before a type does not belong to its text. -/
theorem typeText_kept (hne : us ≠ []) (h : ∀ u ∈ us, Kept ix u)
    (hfs : ∀ u ∈ fs, ix.isWord u "final" = true) :
    (∃ u, some u ∈ remaining ix none (fs ++ us)) ∧
      typeText ix (fs ++ us) = String.ofList (runText ix us) := by
  have hstruck : ∀ before, stretches (remaining ix before (fs ++ us)) = stretches (us.map some) := by
    induction fs with
    | nil => exact fun before => by rw [List.nil_append, remaining_kept h]
    | cons f fs ih =>
      obtain ⟨hf, hfs⟩ := List.forall_mem_cons.mp hfs
      intro before
      have hstruck : isStruck ix before f = true := by rw [isStruck, hf]; rfl
      rw [List.cons_append, remaining_cons, hstruck, ← ih hfs (some f)]
      exact stretches_none
  have hall := remaining_kept h none
  rw [← stretches_ne_nil, ← typeText_of_remaining hne hall, typeText, typeText, hstruck, hall]
  refine ⟨?_, rfl⟩
  obtain ⟨u, us, rfl⟩ := List.exists_cons_of_ne_nil hne
  exact stretches_ne_nil.mpr ⟨u, List.mem_cons_self ..⟩

end ArgList

open ArgList

namespace Header

variable {r : List String} {ts : List Token} {f : Form}

theorem Name.exists_cons (h : Name r ts) : ∃ k us, ts = k :: us ∧ k.isWord = true := by
  cases h with
  | word word => exact ⟨_, _, rfl, word.isWord _⟩
  | dot word rest => exact ⟨_, _, rfl, word.isWord _⟩

/-- A type begins with a word. -/
theorem Phrase.exists_cons (h : Phrase r f ts) (hf : f = .simple ∨ f = .type) :
    ∃ k us, ts = k :: us ∧ k.isWord = true := by
  induction h with
  | name name => exact name.exists_cons
  | generic name =>
    obtain ⟨k, us, rfl, hword⟩ := name.exists_cons
    exact ⟨k, _, rfl, hword⟩
  | simple type ih => exact ih (.inl rfl)
  | array type ih | variadic type ih =>
    obtain ⟨k, us, rfl, hword⟩ := ih (.inr rfl)
    exact ⟨k, _, rfl, hword⟩
  | bound | both | type | wildcard | bounded | one | comma => simp at hf

/-- A parameter begins with a word. -/
theorem Parameter.exists_cons {ty : List Token} (h : Parameter ts ty) :
    ∃ k us, ts = k :: us ∧ k.isWord = true := by
  obtain ⟨rfl | ⟨g, rfl⟩, type, -, -⟩ := h
  · obtain ⟨k, us, rfl, hword⟩ := type.exists_cons (.inr rfl)
    exact ⟨k, _, rfl, hword⟩
  · exact ⟨_, _, rfl, rfl⟩

theorem Listed.exists_cons {α : Type} {item : List Token → α → Prop} {as : List α}
    (each : ∀ ts a, item ts a → ∃ k us, ts = k :: us ∧ k.isWord = true) (h : Listed item ts as) :
    ∃ k us, ts = k :: us ∧ k.isWord = true := by
  cases h with
  | one first => exact each _ _ first
  | comma first rest =>
    obtain ⟨k, us, rfl, hword⟩ := each _ _ first
    exact ⟨k, _, rfl, hword⟩

end Header

namespace Lexed

variable {ix : Lexed} {m : Mode} {bound p q e o k : Nat} {c : Char} {cs : List Char} {r extra : List String}
  {marks : List Char} {ts ty : List Token} {j : Token} {us : List Piece} {u : Piece}

theorem CodeChars.isBlank_of_trivia (h : ix.CodeChars p q cs) (htrivia : ix.Trivia p q) :
    ∀ c ∈ cs, isBlank c = true := by
  induction h with
  | nil => simp
  | @cons p q c cs char rest ih =>
    have := ix.text.lt_next p
    have := rest.le
    cases htrivia with
    | nil => omega
    | blank char' blank rest =>
      obtain rfl := char.unique char'
      exact List.forall_mem_cons.mpr ⟨blank, ih rest⟩
    | comment region kind rest =>
      have hcode := char.code
      simp [region.region] at hcode

theorem Entries.trivia {uss : List (List Piece)} (htrivia : ix.Trivia e p) (h : ix.Entries p q uss) :
    ix.Entries e q uss := by
  cases h with
  | one units => exact .one (units.trivia htrivia)
  | comma units comma rest => exact .comma (units.trivia htrivia) comma rest

/-- White space after tokens ends every identifier. -/
theorem Laid.stops (hix : ix.IsJava) (hl : ix.Laid p q (ts ++ [j])) (hgap : j.gap ≠ []) :
    ix.Stops m bound q := by
  obtain ⟨a, c, hc, rfl, hmem⟩ := hl.last
  have hblank : c ∈ j.gap := hmem.resolve_right fun h => hgap h.1
  exact stops_next hc (hix.not_ident_of_isBlank (hl.spaced.blank j (by simp) c hblank))

namespace IsJava

variable (hix : ix.IsJava)

include hix

/-- No identifier among some pieces is part of a longer one. -/
theorem whole_of_units (h : ix.Units p q us) (hedge : ix.Edge bound p) :
    ∀ u ∈ us, u.kind = .ident → ix.Stops .angle bound u.start ∧
      (u.stop = q ∨ ∀ c, ix.CodeChar u.stop c → ix.isIdentChar .angle c = false) := by
  induction h with
  | nil => simp
  | @ident p s e q us trivia word nonempty whole rest ih =>
    refine List.forall_mem_cons.mpr ⟨fun _ => ⟨hix.stops_of_edge hedge trivia word nonempty, whole⟩, ?_⟩
    rcases whole with rfl | whole
    · intro u hu
      have := (hix.units_ordered rest).2 u hu
      omega
    · exact ih (.inr whole)
  | group trivia group kind rest ih =>
    exact List.forall_mem_cons.mpr ⟨by simp, ih (hix.edge_of_group group)⟩

/-- Only trivia stands before the first of some pieces and after the last. -/
theorem trivia_spanOf (h : ix.Units p q us) (hne : us ≠ []) :
    ix.Trivia p (spanOf us).start ∧ ix.Trivia (spanOf us).stop q ∧ ix.CodeGap (spanOf us).stop := by
  induction h with
  | nil => exact absurd rfl hne
  | @ident p s e q us trivia word nonempty whole rest ih =>
    refine ⟨trivia, ?_⟩
    cases us with
    | nil =>
      cases rest with
      | nil trivia' =>
        obtain ⟨c, hc, -⟩ := word.first nonempty
        exact ⟨trivia', hix.codeGap_word word (hix.codeGap_of_code hc)⟩
    | cons u us => exact (ih (List.cons_ne_nil _ _)).2
  | @group p o k q a us trivia group kind rest ih =>
    refine ⟨trivia, ?_⟩
    cases us with
    | nil =>
      cases rest with
      | nil trivia' =>
        obtain ⟨c, hc, pair⟩ := group.closer
        have hgap := hix.codeGap_next hc
        rw [hc.next_closer pair] at hgap
        exact ⟨trivia', hgap⟩
    | cons u us => exact (ih (List.cons_ne_nil _ _)).2

/-- A word with the trivia after it. -/
theorem units_word (hl : ix.Spread p q [j]) (hj : j.isWord = true) (hne : j.text ≠ []) :
    ∃ e, ix.CodeChars p e j.text ∧ ix.Units p q [⟨.ident, p, e⟩] := by
  obtain ⟨e, htext, htrivia, -⟩ := hl.single
  have hlt := htext.lt hne
  have hword : ix.Word .angle p e :=
    htext.word fun c hc => hix.isIdentChar_of_name (List.all_eq_true.mp hj c hc)
  refine ⟨e, htext, .ident (.nil p) hword hlt ?_ (.nil htrivia)⟩
  exact (Nat.lt_or_eq_of_le (htrivia.le hix)).elim (fun hne => .inr (hix.not_ident_of_trivia htrivia hne)) .inl

/-- None of the pieces of some tokens is a modifier or an annotation. -/
theorem kept_of_units (hl : ix.Spread p q ts) (apart : Apart ts) (valid : ∀ k ∈ ts, k.Valid markChars)
    (hw : Wording r extra marks ts) (hmarks : '@' ∉ marks) (hr : "final" ∈ r) (hextra : "final" ∉ extra)
    (h : ix.Units p q us) (hkinds : ∀ u ∈ us, u.IsLeading) : ∀ u ∈ us, Kept ix u := by
  intro u hu before
  obtain ⟨hpu, hlt, hle, c, hc, solid⟩ := (hix.units_ordered h).2 u hu
  have hat : annotates ix u = false := by
    refine Bool.eq_false_iff.mpr fun hat => ?_
    simp only [annotates, Bool.and_eq_true, beq_iff_eq, hc.char, Option.some.injEq] at hat
    obtain rfl := hat.2
    exact hl.not_oneOf hix hw (by simpa using ⟨by decide, by decide, hmarks⟩) hc hpu (by omega)
      (List.mem_singleton_self '@')
  have hfinal : ix.isWord u "final" = false := by
    refine Bool.eq_false_iff.mpr fun hfinal => ?_
    simp only [Lexed.isWord, Bool.and_eq_true, beq_iff_eq] at hfinal
    obtain ⟨hkind, hslice⟩ := hfinal
    obtain ⟨hstops, hwhole⟩ := hix.whole_of_units h (.inl (.inl rfl)) u hu hkind
    obtain ⟨cs, hchars⟩ := ((h.word u hu hkind).1).codeChars
    rw [hchars.slice (hix.codeGap_of_code hc)] at hslice
    subst hslice
    have hword : ix.WordWithin p q u.start u.stop "final".toList := by
      refine ⟨hchars, by decide, by decide, fun a d hd hnext hpa => ?_, fun d hd hlt => ?_, hle⟩
      · have := ix.text.lt_next a
        exact hix.not_isNameChar_of_ident (hstops.resolve_left (by omega) a d hnext hd)
      · exact hix.not_isNameChar_of_ident (hwhole.resolve_left (by omega) d hd)
    obtain ⟨j, hj, hisWord, htext⟩ := hl.exists_token hix apart valid hword (Nat.le_refl p) hpu (by omega)
      (Nat.le_refl q) (.inl rfl)
    rcases hw.words j hj hisWord with hnot | hin
    · exact hnot (by rwa [htext])
    · exact hextra (by rwa [htext] at hin)
  have hparens : (u.kind == .group '(') = false := by
    rcases hkinds u hu with hkind | hkind | hkind <;> simp [hkind]
  rw [isStruck, hat, hfinal, hparens]
  rfl

theorem units_ne_nil (h : ix.Units p q us) (hc : ix.CodeChar p c) (solid : isBlank c = false)
    (hlt : p < q) : us ≠ [] := by
  rintro rfl
  cases h with
  | nil trivia =>
    have := hix.le_of_trivia trivia hc solid (Nat.le_refl p)
    omega

/-- The text of the pieces of some tokens. -/
theorem runText_units (hl : ix.Laid p q ts) (h : ix.Units p q us) (hts : ts ≠ []) :
    us ≠ [] ∧ runText ix us = squeeze (spell ts) := by
  obtain ⟨c, hc, solid, hlt⟩ := hl.first hts
  have hne := hix.units_ne_nil h hc solid hlt
  refine ⟨hne, ?_⟩
  obtain ⟨hstart, hstop, hgap⟩ := hix.trivia_spanOf h hne
  have hfirst : (spanOf us).start = p :=
    Nat.le_antisymm (hix.le_of_trivia hstart hc solid (Nat.le_refl p)) (hstart.le hix)
  have hle : p ≤ (spanOf us).stop := by
    refine Nat.le_of_not_lt fun hlt => ?_
    have := hix.le_of_trivia hstop hc solid (Nat.le_of_lt hlt)
    omega
  obtain ⟨ds, es, hspell, hds, hes⟩ := hl.chars.cut hgap.boundary hle (hstop.le hix)
  rw [runText, hfirst, hix.plain_codeChars hds, hspell, squeeze_append (hes.isBlank_of_trivia hstop)]

/-- The pieces of a type, and its text. -/
theorem units_type (hl : ix.Laid p q ts) (hne : ts ≠ []) (hlane : ix.Lane p q)
    (hw : Wording r extra marks ts) (hmarks : '@' ∉ marks) (hr : "final" ∈ r) (hextra : "final" ∉ extra) :
    ∃ us, ix.Units p q us ∧ us ≠ [] ∧ (∀ u ∈ us, Kept ix u) ∧
      runText ix us = squeeze (spell ts) := by
  obtain ⟨us, hus, hkinds⟩ := hix.units_of_lane hlane
  obtain ⟨hnonempty, htext⟩ := hix.runText_units hl hus hne
  exact ⟨us, hus, hnonempty,
    hix.kept_of_units hl.spread hl.spaced.apart hl.valid hw hmarks hr hextra hus hkinds, htext⟩

omit hix in
/-- Items with commas between them are read one by one. -/
theorem entries_listed {α : Type} {item : List Token → α → Prop} {as : List α}
    {R : List Piece → α → Prop}
    (each : ∀ p q ts a, item ts a → ix.Laid p q ts → ∃ us, ix.Units p q us ∧ R us a)
    (h : Listed item ts as) (hl : ix.Laid p q ts) :
    ∃ uss, ix.Entries p q uss ∧ List.Forall₂ R uss as := by
  induction h generalizing p with
  | one first =>
    obtain ⟨us, hus, hr⟩ := each p q _ _ first hl
    exact ⟨[us], .one hus, .cons hr .nil⟩
  | comma first rest ih =>
    obtain ⟨k, hfirst, hl⟩ := hl.of_append
    obtain ⟨us, hus, hr⟩ := each p k _ _ first hfirst
    obtain ⟨e, n, hcomma, -, htrivia, hl⟩ := hl.of_cons
    obtain ⟨hchar, rfl⟩ := CodeChars.single (c := ',') hcomma
    obtain ⟨uss, huss, hrs⟩ := ih hl
    rw [next_comma hchar] at htrivia
    exact ⟨us :: uss, .comma hus hchar (huss.trivia htrivia), .cons hr hrs⟩

/-- The texts of the items of a list. -/
theorem parse_listed {α : Type} {item : List Token → α → Prop} {as : List α} {typesOnly : Bool}
    {text : α → String} {start : Nat}
    (begins : ∀ ts a, item ts a → ∃ k us, ts = k :: us ∧ k.isWord = true)
    (each : ∀ p q ts a, item ts a → ix.Laid p q ts →
      ∃ us, ix.Units p q us ∧ ∃ arg, Entry ix typesOnly us arg ∧ arg.ty = text a)
    (h : Listed item ts as) (hl : ix.Laid o k ts) (hstart : ix.CodeGap start)
    (htrivia : ix.Trivia start o) :
    ∃ args, parse ix typesOnly start k = .ok args ∧ args.map (·.ty) = as.map text := by
  obtain ⟨uss, huss, hentries⟩ := entries_listed each h hl
  obtain ⟨args, hargs, htexts⟩ : ∃ args, List.Forall₂ (Entry ix typesOnly) uss args ∧
      args.map (·.ty) = as.map text := by
    clear huss h
    induction hentries with
    | nil => exact ⟨[], .nil, rfl⟩
    | cons first rest ih =>
      obtain ⟨arg, harg, htext⟩ := first
      obtain ⟨args, hargs, htexts⟩ := ih
      exact ⟨arg :: args, .cons harg hargs, by rw [List.map_cons, List.map_cons, htext, htexts]⟩
  obtain ⟨c, hc, solid, hlt⟩ := hl.first (by
    obtain ⟨k, us, rfl, -⟩ := h.exists_cons begins
    exact List.cons_ne_nil k us)
  have hso := htrivia.le hix
  have hgap := hix.codeGap_laid hl (hix.codeGap_of_code hc)
  have more : ¬ ix.Trivia start k := fun htrivia => by
    have := hix.le_of_trivia htrivia hc solid hso
    omega
  exact ⟨args, (parse_eq_ok hix hstart hgap (by omega) more).mpr ⟨uss, huss.trivia htrivia, hargs⟩, htexts⟩

/-- What is read of a name. -/
theorem units_name (h : Name r ts) (hr : "final" ∈ r) (hl : ix.Laid p q ts) :
    ∃ us, ix.Units p q us ∧
      ∃ arg, Entry ix true us arg ∧ arg.ty = String.ofList (squeeze (spell ts)) := by
  obtain ⟨j, us, rfl, hj⟩ := h.exists_cons
  obtain ⟨us', hus', hne, hkept, htext⟩ := hix.units_type hl (by simp) (hix.lane_name h hl.spread) h.wording
    (by decide) hr (by decide)
  obtain ⟨hleft, htype⟩ := typeText_kept hne hkept (List.forall_mem_nil _)
  exact ⟨us', hus', _, .ofType hleft, by rw [← htext, ← htype]; rfl⟩

/-- The piece of a modifier, if there is one. -/
theorem units_final {fs : List Token} (final : fs = [] ∨ ∃ g, fs = [token "final" g])
    (hl : ix.Spread p q fs) : ∃ us, ix.Units p q us ∧ ∀ u ∈ us, ix.isWord u "final" = true := by
  rcases final with rfl | ⟨g, rfl⟩
  · rw [← hl.nil_iff]
    exact ⟨[], .nil (.nil p), by simp⟩
  · obtain ⟨e, htext, hunits⟩ := hix.units_word hl rfl (by simp [token])
    refine ⟨_, hunits, ?_⟩
    obtain ⟨c, -, hc⟩ := htext.first (by simp [token])
    simp [Lexed.isWord, htext.slice (hix.codeGap_of_code hc), token]

/-- The pieces of a modifier, a type and a name, where the type does not run into the name, and what is
read of them. -/
theorem units_typed {fs : List Token} {w g : List Char} (final : fs = [] ∨ ∃ g, fs = [token "final" g])
    (type : Phrase r .type ty) (hr : "final" ∈ r) (name : IsWord r w) (hfs : ix.Spread p o fs)
    (hty : ix.Spread o k ty) (hname : ix.Spread k q [⟨w, g⟩]) (apart : Apart (fs ++ ty))
    (hedge : ix.Edge p k) : ∃ us vs, ix.Units o k us ∧ us ≠ [] ∧ ix.Units p q vs ∧
      Entry ix false vs ⟨String.ofList (runText ix us),
        some (String.ofList w)⟩ := by
  have hvalid := type.wording.valid_marks (by decide)
  obtain ⟨j, js, rfl, hj⟩ := type.exists_cons (.inr rfl)
  obtain ⟨us, hus, hkinds⟩ := hix.units_of_lane ((hix.phrase type o k hty).2 (.inr rfl))
  obtain ⟨c, hc, solid, hlt⟩ := hty.first hix (List.cons_ne_nil j js) hvalid
  have hne := hix.units_ne_nil hus hc solid hlt
  have hkept := hix.kept_of_units hty apart.of_append.2 hvalid type.wording (by decide) hr (by decide) hus
    hkinds
  -- White space or a comment stands between the modifier and the type.
  have ho : ix.Edge p o := by
    rcases final with rfl | ⟨g', rfl⟩
    · rw [← hfs.nil_iff]
      exact .inl (.inl rfl)
    · have happart : g' ≠ [] := (List.isChain_cons_cons.mp apart).1 rfl hj
      obtain ⟨e, -, htrivia, hgap⟩ := hfs.single
      exact .inl (hix.stops_of_trivia htrivia
        (Nat.lt_of_le_of_ne (htrivia.le hix) fun heq => happart (hgap.mp heq)))
  obtain ⟨fs', hfs', hstruck⟩ := hix.units_final final hfs
  obtain ⟨e, hword, hunits⟩ := hix.units_word hname (name.isWord g) name.nonempty
  obtain ⟨d, -, hd⟩ := hword.first name.nonempty
  obtain ⟨hleft, htype⟩ := typeText_kept hne hkept hstruck
  have hsimple := hix.simple_of_word
    (hword.word fun c hc => hix.isIdentChar_of_name (name.chars c hc))
  refine ⟨us, _, hus, hne, hix.units_append (hix.units_append hfs' hus ho) hunits hedge, ?_⟩
  have hentry : Entry ix false (fs' ++ us ++ [⟨.ident, k, e⟩])
      ⟨typeText ix (fs' ++ us) ++ String.join [], some (ix.text.word k e)⟩ :=
    .named hleft rfl hsimple (List.forall_mem_nil _)
  simpa [htype, Text.word, hword.slice (hix.codeGap_of_code hd)] using hentry

/-- What is read of a parameter is its type. -/
theorem units_parameter (h : Parameter ts ty) (hl : ix.Laid p q ts) :
    ∃ us, ix.Units p q us ∧
      ∃ arg, Entry ix false us arg ∧ arg.ty = String.ofList (squeeze (spell ty)) := by
  obtain @⟨fs, ty, w, g, hfinal, type, apart, word⟩ := h
  obtain ⟨x, hl', hname⟩ := hl.of_append
  obtain ⟨o, hfs, hty⟩ := hl'.of_append
  obtain ⟨j, js, rfl, -⟩ := type.exists_cons (.inr rfl)
  have hedge : ix.Edge p x := by
    obtain ⟨before, last, hlast⟩ := List.eq_nil_or_concat (j :: js) |>.resolve_left (by simp)
    rw [List.concat_eq_append] at hlast
    rw [hlast] at hty apart
    exact .inl (hty.stops hix (apart last (by simp)))
  obtain ⟨us, vs, hus, -, hvs, hentry⟩ := hix.units_typed hfinal type (by decide) word hfs.spread hty.spread
    hname.spread hl'.spaced.apart hedge
  obtain ⟨-, htext⟩ := hix.runText_units hty hus (List.cons_ne_nil j js)
  exact ⟨vs, hvs, _, hentry, by rw [htext]⟩

end IsJava

end Lexed

end BraceScopes
