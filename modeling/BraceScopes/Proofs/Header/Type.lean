import BraceScopes.Proofs.Header.Clauses
import BraceScopes.Proofs.Header.Place
/-!
Every type header is recognized. Its keyword is the last one before the brace, and what stands between
the keyword and the clauses is one type, whose bare name is the name that is declared.
-/
namespace BraceScopes

open BraceScopes.Lex Header ArgList

namespace Header

variable {P : Token → Prop} {r : List String} {ts us ps : List Token} {j : Token} {w g : List Char}
  {types : List (List Token)} {kind : ScopeKind}

/-- The last of some tokens, if there is one. -/
def LastIs (P : Token → Prop) (ts : List Token) : Prop := ∀ j ∈ ts.getLast?, P j

namespace LastIs

theorem nil : LastIs P [] := by simp [LastIs]

theorem concat (ts : List Token) (h : P j) : LastIs P (ts ++ [j]) := by simpa [LastIs] using h

theorem append (h : LastIs P ts) (h' : LastIs P us) : LastIs P (ts ++ us) := by
  intro j hj
  rw [List.getLast?_append, Option.mem_def, Option.or_eq_some_iff] at hj
  rcases hj with hj | ⟨-, hj⟩
  · exact h' j hj
  · exact h j hj

theorem append_right (h : LastIs P us) (hne : us ≠ []) : LastIs P (ts ++ us) := by
  obtain ⟨us, j, rfl⟩ := (List.eq_nil_or_concat us).resolve_left hne
  rw [List.concat_eq_append] at h ⊢
  rw [← List.append_assoc]
  exact .concat _ (h j (by simp))

end LastIs

theorem Modifiers.lastIs (h : Modifiers r ts) : LastIs (·.isWord = true) ts := by
  induction h with
  | nil => exact .nil
  | @word w g ts word rest ih => exact (LastIs.concat [] (word.isWord g)).append ih
  | annotated name rest ih =>
    obtain ⟨us, w, g, rfl, word⟩ := name.exists_concat
    exact (LastIs.concat (_ :: us) (word.isWord g)).append ih

/-- A word, or the end of type arguments. -/
def IsEnd (k : Token) : Prop := k.isWord = true ∨ k.text = ['>']

theorem Phrase.lastIs (h : Phrase r .simple ts) : LastIs IsEnd ts := by
  cases h with
  | name name =>
    obtain ⟨us, w, g, rfl, word⟩ := name.exists_concat
    exact .concat us (.inl (word.isWord g))
  | generic name arguments => exact .concat _ (.inr rfl)

theorem Listed.lastIs (h : Listed (fun ts type => Phrase r .simple ts ∧ type = ts) ts types) :
    LastIs IsEnd ts := by
  induction h with
  | one first => exact first.1.lastIs
  | comma first rest ih =>
    rw [List.append_cons]
    refine ih.append_right ?_
    obtain ⟨k, us, rfl, -⟩ := rest.exists_cons fun ts type h => h.1.exists_cons (.inl rfl)
    exact List.cons_ne_nil k us

theorem TypeParameters.lastIs (h : TypeParameters r ts) : LastIs IsEnd ts := by
  cases h with
  | nil => exact .nil
  | some arguments => exact .concat _ (.inr rfl)

theorem Clauses.lastIs (h : Clauses ts) : LastIs IsEnd ts := by
  induction h with
  | nil => exact .nil
  | clause before keyword types ih =>
    rw [List.append_cons]
    refine (LastIs.concat _ ?_).append types.lastIs
    rcases keyword with rfl | rfl | rfl <;> exact .inl rfl

/-- What is declared is a name, with or without type parameters. -/
theorem bareName_squeeze {r' : List String} (hw : IsWord r' w) (hg : ∀ c ∈ g, isBlank c = true) (hps : TypeParameters r ps) :
    Detect.bareName (String.ofList (squeeze (w ++ (g ++ spell ps)))) = String.ofList w := by
  have solid : ∀ c ∈ w, isBlank c = false := fun c hc => not_isBlank_of_isNameChar (hw.chars c hc)
  have plain : ∀ c ∈ w, (c != '<') = true := fun c hc => by
    refine bne_iff_ne.mpr ?_
    rintro rfl
    exact absurd (hw.chars _ hc) (by decide)
  -- The name may have a space behind it when what follows is cut off.
  have drop : ∀ bs : List Char, (∀ b ∈ bs, isBlank b = true) → dropBlanksEnd (w ++ bs) = w := by
    intro bs hbs
    have hlast : w.reverse.dropWhile isBlank = w.reverse := by
      obtain ⟨c, w', hw'⟩ := List.exists_cons_of_ne_nil (List.reverse_ne_nil_iff.mpr hw.nonempty)
      have hc : isBlank c = false := solid c (List.mem_reverse.mp (hw' ▸ List.mem_cons_self ..))
      rw [hw', List.dropWhile_cons_of_neg (by simp [hc])]
    rw [dropBlanksEnd, List.reverse_append, List.dropWhile_append_of_pos (by simpa using hbs), hlast,
      List.reverse_reverse]
  rw [Detect.bareName, String.toList_ofList]
  cases hps with
  | nil =>
    have htake : (w ++ []).takeWhile (· != '<') = w ++ [].takeWhile (· != '<') :=
      List.takeWhile_append_of_pos plain
    rw [show spell [] = [] from rfl, List.append_nil, squeeze_append hg, squeeze_solid hw.nonempty solid,
      ← List.append_nil w, htake, List.takeWhile_nil, drop [] (by simp), List.append_nil]
  | @some ts g' g'' arguments =>
    obtain ⟨bs, rest, hsqueeze, hbs⟩ := squeeze_word (g' ++ spell (ts ++ [token ">" g'']))
      hw.nonempty solid hg (show isBlank '<' = false from rfl)
    have hspell : spell (token "<" g' :: ts ++ [token ">" g'']) =
        '<' :: (g' ++ spell (ts ++ [token ">" g''])) := spell_cons _ _
    have blank : ∀ b ∈ bs, (b != '<') = true := fun b hb => by
      refine bne_iff_ne.mpr ?_
      rintro rfl
      exact absurd (hbs _ hb) (by decide)
    rw [hspell, hsqueeze, ← List.append_assoc, List.takeWhile_append_of_pos
      (List.forall_mem_append.mpr ⟨plain, blank⟩), List.takeWhile_cons_of_neg (by decide), List.append_nil,
      drop bs hbs]

/-- The parts of a type header: what stands before its keyword, the name, the type parameters and the
clauses. -/
structure TypeParts (front : List Token) (s : String) (kind : ScopeKind) (name : Token)
    (ps cs : List Token) : Prop where
  keyword : (s, kind) ∈ [("class", .classBody), ("interface", .interfaceBody), ("enum", .enumBody)]
  before : Wording typeWords [] ['.', '@'] front
  ends : LastIs ('.' ∉ ·.text) front
  name : IsWord ("final" :: typeWords) name.text
  generics : TypeParameters typeWords ps
  clauses : Clauses cs

theorem TypeHeader.parts (h : TypeHeader ts kind w) : ∃ front s g name ps cs,
    ts = front ++ token s g :: name :: (ps ++ cs) ∧ name.text = w ∧ TypeParts front s kind name ps cs := by
  obtain @⟨ms, ks, ps, cs, kind, w, g, modifiers, keyword, name, generics, clauses⟩ := h
  have hends : LastIs ('.' ∉ ·.text) ms := fun j hj hdot =>
    absurd (List.all_eq_true.mp (modifiers.lastIs j hj) '.' hdot) (by decide)
  cases keyword with
  | @word s kind g' word =>
    exact ⟨ms, s, g', ⟨w, g⟩, ps, cs, by simp, rfl, word, modifiers.wording, hends, name, generics, clauses⟩
  | annotated g' g'' =>
    refine ⟨ms ++ [token "@" g'], "interface", g'', ⟨w, g⟩, ps, cs, by simp, rfl, by decide,
      modifiers.wording.append (.mark (by decide) (by decide) g'), .concat ms ?_, name, generics, clauses⟩
    simp [token]

theorem TypeParts.keyword_cases {front cs : List Token} {s : String} {name : Token}
    (h : TypeParts front s kind name ps cs) :
    s.toList ∈ ["class".toList, "interface".toList, "enum".toList] ∧ (∀ c ∈ s.toList, isNameChar c = true) ∧
      Detect.kindOfKeyword s = kind := by
  have hkeyword := h.keyword
  simp only [List.mem_cons, Prod.mk.injEq, List.not_mem_nil, or_false] at hkeyword
  rcases hkeyword with ⟨rfl, rfl⟩ | ⟨rfl, rfl⟩ | ⟨rfl, rfl⟩ <;> decide

theorem TypeParts.wording {front cs : List Token} {s : String} {name : Token}
    (h : TypeParts front s kind name ps cs) :
    Wording typeWords ["extends", "super", "implements", "permits"] typeMarks (name :: (ps ++ cs)) := by
  have hname : IsWord typeWords name.text :=
    ⟨h.name.nonempty, h.name.chars, fun hmem => h.name.free (List.mem_cons_of_mem _ hmem)⟩
  exact .cons (.word hname name.gap)
    ((h.generics.wording.mono (by simp) (List.Subset.refl _)).append h.clauses.wording)

theorem TypeParts.wording_header {front cs : List Token} {s : String} {name : Token}
    (h : TypeParts front s kind name ps cs) (g : List Char) :
    Wording typeWords ("super" :: typeWords) ('@' :: typeMarks)
      (front ++ token s g :: name :: (ps ++ cs)) := by
  refine (h.before.mono (by simp) (by decide)).append (.cons ?_ (h.wording.mono (by decide) (by decide)))
  have hkeyword := h.keyword
  simp only [List.mem_cons, Prod.mk.injEq, List.not_mem_nil, or_false] at hkeyword
  rcases hkeyword with ⟨rfl, -⟩ | ⟨rfl, -⟩ | ⟨rfl, -⟩ <;>
    exact .keyword (by decide) (by decide) (by decide) g

end Header

namespace Lexed

variable {ix : Lexed} {h b x y n : Nat} {front ps cs : List Token} {s : String} {g : List Char}
  {kind : ScopeKind} {name : Token}

/-- A type header in code. Its keyword stands from `x` to `y`, and its name begins at `n`. -/
structure TypeAt (ix : Lexed) (h x y n b : Nat) (front ps cs : List Token) (s : String)
    (kind : ScopeKind) (name : Token) : Prop where
  start : ix.MemberStart h
  parts : TypeParts front s kind name ps cs
  whole : ∃ g, ix.Laid h b (front ++ token s g :: name :: (ps ++ cs))
  before : ix.Laid h x front
  keyword : ix.CodeChars x y s.toList
  trivia : ix.Trivia y n
  apart : y < n
  after : ix.Laid n b (name :: (ps ++ cs))
  breaks : ix.Breaks x
  found : ix.CodeMatch .typeKeyword b ⟨x, y⟩

theorem IsJava.typeAt_of_laid (hix : ix.IsJava) (hp : TypeParts front s kind name ps cs)
    (hl : ix.Laid h b (front ++ token s g :: name :: (ps ++ cs))) (hstart : ix.MemberStart h) :
    ∃ x y n, ix.TypeAt h x y n b front ps cs s kind name := by
  obtain ⟨c, hc, solid, -⟩ := hl.first (by simp)
  obtain ⟨hs, hword, -⟩ := hp.keyword_cases
  have hgap : g ≠ [] := (List.isChain_cons_cons.mp hl.spaced.of_append.2.apart).1
    (List.all_eq_true.mpr hword) (hp.name.isWord name.gap)
  obtain ⟨x, y, n, hfront, htext, hblank, htrivia, hafter, hbreaks, hmatch⟩ :=
    hix.match_of_laid Pattern.solid_typeKeyword (by decide) hl hs (hstart.breaks hix hc solid)
  exact ⟨x, y, n, hstart, hp, ⟨g, hl⟩, hfront, htext, htrivia, hblank.lt hgap, hafter, hbreaks, hmatch⟩

namespace TypeAt

variable (hix : ix.IsJava) (ht : ix.TypeAt h x y n b front ps cs s kind name)

include hix ht

theorem codeGap : ix.CodeGap h ∧ ix.CodeGap b := by
  obtain ⟨g, hl⟩ := ht.whole
  obtain ⟨c, hc, -⟩ := hl.first (by simp)
  exact ⟨hix.codeGap_of_code hc, hix.codeGap_laid hl (hix.codeGap_of_code hc)⟩

omit hix in
/-- The header ends with a word or with type arguments. -/
theorem last : ∃ a c, ix.CodeChar a c ∧ ix.Trivia (ix.text.next a) b ∧ (isNameChar c = true ∨ c = '>') := by
  have hends : LastIs IsEnd (name :: (ps ++ cs)) :=
    (LastIs.concat [] (.inl (ht.parts.name.isWord name.gap))).append
      (ht.parts.generics.lastIs.append ht.parts.clauses.lastIs)
  obtain ⟨us, j, hlast⟩ := (List.eq_nil_or_concat (name :: (ps ++ cs))).resolve_left (by simp)
  rw [List.concat_eq_append] at hlast
  have hafter := ht.after
  rw [hlast] at hafter hends
  obtain ⟨m, -, hj⟩ := hafter.of_append
  obtain ⟨e, q, htext, -, htrivia, hnil⟩ := hj.of_cons
  obtain rfl := hnil.nil_iff
  obtain ⟨a, c, hmem, hc, rfl⟩ := htext.last (hj.valid j (List.mem_cons_self ..)).nonempty
  refine ⟨a, c, hc, htrivia, ?_⟩
  rcases hends j (by simp) with hword | hclose
  · exact .inl (List.all_eq_true.mp hword c hmem)
  · rw [hclose] at hmem
    exact .inr (List.mem_singleton.mp hmem)

theorem array_eq_none : Detect.array {} ix b = none := by
  obtain ⟨a, c, hc, htrivia, hlast⟩ := ht.last
  have solid : isBlank c = false := by
    rcases hlast with hname | rfl
    · exact not_isBlank_of_isNameChar hname
    · rfl
  refine hix.array_eq_none (ht.codeGap hix).2 hc solid htrivia fun hin => ?_
  have hall : ∀ c ∈ ({} : ScopeConfig).arrayPredecessors, isNameChar c = false ∧ c ≠ '>' := by decide
  rcases hlast with hname | rfl
  · simp [(hall c hin).1] at hname
  · exact (hall '>' hin).2 rfl

theorem anonClass_eq_none : Detect.anonClass {} ix b = none := by
  obtain ⟨a, c, hc, htrivia, hlast⟩ := ht.last
  refine Option.eq_none_iff_forall_ne_some.mpr fun d hd => ?_
  obtain ⟨args, ty, new, hargs, hkind, -⟩ := Detect.anonClass_eq_some.mp hd
  have hcloser : isBlank c = false ∧ Mode.normal.isCloser c = false := by
    rcases hlast with hname | rfl
    · exact ⟨not_isBlank_of_isNameChar hname, hix.not_isCloser_of_ident (hix.isIdentChar_of_name hname)⟩
    · exact ⟨rfl, rfl⟩
  rw [hix.pieceBefore_code (ht.codeGap hix).2 hc hcloser.1 (Nat.zero_le a) htrivia, pieceEndingAt_code hc,
    hcloser.2] at hargs
  simp only [Bool.false_eq_true, ↓reduceIte] at hargs
  split at hargs
  next => cases hargs; simp at hkind
  next => cases hargs; simp at hkind

theorem balanced : ix.Balanced h b := by
  obtain ⟨g, hl⟩ := ht.whole
  obtain ⟨x, hfront, hl⟩ := hl.of_append
  obtain ⟨n, hkeyword, hl⟩ := hl.uncons
  obtain ⟨o, hname, hl⟩ := hl.uncons
  obtain ⟨e, hgenerics, hclauses⟩ := hl.of_append
  have hword := ht.parts.keyword_cases.2.1
  refine (hfront.balanced_wording ht.parts.before (by decide)).trans ?_
  refine (hkeyword.spread.balanced_flat
    (by simpa [token] using fun c hc => isPlain_of_isNameChar (hword c hc))).trans ?_
  refine (hname.spread.balanced_flat
    (by simpa using fun c hc => isPlain_of_isNameChar (ht.parts.name.chars c hc))).trans ?_
  exact ((hix.lane_typeParameters ht.parts.generics hgenerics).balanced hix).trans
    (hix.balanced_clauses ht.parts.clauses hclauses)

/-- The keyword is no part of a class literal. -/
theorem charBefore_keyword {a : Nat} {c : Char} (hc : ix.text.charBefore x = some (a, c)) : c ≠ '.' := by
  rcases List.eq_nil_or_concat front with rfl | ⟨us, j, rfl⟩
  · obtain rfl := ht.before.nil_iff
    obtain ⟨g, hl⟩ := ht.whole
    obtain ⟨d, hd, solid, -⟩ := hl.first (by simp)
    rcases ht.start.before hix hd solid hc with hblank | hmem
    · rintro rfl
      exact absurd hblank (by decide)
    · rintro rfl
      exact absurd hmem (by decide)
  · have hbefore := ht.before
    have hends := ht.parts.ends
    rw [List.concat_eq_append] at hbefore hends
    obtain ⟨a', c', hc', rfl, hmem⟩ := hbefore.last
    rw [hc'.charBefore] at hc
    cases hc
    rcases hmem with hgap | ⟨-, htext⟩
    · rintro rfl
      exact absurd (hbefore.spaced.blank j (by simp) _ hgap) (by decide)
    · rintro rfl
      exact hends j (by simp) htext

theorem typeKeyword : Detect.typeKeyword? ix b = some ⟨x, y⟩ := by
  obtain ⟨g, hl⟩ := ht.whole
  have hbody := hix.bodyStart_le (ht.balanced hix) (Text.isBoundary_le_size (ht.codeGap hix).2.boundary)
  -- No declaration ends inside the header.
  have hbound : ((ix.searchBack .declarationBoundary b (ix.bodyStart b) 1).map (·.stop)).getD
      (ix.bodyStart b) ≤ h := by
    cases hsearch : ix.searchBack .declarationBoundary b (ix.bodyStart b) 1 with
    | none => exact hbody
    | some m =>
      obtain ⟨-, hmatch, -⟩ := (searchBack_eq_some Pattern.solid_declarationBoundary).mp hsearch
      obtain ⟨c, hc, hcode, hlt, hstop⟩ := codeChar_of_oneOf hmatch
      have hmh : m.start < h := Nat.lt_of_not_le fun hle =>
        hl.spread.not_oneOf hix (ht.parts.wording_header g) (by decide) hcode hle hlt hc
      rw [Pattern.solid_declarationBoundary c hc] at hstop
      exact Nat.le_trans (Nat.le_of_eq hstop) hmh
  refine Detect.typeKeyword_eq_some.mpr ⟨(searchBack_eq_some Pattern.solid_typeKeyword).mpr
    ⟨Nat.le_trans hbound ht.before.le, ht.found, fun m hle hm => Nat.le_of_not_lt fun hlt => ?_⟩, ?_⟩
  · have hym := Pattern.Solid.separate Pattern.solid_typeKeyword ht.found.found hm.found hlt
    exact hix.not_match_of_laid Pattern.solid_typeKeyword (by decide) ht.after ht.trivia
      (ht.parts.wording.not_mem (by decide)) hym hm
  · cases hc : ix.text.charBefore x with
    | none => rfl
    | some found => exact beq_false_of_ne (ht.charBefore_keyword hix hc)

/-- Taking off the clauses leads to the end of the type parameters. -/
theorem headerEnd_eq : ∃ o e, ix.Laid n e (name :: ps) ∧ ix.Laid n o [name] ∧ ix.Laid o e ps ∧
    Detect.headerEnd ix y b = e := by
  obtain ⟨g, hl⟩ := ht.whole
  obtain ⟨e, hdecl, hclauses⟩ := (show ix.Laid n b ((name :: ps) ++ cs) from ht.after).of_append
  obtain ⟨o, hname, hgenerics⟩ := hdecl.uncons
  have hwhole : ix.Laid h b ((front ++ token s g :: name :: ps) ++ cs) := by simpa using hl
  obtain ⟨e', hfront, hclauses'⟩ := hwhole.of_append
  obtain rfl : e = e' := by
    have := hclauses.chars.stop_eq
    have := hclauses'.chars.stop_eq
    omega
  obtain ⟨c, hc, solid, -⟩ := hl.first (by simp)
  have hye : y ≤ e := Nat.le_trans (Nat.le_of_lt ht.apart) hdecl.le
  refine ⟨o, e, hdecl, hname, hgenerics, ?_⟩
  rw [hix.headerEnd_clauses ht.parts.clauses hfront hwhole (ht.codeGap hix).1
    (ht.start.breaks hix hc solid) hye]
  refine hix.headerEnd_generic hname ?_ ht.parts.generics hgenerics ht.trivia
  exact (show Wording _ [] [] [name] from .word ht.parts.name name.gap).not_mem (by decide)

/-- The pieces of the name and its type parameters. -/
theorem units_declared {o e : Nat} (hname : ix.Laid n o [name]) (hgenerics : ix.Laid o e ps) :
    ∃ us, ix.Units n e us ∧ ∀ u ∈ us, Kept ix u := by
  obtain ⟨e', -, hunits⟩ := hix.units_word hname.spread (ht.parts.name.isWord name.gap) ht.parts.name.nonempty
  have hkept := hix.kept_of_units hname.spread hname.spaced.apart hname.valid
    (show Wording _ [] [] [name] from .word ht.parts.name name.gap) (by simp) (by decide) (by simp) hunits
    (by simp [Piece.IsLeading])
  cases ht.parts.generics with
  | nil =>
    obtain rfl := hgenerics.nil_iff
    exact ⟨_, hunits, hkept⟩
  | some arguments =>
    obtain ⟨o', k, -, -, hgroup, -, htrivia⟩ :=
      hgenerics.group (a := '<') rfl rfl rfl fun p q hl => (hix.phrase arguments p q hl.spread).1
    have hedge : ix.Edge n o := .inr fun d hd => by
      obtain rfl := hd.unique hgroup.opener
      exact hix.not_ident_of_isGroupOpener rfl
    refine ⟨_, hix.units_append hunits (.group (.nil o) hgroup (by decide) (.nil htrivia)) hedge, ?_⟩
    refine List.forall_mem_append.mpr ⟨hkept, ?_⟩
    simp [Kept, isStruck, Lexed.isWord, annotates]

/-- Before the clauses one type is read, and its bare name is the name of the header. -/
theorem parse_declared : ∃ e arg, Detect.headerEnd ix y b = e ∧ parse ix true y e = .ok [arg] ∧
    Detect.bareName arg.ty = String.ofList name.text := by
  obtain ⟨o, e, hdecl, hname, hgenerics, hend⟩ := ht.headerEnd_eq hix
  obtain ⟨us, hus, hkept⟩ := ht.units_declared hix hname hgenerics
  obtain ⟨hnonempty, htext⟩ := hix.runText_units hdecl hus (List.cons_ne_nil name ps)
  obtain ⟨hleft, htype⟩ := typeText_kept hnonempty hkept (List.forall_mem_nil _)
  obtain ⟨c, hc, solid, hne⟩ := hdecl.first (List.cons_ne_nil name ps)
  have hyn := ht.apart
  have more : ¬ ix.Trivia y e := fun htrivia => by
    have := hix.le_of_trivia htrivia hc solid (by omega)
    omega
  have hstart := hix.codeGap_codeChars ht.keyword (hix.codeGap_laid ht.before (ht.codeGap hix).1)
  have hstop := hix.codeGap_laid hdecl (hix.codeGap_of_code hc)
  refine ⟨e, ⟨typeText ix us, none⟩, hend, ?_, ?_⟩
  · exact (parse_eq_ok hix hstart hstop (by omega) more).mpr
      ⟨[us], .one (hus.trivia ht.trivia), .cons (.ofType hleft) .nil⟩
  · rw [List.nil_append] at htype
    rw [htype, htext, spell_cons]
    exact bareName_squeeze ht.parts.name (hdecl.spaced.blank name (List.mem_cons_self ..))
      ht.parts.generics

theorem classLike : Detect.classLike {} ix b = some ⟨kind, String.ofList name.text, some h⟩ := by
  obtain ⟨g, hl⟩ := ht.whole
  obtain ⟨c, hc, solid, -⟩ := hl.first (by simp)
  obtain ⟨e, arg, hend, hparse, hname⟩ := ht.parse_declared hix
  have hx := hix.codeGap_laid ht.before (ht.codeGap hix).1
  have hword : ix.text.word x y = s := by rw [Text.word, ht.keyword.slice hx, String.ofList_toList]
  have hlane : ix.Lane h x := by
    refine hix.lane_flat ht.before.spread fun k hk c hc => ?_
    rcases (ht.parts.before.valid k hk).chars with hname | hmark
    · exact .inl (hname c hc)
    · exact .inr (by simpa using hmark c hc)
  have hdecl := hix.declarationStart_lane hlane ht.start hc solid hx (ht.breaks.stops hix)
  refine Detect.classLike_eq_some.mpr ⟨⟨x, y⟩, arg, ht.typeKeyword hix, by rw [hend, hparse], ?_, ?_⟩
  · rw [hname]
    intro hempty
    exact ht.parts.name.nonempty (by simpa using hempty)
  · rw [hword, hname, hdecl, ht.parts.keyword_cases.2.2]

end TypeAt

end Lexed

open Lexed

/-- A type header before a brace is recognized, wherever a member may begin. -/
theorem detect_typeHeader (t : Text) (pre suf name : List Char) (ts : List Token) (kind : ScopeKind)
    (hchars : t.chars = pre ++ spell ts ++ '{' :: suf)
    (hcode : ∀ r, .region r ∈ events t .java →
      r.stop ≤ byteLength pre ∨ byteLength (pre ++ spell ts) < r.start)
    (hstart : (Lexed.ofText t .java).MemberStart (byteLength pre)) (hspaced : Spaced ts)
    (hheader : TypeHeader ts kind name) :
    detectWith Detector.standard {} (.ofText t .java) (byteLength (pre ++ spell ts)) =
      some ⟨kind, String.ofList name, some (byteLength pre)⟩ := by
  have hix := isJava_ofText t
  obtain ⟨front, s, g, token, ps, cs, rfl, rfl, hparts⟩ := hheader.parts
  have hl := hix.laid_of_chars (by rwa [ofText_text]) (by rwa [ofText_text]) hspaced
    ((hparts.wording_header g).valid_marks (by decide))
  obtain ⟨x, y, n, ht⟩ := hix.typeAt_of_laid hparts hl hstart
  simp [detectWith, firstAccepting?, Detector.standard, Detector.array, Detector.anonClass,
    Detector.classLike, ht.array_eq_none hix, ht.anonClass_eq_none hix, ht.classLike hix]

/-- A class with bounds inside type parameters, and two clauses. -/
theorem detect_typeHeader_bounds :
    detectWith Detector.standard {} (.ofText (.ofString
      "\x7b@A final class B<T extends C<? extends D>> extends E<T> implements a.F, G \x7b// m") .java) 75 =
      some ⟨.classBody, "B", some 1⟩ := by
  let t : Text :=
    .ofString "\x7b@A final class B<T extends C<? extends D>> extends E<T> implements a.F, G \x7b// m"
  let space := [' ']
  let ts := [token "@" [], token "A" space, token "final" space] ++ [token "class" space] ++
    token "B" [] :: (token "<" [] :: [token "T" space, token "extends" space, token "C" [], token "<" [],
      token "?" space, token "extends" space, token "D" [], token ">" []] ++ [token ">" space]) ++
    (([] ++ token "extends" space :: [token "E" [], token "<" [], token "T" [], token ">" space]) ++
      token "implements" space :: ([token "a" [], token "." [], token "F" []] ++
        token "," space :: [token "G" space]))
  have word : ∀ {r : List String} {s : String} {g : List Char}, IsWord r s.toList → Name r [token s g] :=
    fun h => .word h
  have header : TypeHeader ts .classBody "B".toList := by
    refine .mk (.annotated (word ⟨by decide, by decide, by decide⟩)
      (.word ⟨by decide, by decide, by decide⟩ .nil)) (.word (by decide)) ⟨by decide, by decide, by decide⟩
      (.some (.one (.bounded (.inr ⟨by decide, by decide, by decide⟩) (.inl rfl) (.bound (.simple (.generic
        (word ⟨by decide, by decide, by decide⟩) (.one (.bounded (.inl rfl) (.inl rfl) (.bound (.simple
          (.name (word ⟨by decide, by decide, by decide⟩))))))))))))
      (.clause (.clause .nil (.inl rfl) (.one ⟨.generic (word ⟨by decide, by decide, by decide⟩) (.one (.type
        (.simple (.name (word ⟨by decide, by decide, by decide⟩))))), rfl⟩)) (.inr (.inl rfl)) (.comma
          ⟨.name (.dot ⟨by decide, by decide, by decide⟩ (word ⟨by decide, by decide, by decide⟩)), rfl⟩
          (.one ⟨.name (word ⟨by decide, by decide, by decide⟩), rfl⟩)))
  have regions : ∀ e ∈ events t .java, e.isBracket = true ∨ e = .region ⟨.comment, 76, 80, true⟩ := by
    decide +kernel
  have start : byteLength "\x7b".toList = 1 := by decide +kernel
  have brace : byteLength ("\x7b".toList ++ spell ts) = 75 := by decide +kernel
  have member : (Lexed.ofText t .java).MemberStart 1 :=
    ⟨1, .nil 1, .inr ⟨0, '{', ⟨by decide +kernel, by decide +kernel⟩, by decide +kernel, .inl rfl⟩⟩
  have detected := detect_typeHeader t "\x7b".toList "// m".toList "B".toList ts .classBody
    (by decide +kernel) (fun r hr => ?_) (start ▸ member) ⟨by decide +kernel, by decide +kernel⟩ header
  · rw [start, brace] at detected
    exact detected.trans (by decide +kernel)
  · rcases regions _ hr with h | h
    · simp [Event.isBracket] at h
    · cases h
      exact .inr (by rw [brace]; decide)

end BraceScopes
