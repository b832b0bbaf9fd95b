import BraceScopes.Proofs.Header.Lists
import BraceScopes.Proofs.Header.Place
import BraceScopes.Proofs.Scan.Reach
/-!
Every method header is recognized. The detectors that are asked first decline, and the last one finds
the parameters behind the exceptions, the name before them, and the start of the declaration.
-/
namespace BraceScopes

open BraceScopes.Lex Header ArgList

namespace Header

variable {r extra : List String} {marks : List Char} {ts as xs : List Token} {types : List (List Token)}

theorem Listed.exists_concat {names : List (List Token)}
    (h : Listed (fun ts name => Name r ts ∧ name = ts) ts names) :
    ∃ us w g, ts = us ++ [⟨w, g⟩] ∧ IsWord r w := by
  induction h with
  | one first => exact first.1.exists_concat
  | @comma ts _ g _ _ first rest ih =>
    obtain ⟨us, w, g', rfl, word⟩ := ih
    exact ⟨ts ++ token "," g :: us, w, g', by simp, word⟩

theorem wording_parameter {ty : List Token} (h : Parameter ts ty) :
    Wording methodWords ["extends", "super", "final"] typeMarks ts := by
  obtain ⟨final, type, -, name⟩ := h
  refine (Wording.append ?_ (type.wording.mono (by simp) (List.Subset.refl _))).append (.word name _)
  rcases final with rfl | ⟨g, rfl⟩
  · exact .nil
  · exact .keyword (by decide) (by decide) (by decide) g

theorem wording_names {names : List (List Token)}
    (h : Listed (fun ts name => Name r ts ∧ name = ts) ts names) : Wording r [] ['.', ','] ts :=
  h.wording (by decide) fun _ _ hname => hname.1.wording.mono (by simp) (by simp)

theorem Throws.wording (h : Throws xs) : Wording methodWords ["throws"] ['.', ','] xs := by
  cases h with
  | nil => exact .nil
  | some names =>
    exact .cons (.keyword (by decide) (by decide) (by decide) _)
      ((wording_names names).mono (by simp) (List.Subset.refl _))

theorem MethodHeader.valid {w : List Char} (h : MethodHeader ts w types) :
    ∀ k ∈ ts, k.Valid markChars := by
  obtain @⟨ms, ps, rs, as, xs, w, g, g', g'', types, modifiers, generics, result, word, params, throws⟩ := h
  have hresult : ∀ k ∈ rs, k.Valid markChars := by
    rcases result with rfl | type
    · simp
    · exact type.wording.valid_marks (by decide)
  have hparams : ∀ k ∈ as, k.Valid markChars := by
    rcases params with ⟨rfl, -⟩ | listed
    · simp
    · exact (listed.wording (by decide) fun _ _ => wording_parameter).valid_marks (by decide)
  have mark : ∀ c ∈ markChars, ∀ g, Token.Valid markChars ⟨[c], g⟩ := fun c hc g =>
    ⟨by simp, .inr (by simpa using hc)⟩
  simp only [List.forall_mem_append, List.forall_mem_cons]
  exact ⟨⟨⟨⟨modifiers.wording.valid_marks (by decide), generics.wording.valid_marks (by decide)⟩, hresult⟩,
    ⟨word.nonempty, .inl word.chars⟩, mark '(' (by decide) g', hparams⟩,
    mark ')' (by decide) g'', throws.wording.valid_marks (by decide)⟩

end Header

namespace Lexed

variable {ix : Lexed} {p q h b k o x y e : Nat} {c d : Char} {w g g' : List Char}
  {r extra : List String} {marks : List Char} {ts lead as xs : List Token} {j : Token}
  {types : List (List Token)}

namespace IsJava

variable (hix : ix.IsJava)

include hix

theorem balanced_parameter {ty : List Token} (h : Parameter ts ty) (hl : ix.Laid p q ts) :
    ix.Balanced p q := by
  obtain ⟨final, type, -, name⟩ := h
  obtain ⟨x, hl, hname⟩ := hl.of_append
  obtain ⟨o, hfinal, htype⟩ := hl.of_append
  have hfs : ix.Balanced p o := by
    rcases final with rfl | ⟨g, rfl⟩
    · exact hfinal.nil_iff ▸ .nil p
    · exact hfinal.spread.balanced_flat (by simp [token]; decide)
  exact (hfs.trans (hix.phrase type o x htype.spread).1).trans
    (hname.spread.balanced_flat (by simpa using fun c hc => isPlain_of_isNameChar (name.chars c hc)))

/-- A header without the word `new` makes no anonymous class. -/
theorem anonClass_eq_none (hstart : ix.MemberStart h) (hl : ix.Laid h o (ts ++ [j]))
    (hj : j.isWord = true) (hnew : ∀ i ∈ ts ++ [j], i.isWord = true → i.text ∉ ["new".toList])
    (hargs : ix.pieceBefore? .normal b 0 = some ⟨.group '(', o, e⟩) :
    Detect.anonClass {} ix b = none := by
  refine Option.eq_none_iff_forall_ne_some.mpr fun d hd => ?_
  obtain ⟨args, ty, new, hargs', -, hty, -, hpiece, hnewword, -⟩ := Detect.anonClass_eq_some.mp hd
  rw [hargs] at hargs'
  cases hargs'
  obtain ⟨c, hc, solid, hlt⟩ := hl.first (by simp)
  have hgap := hix.codeGap_of_code hc
  have ho := hix.codeGap_laid hl hgap
  obtain ⟨x, y, hts, htext, htrivia, hxy, -⟩ := hix.piece_word hl hj (hstart.breaks hix hc solid) hgap
  have hhx := hts.le
  have hyo := htrivia.le hix
  -- What is taken for the type begins with the name or before it, but not before the header.
  obtain ⟨s, hs, hword, hsy, hstops⟩ := hix.piece_longest (m := .angle)
    (htext.word fun c hc => hix.isIdentChar_of_name (List.all_eq_true.mp hj c hc)) hxy
    (hix.codeGap_codeChars htext (hix.codeGap_laid hts hgap)) htrivia ho
  have hhs : h ≤ s := Nat.le_of_not_lt fun hlt => by
    have := hstart.word_le hix hgap hword hlt
    omega
  obtain ⟨v, hv, hcases⟩ := Detect.typeNameBefore_eq_some.mp hty
  rw [hs] at hv
  cases hv
  simp only [reduceCtorEq, false_and, ne_eq, not_false_eq_true, true_and, false_or] at hcases
  subst hcases
  -- So the word before it would be one of the tokens.
  obtain ⟨cs, hcs, -⟩ := hword.first hsy
  have hlast := hix.pieceBefore_spec (m := .normal) hix.codeGap_zero (hix.codeGap_of_code hcs)
    (Nat.zero_le s)
  rw [hpiece] at hlast
  simp only [Lexed.isWord, Bool.and_eq_true, beq_iff_eq] at hnewword
  obtain ⟨hkind, hslice⟩ := hnewword
  have hle := hstart.le_of_last hix hc solid hlast hkind hhs
  have hnewAt := hix.wordAt_of_last hlast hkind hstops.normal (show s ≤ o by omega) hslice (by decide)
  have hbefore : new.start < s := pieceBefore_lt hpiece
  obtain ⟨i, hi, hisWord, hitext⟩ := hl.exists_token hix hnewAt hle (by omega) (Nat.le_refl o) (.inl rfl)
  exact hnew i hi hisWord (List.mem_singleton.mpr hitext)

end IsJava

/-- A method header in code. Its parameters stand between the brackets at `o` and `k`. -/
structure MethodAt (ix : Lexed) (h o k b : Nat) (lead as xs : List Token) (name : Token) : Prop where
  whole : ∃ front, ix.Laid h b (front ++ xs)
  before : ix.Laid h o (lead ++ [name])
  lane : ∀ p q, ix.Laid p q lead → ix.Lane p q
  free : ∀ i ∈ lead ++ [name], i.isWord = true → i.text ∉ ["new".toList]
  word : IsWord methodWords name.text
  group : ix.Group '(' o k
  closer : ix.CodeChar k ')'
  parameters : ∃ p, ix.Trivia (o + 1) p ∧ ix.Laid p k as
  after : ∃ n, ix.Trivia (k + 1) n ∧ ix.Laid n b xs
  throws : Throws xs

theorem IsJava.methodAt_of_laid (hix : ix.IsJava) (hh : MethodHeader ts w types) (hl : ix.Laid h b ts) :
    ∃ lead as xs name o k, ix.MethodAt h o k b lead as xs name ∧ name.text = w ∧
      (as = [] ∧ types = [] ∨ Listed Parameter as types) := by
  obtain @⟨ms, ps, rs, as, xs, w, g, g', g'', types, modifiers, generics, result, word, params, throws⟩ := hh
  have hts : ms ++ ps ++ rs ++ ⟨w, g⟩ :: token "(" g' :: as ++ token ")" g'' :: xs =
      (ms ++ ps ++ rs ++ [⟨w, g⟩]) ++ ((token "(" g' :: as ++ [token ")" g'']) ++ xs) := by simp
  have hwhole : ix.Laid h b
      ((ms ++ ps ++ rs ++ [⟨w, g⟩] ++ (token "(" g' :: as ++ [token ")" g''])) ++ xs) := by
    rw [List.append_assoc, ← hts]
    exact hl
  rw [hts] at hl
  obtain ⟨o, hbefore, hl⟩ := hl.of_append
  obtain ⟨n, hparens, hafter⟩ := hl.of_append
  have hinner : ∀ p q, ix.Laid p q as → ix.Balanced p q := by
    intro p q has
    rcases params with ⟨rfl, -⟩ | listed
    · exact has.nil_iff ▸ .nil p
    · exact has.balanced_listed listed fun p q ts a hparam hl => hix.balanced_parameter hparam hl
  obtain ⟨p, k, htrivia, has, hgroup, hcloser, htrivia'⟩ := hparens.group rfl rfl rfl hinner
  have hresult : Wording methodWords ["extends", "super"] typeMarks rs := by
    rcases result with rfl | type
    · exact .nil
    · exact type.wording
  refine ⟨_, as, xs, ⟨w, g⟩, o, k, ⟨⟨_, hwhole⟩, hbefore, fun p q hlead => ?_, ?_, word, hgroup, hcloser,
    ⟨p, htrivia, has⟩, ⟨n, htrivia', hafter⟩, throws⟩, rfl, params⟩
  · obtain ⟨x, hlead, hresult⟩ := hlead.of_append
    obtain ⟨y, hmodifiers, hgenerics⟩ := hlead.of_append
    refine ((hix.lane_modifiers modifiers hmodifiers).trans
      (hix.lane_typeParameters generics hgenerics)).trans ?_
    rcases result with rfl | type
    · exact hresult.nil_iff ▸ .nil (.nil x)
    · exact (hix.phrase type x q hresult.spread).2 (.inr rfl)
  · refine List.forall_mem_append.mpr ⟨List.forall_mem_append.mpr ⟨List.forall_mem_append.mpr ⟨?_, ?_⟩, ?_⟩, ?_⟩
    · exact modifiers.wording.not_mem (by decide)
    · exact generics.wording.not_mem (by decide)
    · exact hresult.not_mem (by decide)
    · exact (show Wording methodWords [] [] [⟨w, g⟩] from .word word g).not_mem (by decide)

namespace MethodAt

variable {name : Token} (hix : ix.IsJava) (hm : ix.MethodAt h o k b lead as xs name)

include hix hm

theorem codeGap : ix.CodeGap h ∧ ix.CodeGap b := by
  obtain ⟨c, hc, -⟩ := hm.before.first (by simp)
  obtain ⟨front, hl⟩ := hm.whole
  exact ⟨hix.codeGap_of_code hc, hix.codeGap_laid hl (hix.codeGap_of_code hc)⟩

theorem balanced : ix.Balanced h b := by
  obtain ⟨x, hlead, hname⟩ := hm.before.of_append
  obtain ⟨n, htrivia, hxs⟩ := hm.after
  have hword := hname.spread.balanced_flat (by simpa using fun c hc => isPlain_of_isNameChar (hm.word.chars c hc))
  exact ((hm.lane h x hlead).balanced hix).trans (hword.trans (.group hm.group.opener hm.group.inner
    hm.closer rfl (htrivia.balanced.trans (hxs.balanced_wording hm.throws.wording (by decide)))))

theorem lt : h < o ∧ o < k ∧ k < b := by
  obtain ⟨n, htrivia, hxs⟩ := hm.after
  obtain ⟨c, -, -, hlt⟩ := hm.before.first (by simp)
  have := hm.group.inner.le hix
  have := htrivia.le hix
  have := hxs.le
  omega

/-- The last bracket is that of the parameters. -/
theorem searchBack_closer {cs : List Char} (hmem : ')' ∈ cs)
    (hcs : ∀ c ∈ cs, c.utf8Size = 1 ∧ isBlank c = false ∧ isNameChar c = false ∧ c ∉ ['.', ',']) :
    ix.searchBack (.oneOf cs) b (ix.bodyStart b) 1 = some ⟨k, k + 1⟩ := by
  obtain ⟨hho, hok, hkb⟩ := hm.lt hix
  have hbody := hix.bodyStart_le (hm.balanced hix) (Text.isBoundary_le_size (hm.codeGap hix).2.boundary)
  refine searchBack_oneOf (fun c hc => (hcs c hc).1) hm.closer hmem (by omega) hkb fun i d hd hki hib hdcs => ?_
  obtain ⟨n, htrivia, hxs⟩ := hm.after
  have hni := hix.le_of_trivia htrivia hd (hcs d hdcs).2.1 hki
  exact hxs.spread.not_oneOf hix hm.throws.wording (fun c hc => (hcs c hc).2) hd hni hib hdcs

theorem classLike_eq_none : Detect.classLike {} ix b = none := by
  refine Option.eq_none_iff_forall_ne_some.mpr fun d hd => ?_
  obtain ⟨keyword, arg, hkeyword, -⟩ := Detect.classLike_eq_some.mp hd
  have hsearch := (Detect.typeKeyword_eq_some.mp hkeyword).1
  rw [Pattern.declarationBoundary, hm.searchBack_closer hix (by decide) (by decide)] at hsearch
  obtain ⟨hle, hmatch, -⟩ := (searchBack_eq_some Pattern.solid_typeKeyword).mp hsearch
  obtain ⟨n, htrivia, hxs⟩ := hm.after
  exact hix.not_match_of_laid Pattern.solid_typeKeyword (by decide) hxs htrivia
    (hm.throws.wording.not_mem (by decide)) hle hmatch

/-- The header ends with the parameters, or with the name of an exception. -/
theorem ends (hstart : ix.MemberStart h) :
    (xs = [] ∧ ix.Trivia (k + 1) b ∧ ix.pieceBefore? .normal b 0 = some ⟨.group '(', o, k + 1⟩) ∨
      xs ≠ [] ∧ ∃ x y w, ix.CodeChars x y w ∧ ix.Trivia y b ∧ IsWord methodWords w ∧
        ix.pieceBefore? .normal b 0 = some ⟨.ident, x, y⟩ ∧ ix.text.word x y = String.ofList w := by
  obtain ⟨n, htrivia, hxs⟩ := hm.after
  obtain ⟨c, hc, solid, -⟩ := hm.before.first (by simp)
  cases hm.throws with
  | nil =>
    obtain rfl := hxs.nil_iff
    exact .inl ⟨rfl, htrivia, hix.piece_parens hm.group hm.closer htrivia (hm.codeGap hix).2⟩
  | @some g us names listed =>
    obtain ⟨us, w, g', rfl, word⟩ := listed.exists_concat
    obtain ⟨front, hl⟩ := hm.whole
    rw [← List.cons_append, ← List.append_assoc] at hl
    obtain ⟨x, y, -, htext, htrivia, -, -, hpiece, hword⟩ :=
      hix.piece_word hl (word.isWord g') (hstart.breaks hix hc solid) (hm.codeGap hix).1
    exact .inr ⟨List.cons_ne_nil _ _, x, y, w, htext, htrivia, word, hpiece, hword⟩

theorem array_eq_none (hstart : ix.MemberStart h) : Detect.array {} ix b = none := by
  have hb := (hm.codeGap hix).2
  rcases hm.ends hix hstart with ⟨-, htrivia, -⟩ | ⟨-, x, y, w, htext, htrivia, word, -⟩
  · rw [← hm.closer.next_closer rfl] at htrivia
    exact hix.array_eq_none hb hm.closer rfl htrivia (by decide)
  · obtain ⟨a, c, hmem, hc, rfl⟩ := htext.last word.nonempty
    have hname := word.chars c hmem
    refine hix.array_eq_none hb hc (not_isBlank_of_isNameChar hname) htrivia fun hin => ?_
    have hall : ∀ c ∈ ({} : ScopeConfig).arrayPredecessors, isNameChar c = false := by decide
    simp [hall c hin] at hname

theorem anonClass_eq_none (hstart : ix.MemberStart h) : Detect.anonClass {} ix b = none := by
  rcases hm.ends hix hstart with ⟨-, -, hpiece⟩ | ⟨-, x, y, w, -, -, -, hpiece, -⟩
  · exact hix.anonClass_eq_none hstart hm.before (hm.word.isWord name.gap) hm.free hpiece
  · refine Option.eq_none_iff_forall_ne_some.mpr fun d hd => ?_
    obtain ⟨args, ty, new, hargs, hkind, -⟩ := Detect.anonClass_eq_some.mp hd
    rw [hpiece] at hargs
    cases hargs
    simp at hkind

theorem simpleStatement_eq_none (hstart : ix.MemberStart h) :
    Detect.simpleStatement {} ix b = none := by
  refine Option.eq_none_iff_forall_ne_some.mpr fun d hd => ?_
  obtain ⟨u, hu, hcases⟩ := Detect.simpleStatement_eq_some.mp hd
  rcases hm.ends hix hstart with ⟨-, -, hpiece⟩ | ⟨-, x, y, w, -, -, word, hpiece, hword⟩
  · rw [hpiece] at hu
    cases hu
    simp at hcases
  · rw [hpiece] at hu
    cases hu
    simp only [reduceCtorEq, false_and, true_and, false_or, hword, ScopeConfig.isStatementKeyword,
      List.contains_iff_mem] at hcases
    exact word.free (List.mem_append_left _ hcases.1)

/-- The exceptions are found behind the parameters. -/
theorem paramsBeforeThrows (hstart : ix.MemberStart h) (hne : xs ≠ []) :
    Detect.paramsBeforeThrows? ix b = some ⟨.group '(', o, k + 1⟩ := by
  obtain ⟨hh, hb⟩ := hm.codeGap hix
  obtain ⟨c, hc, solid, -⟩ := hm.before.first (by simp)
  obtain ⟨n, htrivia, hxs⟩ := hm.after
  have hkn := htrivia.le hix
  obtain ⟨front, hl⟩ := hm.whole
  cases hm.throws with
  | nil => exact absurd rfl hne
  | @some g us names listed =>
    obtain ⟨x, y, o', hfront, hthrows, -, htrivia', hus, hbreaks, hmatch⟩ := hix.match_of_laid
      Pattern.solid_throwsClause (by decide) hl (List.mem_singleton_self _) (hstart.breaks hix hc solid)
    obtain rfl : n = x := by
      have := hl.chars.stop_eq
      have := hfront.chars.stop_eq
      have := hxs.chars.stop_eq
      rw [spell_append, byteLength_append] at *
      omega
    have begins : ∀ ts name, Name methodWords ts ∧ name = ts → ∃ k us, ts = k :: us ∧ k.isWord = true :=
      fun ts name h => h.1.exists_cons
    have each : ∀ p q ts name, Name methodWords ts ∧ name = ts → ix.Laid p q ts → ∃ us, ix.Units p q us ∧
        ∃ arg, Entry ix true us arg ∧ arg.ty = String.ofList (squeeze (spell name)) := by
      rintro p q ts name ⟨hname, rfl⟩ hl
      exact hix.units_name hname (by decide) hl
    have hy := hix.codeGap_codeChars hthrows (hix.codeGap_laid hfront hh)
    obtain ⟨uss, huss, -⟩ := IsJava.entries_listed each listed hus
    obtain ⟨thrown, hthrown, htexts⟩ := hix.parse_listed begins each listed hus hy htrivia'
    refine Detect.paramsBeforeThrows_eq_some.mpr ⟨⟨k, k + 1⟩, ⟨n, y⟩, thrown,
      hm.searchBack_closer hix (by decide) (by decide), ?_, hthrown, ?_, ?_, rfl⟩
    · refine (clauseBefore_eq_some Pattern.solid_throwsClause).mpr
        ⟨hkn, hmatch, hix.skipsForwardTo_entries (huss.trivia htrivia') hb, fun m hle hm hlt => ?_⟩
      have hym := Pattern.Solid.separate Pattern.solid_throwsClause hmatch.found hm.found hlt
      exact absurd hm (hix.not_match_of_laid Pattern.solid_throwsClause (by decide) hus htrivia'
        ((wording_names listed).not_mem (by decide)) hym)
    · rintro rfl
      cases listed <;> simp at htexts
    · exact hix.piece_parens hm.group hm.closer htrivia (hix.codeGap_laid hfront hh)

theorem params (hstart : ix.MemberStart h) :
    ∃ throwing, Detect.params? ix b = some (⟨.group '(', o, k + 1⟩, throwing) := by
  rcases hm.ends hix hstart with ⟨-, -, hpiece⟩ | ⟨hne, x, y, w, -, -, -, hpiece, -⟩
  · exact ⟨false, Detect.params_eq_some.mpr ⟨_, hpiece, .inl ⟨rfl, rfl, rfl⟩⟩⟩
  · exact ⟨true, Detect.params_eq_some.mpr
      ⟨_, hpiece, .inr ⟨nofun, hm.paramsBeforeThrows hix hstart hne, rfl⟩⟩⟩

theorem parse_parameters (hparams : as = [] ∧ types = [] ∨ Listed Parameter as types) :
    ∃ args, parse ix false (o + 1) k = .ok args ∧
      args.map (·.ty) = types.map fun ty => String.ofList (squeeze (spell ty)) := by
  obtain ⟨p, htrivia, has⟩ := hm.parameters
  have hopen := hm.group.opener
  have hnext : ix.text.next o = o + 1 := hopen.next_opener (c := ')') rfl
  have hgap := hix.codeGap_next hopen
  rw [hnext] at hgap
  rcases hparams with ⟨rfl, rfl⟩ | listed
  · obtain rfl := has.nil_iff
    exact ⟨[], parse_trivia hix (hix.codeGap_of_code hm.closer) htrivia, rfl⟩
  · exact hix.parse_listed (fun ts ty h => h.exists_cons) (fun p q ts ty h hl => hix.units_parameter h hl)
      listed has hgap htrivia

/-- The last detector reads the name, the parameters and the start of the declaration. -/
theorem methodOrStatement (hstart : ix.MemberStart h)
    (hparams : as = [] ∧ types = [] ∨ Listed Parameter as types) :
    Detect.methodOrStatement {} ix b = some ⟨.method, String.ofList name.text ++ "(" ++
      ",".intercalate (types.map fun ty => String.ofList (squeeze (spell ty))) ++ ")", some h⟩ := by
  obtain ⟨c, hc, solid, -⟩ := hm.before.first (by simp)
  obtain ⟨throwing, hthrowing⟩ := hm.params hix hstart
  obtain ⟨x, y, hlead, -, -, -, hbreaks, hpiece, hword⟩ := hix.piece_word hm.before (hm.word.isWord name.gap)
    (hstart.breaks hix hc solid) (hm.codeGap hix).1
  obtain ⟨args, hargs, htexts⟩ := hm.parse_parameters hix hparams
  have hdecl := hix.declarationStart_lane (hm.lane h x hlead) hstart hc solid
    (hix.codeGap_laid hlead (hm.codeGap hix).1) (hbreaks.stops hix)
  refine Detect.methodOrStatement_eq_some.mpr ⟨_, throwing, _, hthrowing, hpiece, rfl, .inr ⟨?_, args, hargs, ?_⟩⟩
  · rintro ⟨-, hkeyword⟩
    simp only [hword, ScopeConfig.isStatementKeyword, List.contains_iff_mem] at hkeyword
    exact hm.word.free (List.mem_append_left _ hkeyword)
  · rw [hword, htexts, hdecl]

end MethodAt

end Lexed

open Lexed

/-- A method header before a brace is recognized, wherever a member may begin. -/
theorem detect_methodHeader (t : Text) (pre suf name : List Char) (ts : List Token)
    (types : List (List Token)) (hchars : t.chars = pre ++ spell ts ++ '{' :: suf)
    (hcode : ∀ r, .region r ∈ events t .java →
      r.stop ≤ byteLength pre ∨ byteLength (pre ++ spell ts) < r.start)
    (hstart : (Lexed.ofText t .java).MemberStart (byteLength pre)) (hspaced : Spaced ts)
    (hheader : MethodHeader ts name types) :
    detectWith Detector.standard {} (.ofText t .java) (byteLength (pre ++ spell ts)) =
      some ⟨.method, String.ofList name ++ "(" ++
        ",".intercalate (types.map fun ty => String.ofList (squeeze (spell ty))) ++ ")",
        some (byteLength pre)⟩ := by
  have hix := isJava_ofText t
  have hl := hix.laid_of_chars (by rwa [ofText_text]) (by rwa [ofText_text]) hspaced hheader.valid
  obtain ⟨lead, as, xs, token, o, k, hm, rfl, hparams⟩ := hix.methodAt_of_laid hheader hl
  simp [detectWith, firstAccepting?, Detector.standard, Detector.array, Detector.anonClass, Detector.classLike,
    Detector.simpleStatement, Detector.methodOrStatement, hm.array_eq_none hix hstart,
    hm.anonClass_eq_none hix hstart, hm.classLike_eq_none hix, hm.simpleStatement_eq_none hix hstart,
    hm.methodOrStatement hix hstart hparams]

/-- A method with an annotation, type parameters, a modifier before a parameter, and an exception. -/
theorem detect_methodHeader_throws :
    detectWith Detector.standard {}
      (.ofText (.ofString "\x7b@A public <T> B<T>[] f(final int[] x, C... y) throws D \x7b// m") .java) 56 =
      some ⟨.method, "f(int[],C...)", some 1⟩ := by
  let t : Text := .ofString "\x7b@A public <T> B<T>[] f(final int[] x, C... y) throws D \x7b// m"
  let space := [' ']
  let arrayType := [token "int" [], token "[" [], token "]" space]
  let variadicType := [token "C" [], token "..." space]
  let ts := [token "@" [], token "A" space, token "public" space] ++
    [token "<" [], token "T" [], token ">" space] ++
    [token "B" [], token "<" [], token "T" [], token ">" [], token "[" [], token "]" space] ++
    token "f" [] :: token "(" [] :: ([token "final" space] ++ arrayType ++ [token "x" []] ++
      token "," space :: ([] ++ variadicType ++ [token "y" []])) ++
    token ")" space :: [token "throws" space, token "D" space]
  have word : ∀ {r : List String} {s : String} {g : List Char}, IsWord r s.toList → Name r [token s g] :=
    fun h => .word h
  have header : MethodHeader ts "f".toList [arrayType, variadicType] := by
    refine .mk (.annotated (word ⟨by decide, by decide, by decide⟩) (.word ⟨by decide, by decide, by decide⟩ .nil))
      (.some (.one (.type (.simple (.name (word ⟨by decide, by decide, by decide⟩))))))
      (.inr (.array (.simple (.generic (word ⟨by decide, by decide, by decide⟩)
        (.one (.type (.simple (.name (word ⟨by decide, by decide, by decide⟩)))))))))
      ⟨by decide, by decide, by decide⟩
      (.inr (.comma (.mk (.inr ⟨space, rfl⟩) (.array (.simple (.name (word ⟨by decide, by decide, by decide⟩))))
        (by decide) ⟨by decide, by decide, by decide⟩)
        (.one (.mk (.inl rfl) (.variadic (.simple (.name (word ⟨by decide, by decide, by decide⟩))))
          (by decide) ⟨by decide, by decide, by decide⟩))))
      (.some (.one ⟨word ⟨by decide, by decide, by decide⟩, rfl⟩))
  have regions : ∀ e ∈ events t .java, e.isBracket = true ∨ e = .region ⟨.comment, 57, 61, true⟩ := by
    decide +kernel
  have start : byteLength "\x7b".toList = 1 := by decide +kernel
  have brace : byteLength ("\x7b".toList ++ spell ts) = 56 := by decide +kernel
  have member : (Lexed.ofText t .java).MemberStart 1 :=
    ⟨1, .nil 1, .inr ⟨0, '{', ⟨by decide +kernel, by decide +kernel⟩, by decide +kernel, .inl rfl⟩⟩
  have detected := detect_methodHeader t "\x7b".toList "// m".toList "f".toList ts
    [arrayType, variadicType] (by decide +kernel) (fun r hr => ?_) (start ▸ member)
    ⟨by decide +kernel, by decide +kernel⟩ header
  · rw [start, brace] at detected
    exact detected.trans (by decide +kernel)
  · rcases regions _ hr with h | h
    · simp [Event.isBracket] at h
    · cases h
      exact .inr (by rw [brace]; decide)

end BraceScopes
