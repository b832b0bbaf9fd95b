import BraceScopes.Proofs.Header.Lists
/-!
Lists of parameters as they are written. White space and comments between the tokens do not change what
is read of a list, except that the dots of a parameter of variable number must not touch its name.
-/
namespace BraceScopes

open Header

namespace ArgList

/-- A parameter: the tokens of its type, and its name. -/
structure Param where
  ty : List Token
  name : List Char

/-- How a parameter is written: `final` or nothing, a type and a name. -/
inductive Written : List Token → Param → Prop
  | mk {fs ty : List Token} {w g : List Char} (final : fs = [] ∨ ∃ g, fs = [token "final" g])
      (type : Phrase ["final"] .type ty) (name : IsWord ["final"] w) :
      Written (fs ++ ty ++ [⟨w, g⟩]) ⟨ty, w⟩

/-- The type ends with dots, and the name follows them at once. -/
def Param.Joined (a : Param) : Prop := ∃ k ∈ a.ty.getLast?, k.text = "...".toList ∧ k.gap = []

/-- What is read of a parameter: its name, and its type up to white space. -/
structure ReadAs (a : Param) (arg : Arg) : Prop where
  name : arg.name = some (String.ofList a.name)
  ty : unspaced arg.ty.toList = a.ty.flatMap Token.text

/-- How reading goes on in front of the entries `args`. -/
def continued (ix : Lexed) (start : Nat) (args : List Arg) (comma : Option Nat) :
    Except MalformedArgument (List Arg) :=
  match comma with
  | none => .ok args
  | some k => entriesBefore ix false start args k

variable {ix : Lexed} {start q : Nat} {rest : List Arg} {arg : Arg} {comma : Option Nat}
  {err : MalformedArgument}

theorem entriesBefore_of_ok (h : entryBefore ix false start q = .ok (arg, comma)) :
    entriesBefore ix false start rest q = continued ix start (arg :: rest) comma := by
  rw [entriesBefore]
  split
  next he => simp [h] at he
  next ha =>
    rw [h] at ha
    cases ha
    rfl
  next ha =>
    rw [h] at ha
    cases ha
    rfl

theorem entriesBefore_of_error (h : entryBefore ix false start q = .error err) :
    entriesBefore ix false start rest q = .error err := by
  rw [entriesBefore]
  split
  next he =>
    rw [h] at he
    cases he
    rfl
  next ha => simp [h] at ha
  next ha => simp [h] at ha

namespace Written

variable {ts : List Token} {a : Param} {as : List Param}

theorem wording (h : Written ts a) : Wording ["final"] ["final", "extends", "super"] typeMarks ts := by
  obtain @⟨fs, ty, w, g, final, type, name⟩ := h
  have hfs : Wording ["final"] ["final", "extends", "super"] typeMarks fs := by
    rcases final with rfl | ⟨g', rfl⟩
    · exact .nil
    · exact .keyword (by decide) (by decide) (by decide) g'
  exact (hfs.append (type.wording.mono (by simp) (List.Subset.refl _))).append (.word name g)

theorem exists_cons (h : Written ts a) : ∃ k us, ts = k :: us ∧ k.isWord = true := by
  obtain ⟨rfl | ⟨g, rfl⟩, type, -⟩ := h
  · obtain ⟨k, us, rfl, hword⟩ := type.exists_cons (.inr rfl)
    exact ⟨k, _, rfl, hword⟩
  · exact ⟨_, _, rfl, rfl⟩

/-- The tokens of a list of parameters are words and the marks of types. -/
theorem valid_listed (h : Listed Written ts as) : ∀ k ∈ ts, k.Valid markChars := by
  have hall : Wording ["final"] ["final", "extends", "super"] typeMarks ts :=
    h.wording (by decide) fun _ _ hwritten => hwritten.wording
  exact hall.valid_marks (by decide)

end Written

end ArgList

open ArgList

namespace Header

variable {r : List String} {f : Form} {ts : List Token}

/-- A type ends with a word, a bracket or dots. -/
theorem Phrase.exists_concat (h : Phrase r f ts) (hf : f = .simple ∨ f = .type) :
    ∃ us k, ts = us ++ [k] ∧
      (k.isWord = true ∨ k.text = ['>'] ∨ k.text = [']'] ∨ k.text = "...".toList) := by
  induction h with
  | name name =>
    obtain ⟨us, w, g, rfl, word⟩ := name.exists_concat
    exact ⟨us, _, rfl, .inl (word.isWord g)⟩
  | generic => exact ⟨_, _, rfl, .inr (.inl rfl)⟩
  | simple type ih => exact ih (.inl rfl)
  | @array ts g g' type ih =>
    exact ⟨ts ++ [token "[" g], token "]" g', by simp, .inr (.inr (.inl rfl))⟩
  | variadic => exact ⟨_, _, rfl, .inr (.inr (.inr rfl))⟩
  | bound | both | type | wildcard | bounded | one | comma => simp at hf

end Header

namespace Lexed

variable {ix : Lexed} {p q o x e start stop bound : Nat} {r : List String} {ts ty : List Token}
  {w g : List Char} {a : Param} {as : List Param} {comma : Option Nat}

/-- The text of some tokens, up to white space. -/
theorem Spread.unspaced_plain (hix : ix.IsJava) (hl : ix.Spread p q ts)
    (valid : ∀ k ∈ ts, k.Valid markChars) : unspaced (ix.plain p q) = ts.flatMap Token.text := by
  induction hl with
  | nil p =>
    rw [plain_of_le (Nat.le_refl p)]
    rfl
  | @cons p e n q k ts text trivia gap rest ih =>
    obtain ⟨hk, hts⟩ := List.forall_mem_cons.mp valid
    have hen := trivia.le hix
    have hnq := rest.le hix
    rw [plain_append text.le (Nat.le_trans hen hnq), plain_append hen hnq, hix.plain_codeChars text,
      unspaced_append, unspaced_append, unspaced_solid hk.solid, unspaced_blanks (hix.plain_trivia trivia),
      ih hts, List.nil_append, List.flatMap_cons]

namespace IsJava

variable (hix : ix.IsJava)

include hix

/-- No identifier runs from a type into the name after it, unless dots do. -/
theorem stops_of_type (type : Phrase r .type ty) (hl : ix.Spread o x ty) (apart : Apart (ty ++ [⟨w, g⟩]))
    (name : IsWord r w) (hdots : ∀ k ∈ ty.getLast?, k.text = "...".toList → k.gap ≠ []) :
    ix.Stops .angle bound x := by
  obtain ⟨us, k, rfl, hk⟩ := type.exists_concat (.inr rfl)
  obtain ⟨m, -, hlast⟩ := hl.of_append
  obtain ⟨e, htext, htrivia, hgap⟩ := hlast.single
  rcases Nat.lt_or_eq_of_le (htrivia.le hix) with hlt | rfl
  · exact hix.stops_of_trivia htrivia hlt
  · have hnil := hgap.mp rfl
    have bracket : ∀ {c b : Char}, k.text = [c] → groupOpenerOf c = some b → ix.Stops .angle bound e := by
      intro c b hc pair
      rw [hc] at htext
      obtain ⟨hchar, rfl⟩ := htext.single
      exact stops_next hchar (hix.not_ident_of_pair pair)
    rcases hk with hword | hangle | hsquare | hdot
    · rw [Apart, List.append_assoc, List.singleton_append, List.isChain_append_cons_cons] at apart
      exact absurd hnil (apart.2.1 hword (name.isWord g))
    · exact bracket hangle rfl
    · exact bracket hsquare rfl
    · exact absurd hnil (hdots k (by simp) hdot)

/-- Trivia around some pieces is white space in their text. -/
theorem unspaced_runText {us : List Piece} (hus : ix.Units p q us) (hne : us ≠ []) :
    unspaced (runText ix us) = unspaced (ix.plain p q) := by
  obtain ⟨hfirst, hlast, -⟩ := hix.trivia_spanOf hus hne
  have hspan := spanOf_lt hix hus hne (List.Sublist.refl us)
  have hle := hlast.le hix
  rw [plain_append (hfirst.le hix) (by omega), plain_append (Nat.le_of_lt hspan) hle, unspaced_append,
    unspaced_append, unspaced_blanks (hix.plain_trivia hfirst), unspaced_blanks (hix.plain_trivia hlast),
    List.nil_append, List.append_nil, runText, unspaced_squeeze]

/-- A parameter whose dots do not touch its name reads as one entry. -/
theorem units_written (h : Written ts a) (hl : ix.Spread p q ts) (apart : Apart ts) (joined : ¬ a.Joined) :
    ∃ us arg, ix.Units p q us ∧ Entry ix false us arg ∧ ReadAs a arg := by
  obtain @⟨fs, ty, w, g, final, type, name⟩ := h
  obtain ⟨x, hleft, hname⟩ := hl.of_append
  obtain ⟨o, hfs, hty⟩ := hleft.of_append
  have hvalid := type.wording.valid_marks (by decide)
  have hstops : ix.Stops .angle p x := by
    refine hix.stops_of_type (g := g) type hty ?_ name fun k hk hdot hgap => joined ⟨k, hk, hdot, hgap⟩
    rw [List.append_assoc] at apart
    exact apart.of_append.2
  obtain ⟨us, vs, hus, hne, hvs, hentry⟩ := hix.units_typed final type (List.mem_singleton_self _) name hfs hty
    hname apart.of_append.1 (.inl hstops)
  refine ⟨vs, _, hvs, hentry, rfl, ?_⟩
  rw [String.toList_ofList, hix.unspaced_runText hus hne]
  exact hty.unspaced_plain hix hvalid

/-- The piece before trivia that follows a word is an identifier that ends with the word. -/
theorem piece_of_word {m : Mode} (hstart : ix.CodeGap start) (hq : ix.CodeGap q) (hword : ix.Word m x e)
    (hlt : x < e) (hle : start ≤ x) (htrivia : ix.Trivia e q) :
    ∃ s, ix.pieceBefore? m q start = some ⟨.ident, s, e⟩ := by
  obtain ⟨c, hc, -⟩ := hword.first hlt
  have he := hix.codeGap_word hword (hix.codeGap_of_code hc)
  obtain ⟨hbound, hlong, hstops⟩ := hix.identRun_spec (m := m) hstart.boundary he (by omega)
  have hrun : ix.identRun m start e < e := by
    refine Nat.lt_of_le_of_ne (ix.identRun_le m start e) fun heq => ?_
    rw [heq] at hstops
    obtain ⟨i, d, hd, hident, hnext, -⟩ := hword.last hlt
    have hnot := hstops.resolve_left (by omega) i d hnext hd
    simp [hident] at hnot
  exact ⟨_, hix.pieceBefore_eq_some hq (.ident hlong hrun hbound hstops htrivia) (by simp)⟩

/-- A word right behind a dot is refused as a name. -/
theorem tailBefore_dot {b : Nat} (hstart : ix.CodeGap start) (hq : ix.CodeGap q)
    (hword : ix.CodeChars x e w) (name : IsWord r w) (hdot : ix.CodeChar b '.')
    (hnext : ix.text.next b = x) (hle : start ≤ b) (htrivia : ix.Trivia e q) :
    tailBefore ix start q = .error ⟨x⟩ := by
  have hbx := ix.text.lt_next b
  have hxe := hword.lt name.nonempty
  have hident : ∀ m, ix.Word m x e := fun m =>
    hword.word fun c hc => hix.isIdentChar_of_name (name.chars c hc)
  have hdims : dimsBefore ix start 0 q = (0, q) := by
    obtain ⟨s, hs⟩ := hix.piece_of_word hstart hq (hident .angle) hxe (by omega) htrivia
    rw [dimsBefore]
    split
    next u hu =>
      rw [hs] at hu
      cases hu
      simp
    next => rfl
  have hpiece : ix.pieceBefore? .normal q start = some ⟨.ident, x, e⟩ := by
    refine hix.pieceBefore_eq_some hq (.ident (hident .normal) hxe (by omega) ?_ htrivia) (by simp)
    rw [← hnext]
    refine stops_next hdot ?_
    rw [isIdentChar, hix.rules]
    decide
  have hback : ix.text.charBefore x = some (b, '.') := hnext ▸ hdot.charBefore
  simp [tailBefore, hdims, hpiece, hback]

/-- A parameter whose dots touch its name is refused. -/
theorem entryBefore_joined (h : Written ts a) (hl : ix.Spread p q ts) (joined : a.Joined)
    (hstart : ix.CodeGap start) (hle : start ≤ p) (hq : ix.CodeGap q) :
    ∃ err, entryBefore ix false start q = .error err := by
  obtain @⟨fs, ty, w, g, final, type, name⟩ := h
  obtain ⟨k, hk, hdots, hnil⟩ := joined
  obtain ⟨x, hleft, hname⟩ := hl.of_append
  obtain ⟨o, hfs, hty⟩ := hleft.of_append
  obtain ⟨us, rfl⟩ := List.getLast?_eq_some_iff.mp hk
  obtain ⟨m, hus, hlast⟩ := hty.of_append
  obtain ⟨e, hdot, -, hgap⟩ := hlast.single
  obtain rfl := hgap.mpr hnil
  obtain ⟨y, hword, htrivia, -⟩ := hname.single
  -- The last of the dots stands right before the name.
  have hsplit : ix.CodeChars m e (['.', '.'] ++ ['.']) := by rwa [hdots] at hdot
  obtain ⟨n, hdots', hdot⟩ := hsplit.of_append
  obtain ⟨hchar, hnext⟩ := hdot.single
  have hsn : start ≤ n :=
    Nat.le_trans hle (Nat.le_trans (hfs.le hix) (Nat.le_trans (hus.le hix) hdots'.le))
  have htail := hix.tailBefore_dot hstart hq hword name hchar hnext.symm hsn htrivia
  exact ⟨⟨e⟩, by simp [entryBefore, htail]⟩

/-- What reading a parameter back gives, whatever was read before. -/
theorem entriesBefore_single (h : Written ts a) (hl : ix.Spread p q ts) (apart : Apart ts)
    (hstart : ix.CodeGap start) (hq : ix.CodeGap q) (htrivia : ix.Trivia e p)
    (hbegins : Begins ix start e comma) :
    (¬ a.Joined → ∃ arg, ReadAs a arg ∧ ∀ rest,
        entriesBefore ix false start rest q = continued ix start (arg :: rest) comma) ∧
      (a.Joined → ∃ err, ∀ rest, entriesBefore ix false start rest q = .error err) := by
  refine ⟨fun joined => ?_, fun joined => ?_⟩
  · obtain ⟨us, arg, hus, hentry, hread⟩ := hix.units_written h hl apart joined
    have hok := entryBefore_of_units hix hstart hq (hus.trivia htrivia) hbegins hentry
    exact ⟨arg, hread, fun rest => entriesBefore_of_ok hok⟩
  · have hle := Nat.le_trans hbegins.le (htrivia.le hix)
    obtain ⟨err, herr⟩ := hix.entryBefore_joined h hl joined hstart hle hq
    exact ⟨err, fun rest => entriesBefore_of_error herr⟩

/-- Reading a list back goes over all its parameters, or stops at the last one whose dots touch its
name. -/
theorem entriesBefore_written (h : Listed Written ts as) (hl : ix.Spread p q ts) (apart : Apart ts)
    (hstart : ix.CodeGap start) (hq : ix.CodeGap q) (htrivia : ix.Trivia e p)
    (hbegins : Begins ix start e comma) :
    ((∀ a ∈ as, ¬ a.Joined) → ∃ args, List.Forall₂ ReadAs as args ∧ ∀ rest,
        entriesBefore ix false start rest q = continued ix start (args ++ rest) comma) ∧
      ((∃ a ∈ as, a.Joined) → ∃ err, ∀ rest, entriesBefore ix false start rest q = .error err) := by
  induction h generalizing p e comma with
  | one first =>
    obtain ⟨good, bad⟩ := hix.entriesBefore_single first hl apart hstart hq htrivia hbegins
    refine ⟨fun hnone => ?_, fun hsome => bad (by simpa using hsome)⟩
    obtain ⟨arg, hread, hrest⟩ := good (hnone _ (List.mem_singleton_self _))
    exact ⟨[arg], .cons hread .nil, hrest⟩
  | @comma ts us g a as first rest ih =>
    obtain ⟨k, hfirst, hl⟩ := hl.of_append
    obtain ⟨n, hcomma, hus⟩ := hl.uncons
    obtain ⟨e', hcomma, htrivia', -⟩ := hcomma.single
    obtain ⟨hchar, rfl⟩ := CodeChars.single (c := ',') hcomma
    rw [next_comma hchar] at htrivia'
    obtain ⟨hts, hus'⟩ := apart.of_append
    have hpk := hfirst.le hix
    have hep := htrivia.le hix
    have hse := hbegins.le
    -- The parameters behind the comma are read first.
    have hafter : Begins ix start (k + 1) (some k) := .inr ⟨k, hchar, by omega, rfl, rfl⟩
    obtain ⟨goods, bads⟩ := ih hus hus'.tail htrivia' hafter
    obtain ⟨good, bad⟩ := hix.entriesBefore_single first hfirst hts hstart (hix.codeGap_of_code hchar) htrivia
      hbegins
    refine ⟨fun hnone => ?_, fun hsome => ?_⟩
    · obtain ⟨ha, has⟩ := List.forall_mem_cons.mp hnone
      obtain ⟨args, hargs, hback⟩ := goods has
      obtain ⟨arg, harg, hback'⟩ := good ha
      refine ⟨arg :: args, .cons harg hargs, fun rest => ?_⟩
      rw [hback, continued, hback', List.cons_append]
    · by_cases has : ∃ a ∈ as, a.Joined
      · exact bads has
      · obtain ⟨args, -, hback⟩ := goods (by simpa using has)
        have ha : a.Joined := by
          obtain ⟨b, hb, hjoined⟩ := hsome
          rcases List.mem_cons.mp hb with rfl | hb
          · exact hjoined
          · exact absurd ⟨b, hb, hjoined⟩ has
        obtain ⟨err, herr⟩ := bad ha
        refine ⟨err, fun rest => ?_⟩
        rw [hback, continued, herr]

/-- A list of parameters is read when none of them has dots that touch its name. -/
theorem parse_written (h : Listed Written ts as) (hl : ix.Spread p q ts) (apart : Apart ts)
    (hstart : ix.CodeGap start) (hq : ix.CodeGap q) (htrivia : ix.Trivia start p) :
    ((∀ a ∈ as, ¬ a.Joined) → ∃ args, parse ix false start q = .ok args ∧ List.Forall₂ ReadAs as args) ∧
      ((∃ a ∈ as, a.Joined) → ∃ err, parse ix false start q = .error err) := by
  obtain ⟨k, ks, rfl, -⟩ := h.exists_cons fun _ _ hwritten => hwritten.exists_cons
  obtain ⟨c, hc, solid, hlt⟩ := hl.first hix (List.cons_ne_nil k ks) (Written.valid_listed h)
  have hle := htrivia.le hix
  have more : ¬ ix.Trivia start q := fun hall => by
    have := hix.le_of_trivia hall hc solid hle
    omega
  have hparse : parse ix false start q = entriesBefore ix false start [] q := by
    rw [parse, if_neg fun hskip => more ((skipTriviaBack_le_iff hix hstart hq (by omega)).mp hskip)]
  obtain ⟨good, bad⟩ := hix.entriesBefore_written h hl apart hstart hq htrivia (.inl ⟨rfl, rfl⟩)
  rw [hparse]
  refine ⟨fun hnone => ?_, fun joined => ?_⟩
  · obtain ⟨args, hargs, hread⟩ := good hnone
    exact ⟨args, by rw [hread, continued, List.append_nil], hargs⟩
  · obtain ⟨err, herr⟩ := bad joined
    exact ⟨err, herr []⟩

end IsJava

end Lexed

namespace ArgList

/-- A list of parameters with any white space and any closed comments between its tokens is read exactly
when no dots touch a name, and then every parameter is read with its name and, up to white space, with
its type. -/
theorem parse_parameters_iff (t : Text) (u lead v : List Char) (ts : List Token) (as : List Param)
    (start : (Lexed.ofText t .java).CodeGap (byteLength u))
    (chars : t.chars = u ++ (lead ++ (spell ts ++ v))) (filler : Filler lead) (separated : Separated ts)
    (written : ts = [] ∧ as = [] ∨ Listed Written ts as) :
    let read := parse (.ofText t .java) false (byteLength u) (byteLength (u ++ lead ++ spell ts))
    ((∃ args, read = .ok args) ↔ ∀ a ∈ as, ¬ a.Joined) ∧
      ∀ args, read = .ok args → List.Forall₂ ReadAs as args := by
  have hix := Lexed.isJava_ofText t
  rw [← Lexed.ofText_text t .java] at chars
  generalize Lexed.ofText t .java = ix at hix start chars
  have valid : ∀ k ∈ ts, k.Valid markChars := by
    rcases written with ⟨rfl, -⟩ | listed
    · exact List.forall_mem_nil _
    · exact Written.valid_listed listed
  obtain ⟨htrivia, hgap⟩ := hix.trivia_of_filler filler chars start
  obtain ⟨hl, hstop⟩ := hix.spread_of_append (u := u ++ lead) separated valid (by simpa using chars) hgap
  rcases written with ⟨rfl, rfl⟩ | listed
  · have hparse : parse ix false (byteLength u) (byteLength (u ++ lead)) = .ok [] :=
      parse_trivia hix hgap htrivia
    rw [← hl.nil_iff]
    simp [hparse]
  · obtain ⟨good, bad⟩ := hix.parse_written listed hl separated.apart start hstop htrivia
    by_cases joined : ∃ a ∈ as, a.Joined
    · obtain ⟨err, herr⟩ := bad joined
      rw [herr]
      simpa using joined
    · have hnone : ∀ a ∈ as, ¬ a.Joined := by simpa using joined
      obtain ⟨args, hread, hargs⟩ := good hnone
      rw [hread]
      simpa using ⟨hnone, hargs⟩

/-- A comment is enough between a type and a name, but dots that touch the name are not. -/
theorem parse_parameters_variadic :
    let a : Param := ⟨[⟨['a'], []⟩, token "." [], ⟨['b'], "/*,*/".toList⟩], ['c']⟩
    (∃ args, parse (.ofText (.ofString "(a.b/*,*/c)") .java) false 1 10 = .ok args ∧
        List.Forall₂ ReadAs [a] args) ∧
      ¬ ∃ args, parse (.ofText (.ofString "(a.b/*,*/c, D...e)") .java) false 1 17 = .ok args := by
  intro a
  let d : Param := ⟨[⟨['D'], []⟩, token "..." []], ['e']⟩
  have ha : Written (a.ty ++ [⟨['c'], []⟩]) a :=
    @Written.mk [] _ _ _ (.inl rfl)
      (.simple (.name (.dot (by decide +kernel) (.word (by decide +kernel))))) (by decide +kernel)
  have hd : Written (d.ty ++ [⟨['e'], []⟩]) d :=
    @Written.mk [] _ _ _ (.inl rfl) (.variadic (.simple (.name (.word (by decide +kernel)))))
      (by decide +kernel)
  have hgap : Filler ['/', '*', ',', '*', '/'] := .block (w := [',']) (by decide) .nil
  have hspace : Filler [' '] := .blank (by decide) .nil
  have one := parse_parameters_iff (.ofString "(a.b/*,*/c)") ['('] [] [')'] (a.ty ++ [⟨['c'], []⟩]) [a]
    ⟨by decide +kernel, by decide +kernel⟩ (by decide) .nil
    ⟨by simp [a, token, hgap, Filler.nil], by decide⟩ (.inr (.one ha))
  have two := parse_parameters_iff (.ofString "(a.b/*,*/c, D...e)") ['('] [] [')']
    (a.ty ++ [⟨['c'], []⟩] ++ token "," [' '] :: (d.ty ++ [⟨['e'], []⟩])) [a, d]
    ⟨by decide +kernel, by decide +kernel⟩ (by decide) .nil
    ⟨by simp [a, d, token, hgap, hspace, Filler.nil], by decide⟩ (.inr (.comma ha (.one hd)))
  have hstart : byteLength ['('] = 1 := rfl
  have stop₁ : byteLength (['('] ++ [] ++ spell (a.ty ++ [⟨['c'], []⟩])) = 10 := by decide
  have stop₂ : byteLength (['('] ++ [] ++ spell (a.ty ++ [⟨['c'], []⟩] ++
      token "," [' '] :: (d.ty ++ [⟨['e'], []⟩]))) = 17 := by decide
  rw [hstart, stop₁] at one
  rw [hstart, stop₂] at two
  have apart : ∀ b ∈ [a], ¬ b.Joined := by simp [a, Param.Joined]
  have touching : d.Joined := ⟨token "..." [], rfl, rfl, rfl⟩
  obtain ⟨args, hargs⟩ := one.1.mpr apart
  exact ⟨⟨args, hargs, one.2 args hargs⟩, fun hread => two.1.mp hread d (by simp) touching⟩

end ArgList

end BraceScopes
