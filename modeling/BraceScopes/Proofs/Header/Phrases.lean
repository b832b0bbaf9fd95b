import BraceScopes.Proofs.Header.Spread
/-!
The parts of headers as they stand in code: the modifiers and types before a name are a lane, and type
arguments are balanced.
-/
namespace BraceScopes

open Header

namespace Header

variable {r : List String} {ts : List Token} {f : Form} {w : List Char} {s : String} {k : Token}

/-- The tokens of a part of a header: the characters of its marks, and what its words may be besides
words that are not reserved. -/
structure Wording (r extra : List String) (marks : List Char) (ts : List Token) : Prop where
  valid : ∀ k ∈ ts, k.Valid marks
  words : ∀ k ∈ ts, k.isWord = true → String.ofList k.text ∉ r ∨ String.ofList k.text ∈ extra

theorem IsWord.isWord (h : IsWord r w) (g : List Char) : Token.isWord ⟨w, g⟩ = true :=
  List.all_eq_true.mpr h.chars

namespace Wording

variable {extra extra' : List String} {marks marks' : List Char} {us : List Token}

theorem nil : Wording r extra marks [] := ⟨by simp, by simp⟩

theorem append (h : Wording r extra marks ts) (h' : Wording r extra marks us) :
    Wording r extra marks (ts ++ us) :=
  ⟨List.forall_mem_append.mpr ⟨h.valid, h'.valid⟩, List.forall_mem_append.mpr ⟨h.words, h'.words⟩⟩

theorem cons (hk : Wording r extra marks [k]) (h : Wording r extra marks ts) :
    Wording r extra marks (k :: ts) :=
  hk.append h

theorem mono (h : Wording r extra marks ts) (hextra : extra ⊆ extra') (hmarks : marks ⊆ marks') :
    Wording r extra' marks' ts :=
  ⟨fun k hk => ⟨(h.valid k hk).nonempty, (h.valid k hk).chars.imp_right fun hall c hc => hmarks (hall c hc)⟩,
    fun k hk hword => (h.words k hk hword).imp_right (hextra ·)⟩

/-- The tokens stand in code as the marks of headers do. -/
theorem valid_marks (h : Wording r extra marks ts) (hmarks : marks ⊆ markChars) :
    ∀ k ∈ ts, k.Valid markChars :=
  (h.mono (List.Subset.refl extra) hmarks).valid

theorem word (h : IsWord r w) (g : List Char) : Wording r extra marks [⟨w, g⟩] := by
  refine ⟨?_, ?_⟩
  · simpa using ⟨h.nonempty, .inl h.chars⟩
  · simpa using fun _ => .inl h.free

theorem mark (hne : s.toList ≠ []) (h : ∀ c ∈ s.toList, c ∈ marks ∧ isNameChar c = false) (g : List Char) :
    Wording r extra marks [token s g] := by
  refine ⟨by simpa using ⟨hne, .inr fun c hc => (h c hc).1⟩, ?_⟩
  intro k hk hword
  obtain rfl := List.mem_singleton.mp hk
  obtain ⟨c, hc⟩ := List.exists_mem_of_ne_nil _ hne
  have hname := List.all_eq_true.mp hword c hc
  simp [(h c hc).2] at hname

theorem keyword (hne : s.toList ≠ []) (h : ∀ c ∈ s.toList, isNameChar c = true) (hs : s ∈ extra)
    (g : List Char) : Wording r extra marks [token s g] := by
  refine ⟨by simpa using ⟨hne, .inl h⟩, ?_⟩
  simpa [token] using fun _ => .inr hs

theorem not_mem {ws : List (List Char)} (h : Wording r extra marks ts)
    (hws : ∀ w ∈ ws, String.ofList w ∈ r ∧ String.ofList w ∉ extra) :
    ∀ k ∈ ts, k.isWord = true → k.text ∉ ws := by
  intro k hk hword hmem
  obtain ⟨hin, hnot⟩ := hws k.text hmem
  exact (h.words k hk hword).elim (· hin) hnot

end Wording

/-- The characters of the marks of types. -/
def typeMarks : List Char := ['.', ',', '<', '>', '[', ']', '&', '?']

theorem Name.wording (h : Name r ts) : Wording r [] ['.'] ts := by
  induction h with
  | word word => exact .word word _
  | dot word rest ih => exact .cons (.word word _) (.cons (.mark (by decide) (by decide) _) ih)

theorem Name.exists_concat (h : Name r ts) : ∃ us w g, ts = us ++ [⟨w, g⟩] ∧ IsWord r w := by
  induction h with
  | word word => exact ⟨[], _, _, rfl, word⟩
  | dot word rest ih =>
    obtain ⟨us, w, g, rfl, word⟩ := ih
    exact ⟨_ :: _ :: us, w, g, rfl, word⟩

theorem Phrase.wording (h : Phrase r f ts) : Wording r ["extends", "super"] typeMarks ts := by
  have mark : ∀ {s : String} (g : List Char), s.toList ≠ [] →
      (∀ c ∈ s.toList, c ∈ typeMarks ∧ isNameChar c = false) →
      Wording r ["extends", "super"] typeMarks [token s g] := fun g hne h => .mark hne h g
  have named : ∀ {ts : List Token}, Name r ts → Wording r ["extends", "super"] typeMarks ts :=
    fun name => name.wording.mono (by simp) (by simp [typeMarks])
  induction h with
  | name name => exact named name
  | generic name arguments ih =>
    exact ((named name).append (.cons (mark _ (by decide) (by decide)) ih)).append (mark _ (by decide) (by decide))
  | simple type ih => exact ih
  | array type ih => exact ih.append (.cons (mark _ (by decide) (by decide)) (mark _ (by decide) (by decide)))
  | variadic type ih => exact ih.append (mark _ (by decide) (by decide))
  | bound type ih => exact ih
  | both type rest ih ihr => exact ih.append (.cons (mark _ (by decide) (by decide)) ihr)
  | type type ih => exact ih
  | wildcard => exact mark _ (by decide) (by decide)
  | @bounded k s g ts head keyword bounds ih =>
    have hkeyword : Wording r ["extends", "super"] typeMarks [token s g] := by
      rcases keyword with rfl | rfl
      · exact .keyword (by decide) (by decide) (by decide) g
      · exact .keyword (by decide) (by decide) (by decide) g
    obtain ⟨text, gap⟩ := k
    rcases head with rfl | word
    · exact .cons (.mark (s := "?") (by decide) (by decide) gap) (.cons hkeyword ih)
    · exact .cons (.word word gap) (.cons hkeyword ih)
  | one argument ih => exact ih
  | comma argument rest ih ihr => exact ih.append (.cons (mark _ (by decide) (by decide)) ihr)

theorem TypeParameters.wording (h : TypeParameters r ts) :
    Wording r ["extends", "super"] typeMarks ts := by
  cases h with
  | nil => exact .nil
  | some arguments =>
    exact (Wording.cons (.mark (by decide) (by decide) _) arguments.wording).append
      (.mark (by decide) (by decide) _)

theorem Modifiers.wording (h : Modifiers r ts) : Wording r [] ['.', '@'] ts := by
  induction h with
  | nil => exact .nil
  | word word rest ih => exact .cons (.word word _) ih
  | annotated name rest ih =>
    exact (Wording.cons (.mark (by decide) (by decide) _) (name.wording.mono (by simp) (by simp))).append ih

theorem Listed.wording {α : Type} {item : List Token → α → Prop} {as : List α} {extra : List String}
    {marks : List Char} (hcomma : ',' ∈ marks) (each : ∀ ts a, item ts a → Wording r extra marks ts)
    (h : Listed item ts as) : Wording r extra marks ts := by
  induction h with
  | one first => exact each _ _ first
  | comma first rest ih =>
    refine (each _ _ first).append (.cons (.mark (by decide) ?_ _) ih)
    simpa using ⟨hcomma, by decide⟩

end Header

namespace Lexed

variable {ix : Lexed} {p q o k h x : Nat} {c a : Char} {r extra : List String} {marks : List Char}
  {ts us : List Token} {j i : Token} {f : Form}

/-- A character among some tokens. -/
theorem Spread.char_cases (hix : ix.IsJava) (hl : ix.Spread p q ts) (hw : Wording r extra marks ts)
    (hc : ix.CodeChar x c) (hpx : p ≤ x) (hxq : x < q) :
    isBlank c = true ∨ isNameChar c = true ∨ c ∈ marks := by
  refine or_iff_not_imp_left.mpr fun hblank => ?_
  obtain ⟨k, hk, hmem⟩ := hl.exists_mem hix hc (Bool.eq_false_iff.mpr hblank) hpx hxq
  exact (hw.valid k hk).chars.imp (· c hmem) (· c hmem)

/-- Marks that some tokens do not have are not found among them. -/
theorem Spread.not_oneOf (hix : ix.IsJava) (hl : ix.Spread p q ts) (hw : Wording r extra marks ts)
    {cs : List Char}
    (hcs : ∀ c ∈ cs, isBlank c = false ∧ isNameChar c = false ∧ c ∉ marks) (hc : ix.CodeChar x c)
    (hpx : p ≤ x) (hxq : x < q) : c ∉ cs := by
  intro hmem
  obtain ⟨hblank, hname, hmark⟩ := hcs c hmem
  rcases hl.char_cases hix hw hc hpx hxq with h | h | h
  · simp [hblank] at h
  · simp [hname] at h
  · exact hmark h

theorem Lane.balanced (hix : ix.IsJava) (hl : ix.Lane p q) : ix.Balanced p q := by
  induction hl with
  | nil trivia => exact trivia.balanced
  | trivia trivia rest ih => exact trivia.balanced.trans ih
  | ident char ident rest ih =>
    exact .char char (isPlain_of_ident (isTypeIdentChar_of_isIdentChar hix.rules ident)) ih
  | group group kind rest ih =>
    obtain ⟨c, hc, pair⟩ := group.closer
    exact .group group.opener group.inner hc pair ih

/-- Tokens without brackets are a lane, if they are words, dots and at signs. -/
theorem IsJava.lane_flat (hix : ix.IsJava) (hl : ix.Spread p q ts)
    (hflat : ∀ k ∈ ts, ∀ c ∈ k.text, isNameChar c = true ∨ c = '.' ∨ c = '@') : ix.Lane p q := by
  induction hl with
  | nil p => exact .nil (.nil p)
  | cons text trivia gap rest ih =>
    obtain ⟨hk, hts⟩ := List.forall_mem_cons.mp hflat
    refine (text.lane fun c hc => .inr ?_).trans (.trivia trivia (ih hts))
    rcases hk c hc with hname | rfl | rfl
    · exact hix.isIdentChar_of_name hname
    · rw [isIdentChar, hix.rules]
      decide
    · rw [isIdentChar, hix.rules]
      decide

/-- A bracket, balanced code and its partner, each with trivia after it. -/
theorem group_of_codeChars {b d e m : Nat} (opener : ix.CodeChars p b [a]) (before : ix.Trivia b d)
    (inner : ix.Balanced d e) (closer : ix.CodeChars e m [c]) (after : ix.Trivia m q)
    (pair : groupOpenerOf c = some a) :
    ix.Trivia (p + 1) d ∧ ix.Group a p e ∧ ix.CodeChar e c ∧ ix.Trivia (e + 1) q := by
  obtain ⟨hopener, rfl⟩ := opener.single
  obtain ⟨hcloser, rfl⟩ := closer.single
  rw [hopener.next_opener pair] at before
  rw [hcloser.next_closer pair] at after
  exact ⟨before, ⟨hopener, before.balanced.trans inner, c, hcloser, pair⟩, hcloser, after⟩

/-- A bracket, balanced code and its partner, as tokens with white space between them. -/
theorem Laid.group (hl : ix.Laid p q (j :: ts ++ [i])) (hj : j.text = [a]) (hi : i.text = [c])
    (pair : groupOpenerOf c = some a) (inner : ∀ p q, ix.Laid p q ts → ix.Balanced p q) :
    ∃ o k, ix.Trivia (p + 1) o ∧ ix.Laid o k ts ∧ ix.Group a p k ∧ ix.CodeChar k c ∧
      ix.Trivia (k + 1) q := by
  obtain ⟨k, hfirst, hlast⟩ := hl.of_append
  obtain ⟨e, o, hopen, -, htrivia, hts⟩ := hfirst.of_cons
  obtain ⟨e', m, hclose, -, htrivia', hnil⟩ := hlast.of_cons
  obtain rfl := hnil.nil_iff
  obtain ⟨hbefore, hgroup, hcloser, hafter⟩ :=
    group_of_codeChars (hj ▸ hopen) htrivia (inner o k hts) (hi ▸ hclose) htrivia' pair
  exact ⟨o, k, hbefore, hts, hgroup, hcloser, hafter⟩

theorem Spread.group (hl : ix.Spread p q (j :: ts ++ [i])) (hj : j.text = [a]) (hi : i.text = [c])
    (pair : groupOpenerOf c = some a) (inner : ∀ p q, ix.Spread p q ts → ix.Balanced p q) :
    ∃ k, ix.Group a p k ∧ ix.Trivia (k + 1) q := by
  obtain ⟨k, hfirst, hlast⟩ := hl.of_append
  obtain ⟨o, hopen, hts⟩ := hfirst.uncons
  obtain ⟨e, hopen, htrivia, -⟩ := hopen.single
  obtain ⟨e', hclose, htrivia', -⟩ := hlast.single
  obtain ⟨-, hgroup, -, hafter⟩ :=
    group_of_codeChars (hj ▸ hopen) htrivia (inner o k hts) (hi ▸ hclose) htrivia' pair
  exact ⟨k, hgroup, hafter⟩

/-- Names and types are a lane, and what they are made of is balanced. -/
theorem IsJava.lane_name (hix : ix.IsJava) (hn : Name r ts) (hl : ix.Spread p q ts) : ix.Lane p q := by
  refine hix.lane_flat hl ?_
  clear hl
  induction hn with
  | word word =>
    intro k hk c hc
    obtain rfl := List.mem_singleton.mp hk
    exact .inl (word.chars c hc)
  | dot word rest ih =>
    refine List.forall_mem_cons.mpr ⟨fun c hc => .inl (word.chars c hc),
      List.forall_mem_cons.mpr ⟨fun c hc => ?_, ih⟩⟩
    obtain rfl := List.mem_singleton.mp hc
    exact .inr (.inl rfl)

/-- Tokens without brackets are balanced. -/
theorem Spread.balanced_flat (hl : ix.Spread p q ts) (hflat : ∀ k ∈ ts, ∀ c ∈ k.text, IsPlain c) :
    ix.Balanced p q := by
  induction hl with
  | nil p => exact .nil p
  | cons text trivia gap rest ih =>
    obtain ⟨hk, hts⟩ := List.forall_mem_cons.mp hflat
    exact ((text.balanced hk).trans trivia.balanced).trans (ih hts)

theorem isPlain_of_isNameChar (hc : isNameChar c = true) : IsPlain c :=
  isPlain_of_class (f := isNameChar) (by decide) hc

theorem Laid.balanced_wording (hl : ix.Laid p q ts) (hw : Wording r extra marks ts)
    (hmarks : ∀ c ∈ marks, IsPlain c) : ix.Balanced p q := by
  refine hl.spread.balanced_flat fun k hk c hc => ?_
  rcases (hw.valid k hk).chars with hname | hmark
  · exact isPlain_of_isNameChar (hname c hc)
  · exact hmarks c (hmark c hc)

theorem Laid.balanced_listed {α : Type} {item : List Token → α → Prop} {as : List α}
    (hl : ix.Laid p q ts) (h : Listed item ts as)
    (each : ∀ p q ts a, item ts a → ix.Laid p q ts → ix.Balanced p q) : ix.Balanced p q := by
  induction h generalizing p with
  | one first => exact each p q _ _ first hl
  | comma first rest ih =>
    obtain ⟨m, hfirst, hl⟩ := hl.of_append
    obtain ⟨n, hcomma, hrest⟩ := hl.uncons
    exact ((each p m _ _ first hfirst).trans (hcomma.spread.balanced_flat (by simp [token]; decide))).trans
      (ih hrest)

/-- Two balanced phrases are balanced with a mark between them. -/
theorem Spread.balanced_joined {us : List Token} {s : String} {g : List Char}
    (hl : ix.Spread p q (ts ++ token s g :: us)) (hplain : ∀ c ∈ s.toList, IsPlain c)
    (left : ∀ p q, ix.Spread p q ts → ix.Balanced p q)
    (right : ∀ p q, ix.Spread p q us → ix.Balanced p q) : ix.Balanced p q := by
  obtain ⟨m, hleft, hl⟩ := hl.of_append
  obtain ⟨n, hmark, hright⟩ := hl.uncons
  have mark : ix.Balanced m n := hmark.balanced_flat (by simpa [token] using hplain)
  exact ((left p m hleft).trans mark).trans (right n q hright)

/-- Types are a lane, and phrases of every form are balanced. -/
theorem IsJava.phrase (hix : ix.IsJava) (hp : Phrase r f ts) :
    ∀ p q, ix.Spread p q ts → ix.Balanced p q ∧ (f = .simple ∨ f = .type → ix.Lane p q) := by
  have of_lane : ∀ {f : Form} {p q : Nat}, ix.Lane p q →
      ix.Balanced p q ∧ (f = .simple ∨ f = .type → ix.Lane p q) :=
    fun hl => ⟨hl.balanced hix, fun _ => hl⟩
  have of_balanced : ∀ {f : Form} {p q : Nat}, f ≠ .simple → f ≠ .type → ix.Balanced p q →
      ix.Balanced p q ∧ (f = .simple ∨ f = .type → ix.Lane p q) :=
    fun hs ht hb => ⟨hb, fun h => (h.elim hs ht).elim⟩
  induction hp with
  | name name => exact fun p q hl => of_lane (hix.lane_name name hl)
  | generic name arguments ih =>
    intro p q hl
    rw [List.append_assoc] at hl
    obtain ⟨m, hname, hgroup⟩ := hl.of_append
    obtain ⟨k, hgroup, htrivia⟩ := hgroup.group rfl rfl rfl fun p q hl => (ih p q hl).1
    exact of_lane ((hix.lane_name name hname).trans (.group hgroup (.inl rfl) (.nil htrivia)))
  | simple type ih => exact fun p q hl => of_lane ((ih p q hl).2 (.inl rfl))
  | array type ih =>
    intro p q hl
    obtain ⟨m, htype, hgroup⟩ := hl.of_append
    obtain ⟨k, hgroup, htrivia⟩ :=
      Spread.group (show ix.Spread m q (token "[" _ :: [] ++ [token "]" _]) from hgroup) rfl rfl rfl
        fun p q hl => hl.nil_iff ▸ .nil p
    exact of_lane (((ih p m htype).2 (.inr rfl)).trans (.group hgroup (.inr rfl) (.nil htrivia)))
  | variadic type ih =>
    intro p q hl
    obtain ⟨m, htype, hdots⟩ := hl.of_append
    refine of_lane (((ih p m htype).2 (.inr rfl)).trans (hix.lane_flat hdots ?_))
    simp [token]
  | bound type ih => exact fun p q hl => of_balanced nofun nofun (ih p q hl).1
  | both type rest ih ihr =>
    intro p q hl
    exact of_balanced nofun nofun (hl.balanced_joined (by decide) (fun p q hl => (ih p q hl).1)
      fun p q hl => (ihr p q hl).1)
  | type type ih => exact fun p q hl => of_balanced nofun nofun (ih p q hl).1
  | wildcard =>
    exact fun p q hl => of_balanced nofun nofun (hl.balanced_flat (by simp [token]; decide))
  | @bounded k s g ts head keyword bounds ih =>
    intro p q hl
    have hl : ix.Spread p q ([k] ++ token s g :: ts) := hl
    refine of_balanced nofun nofun (hl.balanced_joined ?_ (fun p q hl => ?_) fun p q hl => (ih p q hl).1)
    · rcases keyword with rfl | rfl <;> decide
    · refine hl.balanced_flat fun k' hk' c hc => ?_
      obtain rfl := List.mem_singleton.mp hk'
      rcases head with htext | word
      · rw [htext] at hc
        obtain rfl := List.mem_singleton.mp hc
        decide
      · exact isPlain_of_isNameChar (word.chars c hc)
  | one argument ih => exact fun p q hl => of_balanced nofun nofun (ih p q hl).1
  | comma argument rest ih ihr =>
    intro p q hl
    exact of_balanced nofun nofun (hl.balanced_joined (by decide) (fun p q hl => (ih p q hl).1)
      fun p q hl => (ihr p q hl).1)

theorem IsJava.lane_typeParameters (hix : ix.IsJava) (hp : TypeParameters r ts) (hl : ix.Laid p q ts) :
    ix.Lane p q := by
  cases hp with
  | nil =>
    rw [hl.nil_iff]
    exact .nil (.nil q)
  | some arguments =>
    obtain ⟨o, k, -, -, hgroup, -, htrivia⟩ :=
      hl.group rfl rfl rfl fun p q hl => (hix.phrase arguments p q hl.spread).1
    exact .group hgroup (.inl rfl) (.nil htrivia)

theorem IsJava.lane_modifiers (hix : ix.IsJava) (hm : Modifiers r ts) (hl : ix.Laid p q ts) :
    ix.Lane p q := by
  induction hm generalizing p with
  | nil =>
    rw [hl.nil_iff]
    exact .nil (.nil q)
  | word word rest ih =>
    obtain ⟨m, hword, hrest⟩ := hl.uncons
    exact (hix.lane_name (.word word) hword.spread).trans (ih hrest)
  | annotated name rest ih =>
    obtain ⟨m, hfirst, hrest⟩ := hl.of_append
    obtain ⟨n, hat, hname⟩ := hfirst.uncons
    exact ((hix.lane_flat hat.spread (by simp [token])).trans (hix.lane_name name hname.spread)).trans (ih hrest)

end Lexed

end BraceScopes
