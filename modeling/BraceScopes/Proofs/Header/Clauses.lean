import BraceScopes.Proofs.Detect.Cases
import BraceScopes.Proofs.Header.Lists
import BraceScopes.Proofs.Header.Words
import BraceScopes.Proofs.Scan.Reach
/-!
The clauses of a type header are taken off from the right. A clause keyword inside type arguments is
told apart, because the walk from it does not lead out of the brackets.
-/
namespace BraceScopes

open Header ArgList

namespace Header

variable {r : List String} {ts : List Token} {types : List (List Token)}

/-- A clause is made of these types. -/
theorem wording_types (h : Listed (fun ts type => Phrase r .simple ts ∧ type = ts) ts types) :
    Wording r ["extends", "super"] typeMarks ts :=
  h.wording (by decide) fun _ _ htype => htype.1.wording

theorem Clauses.wording (h : Clauses ts) :
    Wording typeWords ["extends", "super", "implements", "permits"] typeMarks ts := by
  induction h with
  | nil => exact .nil
  | clause before keyword types ih =>
    refine ih.append (.cons ?_ ((wording_types types).mono (by simp) (List.Subset.refl _)))
    rcases keyword with rfl | rfl | rfl <;> exact .keyword (by decide) (by decide) (by decide) _

end Header

namespace Lexed

variable {ix : Lexed} {p q e h b k o x y n bound target : Nat} {c a : Char} {w : List Char}
  {ws : List (List Char)} {r : List String} {ts us ps front : List Token} {types : List (List Token)}

namespace IsJava

variable (hix : ix.IsJava)

include hix

/-- From a word inside brackets the walk does not lead out of them. -/
theorem skipsForwardTo_group (hg : ix.Group a o k) (hk : k < target) (hw : ix.WordAt target x y w)
    (hox : o ≤ x) (hxk : x ≤ k) : ix.skipsForwardTo target y = false := by
  obtain ⟨c, hc, hname⟩ := hw.first
  obtain ⟨d, hd, pair⟩ := hg.closer
  have hlt := hw.chars.lt hw.nonempty
  have bracket : ∀ {i : Nat} {b : Char}, ix.CodeChar i b → ¬ IsPlain b → ∀ c, ix.CodeChar i c →
      isNameChar c ≠ true := by
    intro i b hb hnot c hc hname
    obtain rfl := hb.unique hc
    exact hnot (isPlain_of_isNameChar hname)
  have hopen : ¬ IsPlain a := fun h => by simpa [h.2.2] using isGroupOpener_of_pair pair
  have hclose : ¬ IsPlain d := fun h => by simp [h.2.1] at pair
  have hox' : o + 1 ≤ x := Nat.lt_of_le_of_ne hox fun heq => bracket hg.opener hopen c (heq ▸ hc) hname
  have hyk : y ≤ k := by
    refine Nat.le_of_not_lt fun hky => ?_
    obtain ⟨c', hmem', hc'⟩ := hw.chars.exists_at (Text.isBoundary_of_charAt hd.char) hxk hky
    exact bracket hd hclose c' hc' (hw.name c' hmem')
  have hy := hix.codeGap_codeChars hw.chars (hix.codeGap_of_code hc)
  rcases hg.inner.split hix hy (by omega) hyk with hrest | ⟨k', d', a', hrest, hd', pair', hlt'⟩
  · exact hix.skipsForwardTo_closer hrest hd pair hk
  · exact hix.skipsForwardTo_closer hrest hd' pair' (by omega)

/-- In a name with type arguments no clause begins. -/
theorem skipsForwardTo_generic (hname : ix.Laid p o ts) (hts : ∀ k ∈ ts, k.isWord = true → k.text ∉ ws)
    (hps : TypeParameters r ps) (hl : ix.Laid o q ps) (hq : q ≤ target)
    (hend : q = target ∨ ∃ c, ix.CodeChar q c ∧ isNameChar c = false) (hw : ix.WordAt target x y w)
    (hmem : w ∈ ws) (hpx : p ≤ x) (hxq : x < q) : ix.skipsForwardTo target y = false := by
  have hoq := hl.le
  cases hps with
  | nil =>
    obtain rfl := hl.nil_iff
    obtain ⟨j, hj, hisWord, htext⟩ := hname.exists_token hix hw hpx hxq hq hend
    exact absurd (htext ▸ hmem) (hts j hj hisWord)
  | some arguments =>
    obtain ⟨o', k, -, -, hgroup, hcloser, htrivia⟩ :=
      hl.group rfl rfl rfl fun p q hl => (hix.phrase arguments p q hl.spread).1
    have hkq := htrivia.le hix
    rcases Nat.lt_or_ge x o with hxo | hox
    · obtain ⟨j, hj, hisWord, htext⟩ := hname.exists_token hix hw hpx hxo (Nat.le_trans hoq hq)
        (.inr ⟨'<', hgroup.opener, by decide⟩)
      exact absurd (htext ▸ hmem) (hts j hj hisWord)
    · refine hix.skipsForwardTo_group hgroup (by omega) hw hox (Nat.le_of_not_lt fun hkx => ?_)
      have := hw.le_of_trivia hix htrivia hkx
      omega

theorem skipsForwardTo_simple (h : Phrase r .simple ts) (hr : ∀ w ∈ ws, String.ofList w ∈ r)
    (hl : ix.Laid p q ts) (hq : q ≤ target)
    (hend : q = target ∨ ∃ c, ix.CodeChar q c ∧ isNameChar c = false) (hw : ix.WordAt target x y w)
    (hmem : w ∈ ws) (hpx : p ≤ x) (hxq : x < q) : ix.skipsForwardTo target y = false := by
  have free : ∀ {ts : List Token}, Name r ts → ∀ k ∈ ts, k.isWord = true → k.text ∉ ws :=
    fun name => name.wording.not_mem fun w hw => ⟨hr w hw, by simp⟩
  cases h with
  | name name =>
    rw [← List.append_nil ts] at hl
    obtain ⟨o, hname, hnil⟩ := hl.of_append
    exact hix.skipsForwardTo_generic hname (free name) (r := r) .nil hnil hq hend hw hmem hpx hxq
  | generic name arguments =>
    rw [List.append_assoc] at hl
    obtain ⟨o, hname, hgroup⟩ := hl.of_append
    exact hix.skipsForwardTo_generic hname (free name) (.some arguments) hgroup hq hend hw hmem hpx hxq

/-- In a list of types no clause begins. -/
theorem skipsForwardTo_listed (h : Listed (fun ts type => Phrase r .simple ts ∧ type = ts) ts types)
    (hr : ∀ w ∈ ws, String.ofList w ∈ r) (hl : ix.Laid p target ts) (hw : ix.WordAt target x y w)
    (hmem : w ∈ ws) (hpx : p ≤ x) : ix.skipsForwardTo target y = false := by
  have hlt := hw.chars.lt hw.nonempty
  have hle := hw.le
  induction h generalizing p with
  | one first =>
    exact hix.skipsForwardTo_simple first.1 hr hl (Nat.le_refl _) (.inl rfl) hw hmem hpx (by omega)
  | comma first rest ih =>
    obtain ⟨k, hfirst, hl⟩ := hl.of_append
    have hkt := hl.le
    obtain ⟨e, n, hcomma, -, htrivia, hl⟩ := hl.of_cons
    obtain ⟨hchar, rfl⟩ := CodeChars.single (c := ',') hcomma
    rcases Nat.lt_trichotomy x k with hxk | rfl | hkx
    · exact hix.skipsForwardTo_simple first.1 hr hfirst hkt (.inr ⟨',', hchar, by decide⟩) hw hmem hpx hxk
    · obtain ⟨c, hc, hname⟩ := hw.first
      obtain rfl := hc.unique hchar
      exact absurd hname (by decide)
    · rw [next_comma hchar] at htrivia
      exact ih hl (hw.le_of_trivia hix htrivia hkx)

theorem balanced_clauses (h : Clauses ts) (hl : ix.Laid p q ts) : ix.Balanced p q := by
  induction h generalizing q with
  | nil => exact hl.nil_iff ▸ .nil p
  | clause before keyword listed ih =>
    obtain ⟨x, hbefore, hl⟩ := hl.of_append
    obtain ⟨n, hkeyword, hlisted⟩ := hl.uncons
    refine ((ih hbefore).trans (hkeyword.spread.balanced_flat ?_)).trans
      (hlisted.balanced_listed listed fun p q ts type h hl => (hix.phrase h.1 p q hl.spread).1)
    rcases keyword with rfl | rfl | rfl <;> simp [token] <;> decide

/-- Taking off the clauses leads to what stands before them. -/
theorem headerEnd_clauses (h : Clauses ts) (hfront : ix.Laid p e front) (hl : ix.Laid p b (front ++ ts))
    (hp : ix.CodeGap p) (hbreaks : ix.Breaks p) (hbound : bound ≤ e) :
    Detect.headerEnd ix bound b = Detect.headerEnd ix bound e := by
  induction h generalizing b with
  | nil =>
    rw [List.append_nil] at hl
    rw [hl.chars.stop_eq, hfront.chars.stop_eq]
  | @clause ts us s g types before keyword listed ih =>
    have hkeyword : s.toList ∈ ["extends".toList, "implements".toList, "permits".toList] := by
      rcases keyword with rfl | rfl | rfl <;> decide
    rw [← List.append_assoc] at hl
    obtain ⟨x, y, n, hbefore, htext, -, htrivia, hus, -, hmatch⟩ :=
      hix.match_of_laid Pattern.solid_typeClause (by decide) hl hkeyword hbreaks
    have hex : e ≤ x := by
      have := hbefore.chars.stop_eq
      have := hfront.chars.stop_eq
      rw [spell_append, byteLength_append] at *
      omega
    obtain ⟨uss, huss, -⟩ := entries_listed (R := fun _ _ => True) (fun p q ts type h hl => by
      obtain ⟨us, hus, -⟩ := hix.units_of_lane ((hix.phrase h.1 p q hl.spread).2 (.inl rfl))
      exact ⟨us, hus, trivial⟩) listed hus
    have hclause : ix.clauseBefore? .typeClause b bound = some ⟨x, y⟩ := by
      refine (clauseBefore_eq_some Pattern.solid_typeClause).mpr ⟨by simp only; omega, hmatch,
        hix.skipsForwardTo_entries (huss.trivia htrivia) (hix.codeGap_laid hl hp), fun m hle hm hlt => ?_⟩
      have hym := Pattern.Solid.separate Pattern.solid_typeClause hmatch.found hm.found hlt
      obtain ⟨w, hw, hword⟩ := hix.wordAt_of_match Pattern.solid_typeClause (by decide) hm
      exact hix.skipsForwardTo_listed listed (by decide) hus hword hw
        (hword.le_of_trivia hix htrivia hym)
    have hxb : x < b := by
      have := htext.le
      have := hmatch.bounds Pattern.solid_typeClause
      simp only at this
      omega
    rw [Detect.headerEnd, hclause]
    simp only [hxb, ↓reduceIte]
    exact ih hbefore

/-- A name with its type parameters has no clauses. -/
theorem headerEnd_generic (hname : ix.Laid n o ts) (hts : ∀ k ∈ ts, k.isWord = true → k.text ∉
      ["extends".toList, "implements".toList, "permits".toList])
    (hps : TypeParameters r ps) (hl : ix.Laid o e ps) (htrivia : ix.Trivia bound n) :
    Detect.headerEnd ix bound e = e := by
  have hnone : ix.clauseBefore? .typeClause e bound = none := by
    refine (clauseBefore_eq_none Pattern.solid_typeClause).mpr fun m hle hm => ?_
    obtain ⟨w, hw, hword⟩ := hix.wordAt_of_match Pattern.solid_typeClause (by decide) hm
    have hn := hword.le_of_trivia hix htrivia hle
    have hlt := hword.chars.lt hword.nonempty
    have hwe := hword.le
    exact hix.skipsForwardTo_generic hname hts hps hl (Nat.le_refl e) (.inl rfl) hword hw hn (by omega)
  rw [Detect.headerEnd, hnone]

end IsJava

end Lexed

end BraceScopes
