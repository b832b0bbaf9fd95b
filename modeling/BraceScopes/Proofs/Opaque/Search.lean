import BraceScopes.Proofs.Lex.Chars
import BraceScopes.Proofs.Opaque.Forward
/-!
Searches for words and characters of code find the same in two texts that differ only inside comments
and literals. A comment that ends right before a word ends with its delimiter, so what it holds does not
decide whether the word begins there.
-/
namespace BraceScopes

open BraceScopes.Lex

namespace Lexed

namespace SameCode

variable {x y : Lexed} {p q limit bound : Nat} {c : Char} {cs : List Char} {pat : Pattern} {m : Span}

theorem codeChars (h : SameCode x y) (hcs : x.CodeChars p q cs) : y.CodeChars p q cs := by
  induction hcs with
  | nil => exact .nil _
  | cons char rest ih => exact .cons (h.codeChar char) (h.next char ▸ ih)

theorem wordAfter (h : SameCode x y) (hlimit : x.CodeGap limit) (hp : x.CodeGap p) :
    (decide (p < limit) && (x.text.charAt p).any isWordChar) =
      (decide (p < limit) && (y.text.charAt p).any isWordChar) := by
  by_cases hlt : p < limit
  · rcases h.at_codeGap hp hlimit hlt with ⟨c, hx, hy, -⟩ | ⟨r, hx, hy, -⟩
    · rw [hx.char, hy.char]
    · obtain ⟨c, hc, hdelim⟩ := (h.left.delimited hx.region).opening
      obtain ⟨d, hd, hdelim'⟩ := (h.right.delimited hy.region).opening
      rw [hx.start] at hc hd
      simp [hc, hd, hdelim.not_isWordChar, hdelim'.not_isWordChar]
  · simp [hlt]

/-- A test of the character before a gap gives the same in both texts, when no delimiter passes it and
code that is no blank stands beside the gap. -/
theorem charBefore_any (h : SameCode x y) (hp : x.CodeGap p) (f : Char → Bool)
    (hf : ∀ c, IsDelimiter c → f c = false)
    (hside : (∃ c, x.CodeChar p c ∧ isBlank c = false) ∨ ∃ a c, x.CodeChar a c ∧ x.text.next a = p) :
    ((x.text.charBefore p).any fun (_, c) => f c) = (y.text.charBefore p).any fun (_, c) => f c := by
  rcases Nat.eq_zero_or_pos p with rfl | hpos
  · rfl
  · rcases h.left.before_codeGap hp hpos with ⟨a, c, hc, hnext⟩ | ⟨a, c, r, hc, hnext, hr, hstop⟩
    · have hy := (h.codeChar hc).charBefore
      rw [← h.next hc, hnext] at hy
      rw [← hnext, hc.charBefore, hnext, hy]
    · obtain ⟨d, hd, hsolid⟩ : ∃ d, x.CodeChar p d ∧ isBlank d = false := by
        refine hside.resolve_right ?_
        rintro ⟨a', c', hc', hnext'⟩
        have hback := hc'.charBefore
        rw [hnext', ← hnext, Text.charBefore_next hc] at hback
        cases hback
        simp [hc'.code] at hr
      obtain ⟨a', c', ha', hr'⟩ := h.right.charBefore_stop (p := a) (by rw [← h.regionAtChar, hr])
      have hx := h.left.isDelimiter_last hc hr (hnext.trans hstop.symm) (hstop ▸ hd.char) hsolid
      rw [hstop] at ha'
      obtain ⟨hc', hnext'⟩ := (Text.charBefore_eq_some (h.codeGap hp).boundary).mp ha'
      have hy := h.right.isDelimiter_last hc' hr' (hnext'.trans hstop.symm)
        (hstop ▸ (h.codeChar hd).char) hsolid
      rw [← hnext, Text.charBefore_next hc, hnext, ha']
      simp [hf c hx, hf c' hy]

theorem wordBoundary (h : SameCode x y) (hlimit : x.CodeGap limit) (hp : x.CodeGap p)
    (hside : (∃ c, x.CodeChar p c ∧ isBlank c = false) ∨ ∃ a c, x.CodeChar a c ∧ x.text.next a = p) :
    Pattern.wordBoundary x.text limit p = Pattern.wordBoundary y.text limit p := by
  unfold Pattern.wordBoundary
  simp only
  rw [h.charBefore_any hp isWordChar (fun _ => IsDelimiter.not_isWordChar) hside,
    h.wordAfter hlimit hp]

/-- A word of a pattern that stands at a place of code stands there in both texts. -/
theorem wordAt (h : SameCode x y) (hlimit : x.CodeGap limit) (hp : x.CodeGap p)
    (hword : ∀ c ∈ cs, isWordChar c = true) (hne : cs ≠ []) (hstarts : x.text.startsWith p cs = true) :
    y.text.startsWith p cs = true ∧ x.CodeGap (p + byteLength cs) ∧
      Pattern.wordBoundary x.text limit p = Pattern.wordBoundary y.text limit p ∧
      Pattern.wordBoundary x.text limit (p + byteLength cs) =
        Pattern.wordBoundary y.text limit (p + byteLength cs) := by
  have hchars := h.left.codeChars_of_startsWith hp hword hstarts
  have hstop := h.left.codeGap_codeChars hchars hp
  obtain ⟨a, c, -, hc, hnext⟩ := hchars.last hne
  have hfirst : ∃ c, x.CodeChar p c ∧ isBlank c = false := by
    obtain ⟨c, hmem, hc⟩ := hchars.first hne
    refine ⟨c, hc, Bool.eq_false_iff.mpr fun hblank => ?_⟩
    simpa [isWordChar_of_isBlank hblank] using hword c hmem
  exact ⟨(h.codeChars hchars).startsWith, hstop, h.wordBoundary hlimit hp (.inl hfirst),
    h.wordBoundary hlimit hstop (.inr ⟨a, c, hc, hnext⟩)⟩

theorem matchAt (h : SameCode x y) (sol : pat.Solid) (hlimit : x.CodeGap limit) (hc : x.CodeChar p c)
    (hm : pat.matchAt? x.text limit p = some q) :
    pat.matchAt? y.text limit p = some q ∧ x.CodeGap q := by
  have hp := h.left.codeGap_of_code hc
  cases pat with
  | words ws =>
    have transfer : ∀ w ∈ ws, x.text.startsWith p w = y.text.startsWith p w := by
      intro w hw
      obtain ⟨hne, hword⟩ := sol w hw
      refine Bool.eq_iff_iff.mpr ⟨fun hs => ?_, fun hs => ?_⟩
      · exact (h.wordAt hlimit hp (fun c hc => (hword c hc).1) hne hs).1
      · exact (h.symm.wordAt (h.codeGap hlimit) (h.codeGap hp) (fun c hc => (hword c hc).1) hne hs).1
    obtain ⟨hbefore, w, hw, hstarts, rfl, hle, hafter⟩ := Pattern.matchAt_words hm
    obtain ⟨hne, hword⟩ := sol w hw
    obtain ⟨-, hgap, hleft, -⟩ := h.wordAt hlimit hp (fun c hc => (hword c hc).1) hne hstarts
    have each : ∀ w ∈ ws,
        (x.text.startsWith p w && decide (p + byteLength w ≤ limit) &&
            Pattern.wordBoundary x.text limit (p + byteLength w)) =
          (y.text.startsWith p w && decide (p + byteLength w ≤ limit) &&
            Pattern.wordBoundary y.text limit (p + byteLength w)) := by
      intro w hw
      obtain ⟨hne, hword⟩ := sol w hw
      rw [← transfer w hw]
      cases hs : x.text.startsWith p w with
      | false => rfl
      | true => rw [(h.wordAt hlimit hp (fun c hc => (hword c hc).1) hne hs).2.2.2]
    refine ⟨?_, hgap⟩
    simp only [Pattern.matchAt?] at hm ⊢
    rw [if_pos hbefore] at hm
    rw [← hleft, if_pos hbefore, ← hm]
    clear hm hbefore hleft transfer hw hstarts hle hafter hgap
    induction ws with
    | nil => rfl
    | cons w ws ih =>
      rw [List.findSome?_cons, List.findSome?_cons, each w (List.mem_cons_self ..),
        ih (fun v hv => sol v (List.mem_cons_of_mem w hv))
          (fun v hv => each v (List.mem_cons_of_mem w hv))]
  | oneOf cs =>
    simp only [Pattern.matchAt?, hc.char, (h.codeChar hc).char] at hm ⊢
    refine ⟨hm, ?_⟩
    obtain ⟨hlt, hm⟩ := Option.ite_none_right_eq_some.mp hm
    simp only [Option.bind_some, Option.ite_none_right_eq_some, Option.some.injEq] at hm
    rw [← hm.2, ← Text.next_of_charAt hc.char]
    exact h.left.codeGap_next hc
  | literal w | wordRun | empty => exact sol.elim

theorem codeMatch (h : SameCode x y) (sol : pat.Solid) (hlimit : x.CodeGap limit)
    (hm : x.CodeMatch pat limit m) :
    y.CodeMatch pat limit m ∧ x.CodeGap m.start ∧ x.CodeGap m.stop := by
  obtain ⟨c, hc⟩ := sol.charAt hm.found
  have hcode := codeChar_of_isCode hc hm.code
  obtain ⟨hfound, hstop⟩ := h.matchAt sol hlimit hcode hm.found
  exact ⟨⟨hfound, (h.codeChar hcode).isCode⟩, h.left.codeGap_of_code hcode, hstop⟩

theorem codeMatch_iff (h : SameCode x y) (sol : pat.Solid) (hlimit : x.CodeGap limit) :
    x.CodeMatch pat limit m ↔ y.CodeMatch pat limit m :=
  ⟨fun hm => (h.codeMatch sol hlimit hm).1, fun hm => (h.symm.codeMatch sol (h.codeGap hlimit) hm).1⟩

theorem searchBack (h : SameCode x y) (sol : pat.Solid) (hp : x.CodeGap p) (bound count : Nat) :
    x.searchBack pat p bound count = y.searchBack pat p bound count := by
  have hmatches : x.codeMatches pat p bound = y.codeMatches pat p bound := by
    refine eq_of_mem_iff (codeMatches_ascending sol) (codeMatches_ascending sol) fun m => ?_
    rw [mem_codeMatches sol, mem_codeMatches sol, h.codeMatch_iff sol hp]
  rw [searchBack_eq sol, searchBack_eq sol, hmatches]

/-- What a search finds begins and ends between characters of code. -/
theorem codeGap_searchBack (h : SameCode x y) (sol : pat.Solid) (hp : x.CodeGap p)
    (hm : x.searchBack pat p bound 1 = some m) : x.CodeGap m.start ∧ x.CodeGap m.stop ∧ m.stop ≤ p := by
  obtain ⟨-, hm, -⟩ := (searchBack_eq_some sol).mp hm
  obtain ⟨-, hstart, hstop⟩ := h.codeMatch sol hp hm
  exact ⟨hstart, hstop, (hm.bounds sol).2⟩

theorem clauseBefore (h : SameCode x y) (sol : pat.Solid) (hp : x.CodeGap p) (bound : Nat) :
    x.clauseBefore? pat p bound = y.clauseBefore? pat p bound := by
  have transfer : ∀ {x y : Lexed} {m : Span}, SameCode x y → x.CodeGap p →
      x.clauseBefore? pat p bound = some m → y.clauseBefore? pat p bound = some m := by
    intro x y m h hp hm
    have hskips : ∀ k, x.CodeMatch pat p k → x.skipsForwardTo p k.stop = y.skipsForwardTo p k.stop :=
      fun k hk => h.skipsForwardTo hp (h.codeMatch sol hp hk).2.2 (hk.bounds sol).2
    obtain ⟨hle, hm, hreach, hlater⟩ := (clauseBefore_eq_some sol).mp hm
    refine (clauseBefore_eq_some sol).mpr ⟨hle, (h.codeMatch sol hp hm).1, ?_, fun k hk hkm hlt => ?_⟩
    · rw [← hskips m hm, hreach]
    · have hkx := (h.codeMatch_iff sol hp).mpr hkm
      rw [← hskips k hkx]
      exact hlater k hk hkx hlt
  exact Option.ext fun m => ⟨transfer h hp, transfer h.symm (h.codeGap hp)⟩

theorem codeGap_clauseBefore (h : SameCode x y) (sol : pat.Solid) (hp : x.CodeGap p)
    (hm : x.clauseBefore? pat p bound = some m) :
    bound ≤ m.start ∧ x.CodeGap m.start ∧ x.CodeGap m.stop ∧ m.stop ≤ p := by
  obtain ⟨hle, hm, -⟩ := (clauseBefore_eq_some sol).mp hm
  obtain ⟨-, hstart, hstop⟩ := h.codeMatch sol hp hm
  exact ⟨hle, hstart, hstop, (hm.bounds sol).2⟩

end SameCode

end Lexed

end BraceScopes
