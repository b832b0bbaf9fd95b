import BraceScopes.Proofs.Lex.Chars
import BraceScopes.Proofs.Scan.Search
import BraceScopes.Detect.Keyword
import Mathlib.Data.List.Sort
/-!
Searches for words and single characters find all their matches. No match of such a pattern begins
inside another, so it does not matter where a search begins, and the windows of the backward search
find what one search over the whole stretch would.
-/
namespace BraceScopes

namespace Pattern

/-- Words of one-byte word characters, or single characters of one byte. -/
def Solid : Pattern → Prop
  | .words ws => ∀ w ∈ ws, w ≠ [] ∧ ∀ c ∈ w, isWordChar c = true ∧ c.utf8Size = 1
  | .oneOf cs => ∀ c ∈ cs, c.utf8Size = 1
  | _ => False

theorem solid_typeKeyword : typeKeyword.Solid := by
  simp only [Solid, typeKeyword]
  decide

theorem solid_typeClause : typeClause.Solid := by
  simp only [Solid, typeClause]
  decide

theorem solid_throwsClause : throwsClause.Solid := by
  simp only [Solid, throwsClause]
  decide

theorem solid_closeParen : closeParen.Solid := by
  simp only [Solid, closeParen]
  decide

theorem solid_declarationBoundary : declarationBoundary.Solid := by
  simp only [Solid, declarationBoundary]
  decide

theorem solid_abstractKeyword : abstractKeyword.Solid := by
  simp only [Solid, abstractKeyword]
  decide

theorem solid_memberEnd : memberEnd.Solid := by
  simp only [Solid, memberEnd]
  decide

theorem solid_semicolon : semicolon.Solid := by
  simp only [Solid, semicolon]
  decide

/-- The words and characters that code is searched for. -/
def searched : List Pattern :=
  [typeKeyword, typeClause, throwsClause, abstractKeyword, closeParen, declarationBoundary, memberEnd,
    semicolon]

theorem solid_of_mem_searched {pat : Pattern} (h : pat ∈ searched) : pat.Solid := by
  simp only [searched, List.mem_cons, List.not_mem_nil, or_false] at h
  rcases h with rfl | rfl | rfl | rfl | rfl | rfl | rfl | rfl
  · exact solid_typeKeyword
  · exact solid_typeClause
  · exact solid_throwsClause
  · exact solid_abstractKeyword
  · exact solid_closeParen
  · exact solid_declarationBoundary
  · exact solid_memberEnd
  · exact solid_semicolon

variable {t : Text} {pat : Pattern} {limit p q i j : Nat} {m : Span}

theorem Solid.token (h : pat.Solid) : pat.Token := by
  cases pat with
  | words ws => exact fun hnil => (h [] hnil).1 rfl
  | oneOf cs => exact h
  | literal w | wordRun | empty => exact h

theorem matchAt_words {ws : List (List Char)} :
    (words ws).matchAt? t limit p = some q → wordBoundary t limit p = true ∧
      ∃ w ∈ ws, t.startsWith p w = true ∧ q = p + byteLength w ∧ q ≤ limit ∧
        wordBoundary t limit q = true := by
  intro h
  simp only [matchAt?] at h
  split at h
  next hbefore =>
    obtain ⟨w, hw, hq⟩ := List.exists_of_findSome?_eq_some h
    simp only [Option.ite_none_right_eq_some, Bool.and_eq_true, decide_eq_true_eq,
      Option.some.injEq] at hq
    obtain ⟨⟨⟨hstarts, hle⟩, hafter⟩, rfl⟩ := hq
    exact ⟨hbefore, w, hw, hstarts, rfl, hle, hafter⟩
  next => simp at h

theorem Solid.charAt (sol : pat.Solid) (h : pat.matchAt? t limit p = some q) :
    ∃ c, t.charAt p = some c := by
  cases pat with
  | words ws =>
    obtain ⟨-, w, hw, hstarts, -⟩ := matchAt_words h
    obtain ⟨c, w, rfl⟩ := List.exists_cons_of_ne_nil (sol w hw).1
    simp only [Text.startsWith, Bool.and_eq_true, beq_iff_eq] at hstarts
    exact ⟨c, hstarts.1⟩
  | oneOf cs =>
    simp only [matchAt?, Option.ite_none_right_eq_some] at h
    obtain ⟨c, hc, -⟩ := Option.bind_eq_some_iff.mp h.2
    exact ⟨c, hc⟩
  | literal w | wordRun | empty => exact sol.elim

/-- Inside a word there is no word boundary. -/
theorem wordBoundary_inside {w : List Char} (hw : ∀ c ∈ w, isWordChar c = true ∧ c.utf8Size = 1)
    (hstarts : t.startsWith p w = true) (hp : p < i) (hi : i < p + byteLength w)
    (hlimit : p + byteLength w ≤ limit) : wordBoundary t limit i = false := by
  induction w generalizing p with
  | nil => simp only [byteLength] at hi; omega
  | cons c w ih =>
    obtain ⟨⟨hc, hsize⟩, hw⟩ := List.forall_mem_cons.mp hw
    simp only [Text.startsWith, Bool.and_eq_true, beq_iff_eq, hsize] at hstarts
    obtain ⟨hat, hrest⟩ := hstarts
    simp only [byteLength, hsize] at hi hlimit
    rcases Nat.lt_or_eq_of_le (Nat.succ_le_of_lt hp) with hlt | rfl
    · exact ih hw hrest hlt (by omega) (by omega)
    · cases w with
      | nil => simp only [byteLength] at hi; omega
      | cons d w =>
        simp only [Text.startsWith, Bool.and_eq_true, beq_iff_eq] at hrest
        have hd := (hw d (List.mem_cons_self ..)).1
        have hbefore := Text.charBefore_next hat
        rw [Text.next_of_charAt hat, hsize] at hbefore
        have hlt : p + 1 < limit := by omega
        simp [wordBoundary, hbefore, hrest.1, hc, hd, hlt]

/-- No match begins inside another. -/
theorem Solid.separate (sol : pat.Solid) (hp : pat.matchAt? t limit p = some i)
    (hq : pat.matchAt? t limit q = some j) (hlt : p < q) : i ≤ q := by
  cases pat with
  | words ws =>
    refine Nat.le_of_not_lt fun hqi => ?_
    obtain ⟨-, w, hw, hstarts, rfl, hle, -⟩ := matchAt_words hp
    have hbefore := (matchAt_words hq).1
    rw [wordBoundary_inside (sol w hw).2 hstarts hlt hqi hle] at hbefore
    simp at hbefore
  | oneOf cs =>
    simp only [matchAt?, Option.ite_none_right_eq_some] at hp
    obtain ⟨c, -, hc⟩ := Option.bind_eq_some_iff.mp hp.2
    simp only [Option.ite_none_right_eq_some, List.contains_iff_mem, Option.some.injEq] at hc
    have := sol c hc.1
    omega
  | literal w | wordRun | empty => exact sol.elim

theorem firstMatch_eq_some {n : Nat} (h : firstMatch? t limit pat p n = some m) :
    pat.matchAt? t limit m.start = some m.stop ∧
      ∀ i, p ≤ i → i < m.start → pat.matchAt? t limit i = none := by
  induction n generalizing p with
  | zero => simp [firstMatch?] at h
  | succ n ih =>
    rw [firstMatch?] at h
    split at h
    next q hq =>
      cases h
      exact ⟨hq, fun i hi hlt => absurd hlt (Nat.not_lt.mpr hi)⟩
    next hnone =>
      obtain ⟨hmatch, hfirst⟩ := ih h
      refine ⟨hmatch, fun i hi hlt => ?_⟩
      rcases Nat.lt_or_eq_of_le hi with hi | rfl
      · exact hfirst i hi hlt
      · exact hnone

theorem firstMatch_eq_none {n : Nat} (h : firstMatch? t limit pat p n = none) :
    ∀ i, p ≤ i → i < p + n → pat.matchAt? t limit i = none := by
  induction n generalizing p with
  | zero => exact fun i hi hlt => by omega
  | succ n ih =>
    rw [firstMatch?] at h
    split at h
    next => simp at h
    next hnone =>
      intro i hi hlt
      rcases Nat.lt_or_eq_of_le hi with hi | rfl
      · exact ih h i hi (by omega)
      · exact hnone

/-- A match after the start of a search is the first one, or begins after it. -/
theorem Solid.eq_or_after (sol : pat.Solid) {k : Span} (hk : pat.find? t limit p = some k)
    (hm : pat.matchAt? t limit m.start = some m.stop) (hle : p ≤ m.start) :
    m = k ∨ k.stop ≤ m.start := by
  obtain ⟨hmatch, hfirst⟩ := firstMatch_eq_some hk
  rcases Nat.lt_trichotomy m.start k.start with hlt | heq | hlt
  · rw [hfirst m.start hle hlt] at hm
    simp at hm
  · rw [heq, hmatch] at hm
    obtain ⟨start, stop⟩ := m
    simp only at heq hm
    cases hm
    subst heq
    exact .inl rfl
  · exact .inr (sol.separate hmatch hm hlt)

end Pattern

namespace Lexed

variable {ix : Lexed} {pat : Pattern} {limit p q bound count : Nat} {m : Span}

/-- A match of a pattern that begins in code. -/
structure CodeMatch (ix : Lexed) (pat : Pattern) (limit : Nat) (m : Span) : Prop where
  found : pat.matchAt? ix.text limit m.start = some m.stop
  code : ix.isCode m.start = true

theorem CodeMatch.bounds (h : ix.CodeMatch pat limit m) (sol : pat.Solid) :
    m.start < m.stop ∧ m.stop ≤ limit := sol.token.of_matchAt h.found

theorem mem_codeMatches (sol : pat.Solid) :
    m ∈ ix.codeMatches pat limit p ↔ p ≤ m.start ∧ ix.CodeMatch pat limit m := by
  fun_induction codeMatches ix pat limit p with
  | case1 p hnone =>
    simp only [List.not_mem_nil, false_iff, not_and]
    intro hle h
    have hlt := h.bounds sol
    have hfound := h.found
    rw [Pattern.firstMatch_eq_none hnone m.start hle (by omega)] at hfound
    simp at hfound
  | case2 p k hk rest hcode ih =>
    have hmatch := (Pattern.firstMatch_eq_some hk).1
    have hbounds := sol.token.of_matchAt hmatch
    have hpk := (Pattern.of_find hk).1
    rw [Pattern.resume_eq hbounds.1] at ih
    simp only [rest, List.mem_cons, Pattern.resume_eq hbounds.1, ih]
    constructor
    · rintro (rfl | ⟨hle, hm⟩)
      · exact ⟨hpk, hmatch, hcode⟩
      · exact ⟨by omega, hm⟩
    · rintro ⟨hle, hm⟩
      exact (sol.eq_or_after hk hm.found hle).imp_right fun hle => ⟨hle, hm⟩
  | case3 p k hk rest hcode ih =>
    have hmatch := (Pattern.firstMatch_eq_some hk).1
    have hbounds := sol.token.of_matchAt hmatch
    have hpk := (Pattern.of_find hk).1
    rw [Pattern.resume_eq hbounds.1] at ih
    simp only [rest, Pattern.resume_eq hbounds.1, ih]
    constructor
    · rintro ⟨hle, hm⟩
      exact ⟨by omega, hm⟩
    · rintro ⟨hle, hm⟩
      rcases sol.eq_or_after hk hm.found hle with rfl | hle
      · exact absurd hm.code hcode
      · exact ⟨hle, hm⟩

theorem codeMatches_ascending (sol : pat.Solid) :
    (ix.codeMatches pat limit p).Pairwise fun a b => a.start < b.start := by
  fun_induction codeMatches ix pat limit p with
  | case1 => exact .nil
  | case2 p k hk rest hcode ih =>
    refine List.pairwise_cons.mpr ⟨fun m hm => ?_, ih⟩
    have hle := ((mem_codeMatches sol).mp hm).1
    have := Pattern.lt_resume ix.text k
    omega
  | case3 p k hk rest hcode ih => exact ih

/-- Matches in order are determined by which they are. -/
theorem eq_of_mem_iff {ms ns : List Span} (hms : ms.Pairwise fun a b => a.start < b.start)
    (hns : ns.Pairwise fun a b => a.start < b.start) (h : ∀ m, m ∈ ms ↔ m ∈ ns) : ms = ns := by
  have : Std.Antisymm fun a b : Span => a.start < b.start :=
    ⟨fun a b hab hba => absurd hab (by omega)⟩
  have : Std.Irrefl fun a b : Span => a.start < b.start := ⟨fun a => by omega⟩
  exact hms.eq_of_mem_iff hns h

/-- A search that begins later finds the last ones of the matches. -/
theorem codeMatches_suffix (sol : pat.Solid) (hle : p ≤ q) :
    ix.codeMatches pat limit q <:+ ix.codeMatches pat limit p := by
  have hfilter : ix.codeMatches pat limit q = (ix.codeMatches pat limit p).filter (q ≤ ·.start) := by
    refine eq_of_mem_iff (codeMatches_ascending sol) ((codeMatches_ascending sol).filter _) fun m => ?_
    simp only [List.mem_filter, mem_codeMatches sol, decide_eq_true_eq]
    constructor
    · rintro ⟨hq, hm⟩
      exact ⟨⟨by omega, hm⟩, hq⟩
    · rintro ⟨⟨-, hm⟩, hq⟩
      exact ⟨hq, hm⟩
  have ascending : (ix.codeMatches pat limit p).Pairwise fun a b => a.start < b.start :=
    codeMatches_ascending sol
  rw [hfilter]
  generalize ix.codeMatches pat limit p = ms at ascending
  induction ms with
  | nil => exact List.suffix_refl _
  | cons k ms ih =>
    obtain ⟨hlt, ascending⟩ := List.pairwise_cons.mp ascending
    rw [List.filter_cons]
    split
    next hk =>
      have hall : ms.filter (q ≤ ·.start) = ms := by
        refine List.filter_eq_self.mpr fun m hm => ?_
        have := hlt m hm
        simp only [decide_eq_true_eq] at hk ⊢
        omega
      exact hall.symm ▸ List.suffix_refl (k :: ms)
    next => exact (ih ascending).trans (List.suffix_cons k ms)

theorem fromEnd_eq (ms : List Span) (n : Nat) : fromEnd? ms (n + 1) = ms.reverse[n]? := by
  unfold fromEnd?
  split
  next hle =>
    rw [List.getElem?_reverse (by omega)]
    congr 1
    omega
  next hlt => rw [List.getElem?_eq_none (by rw [List.length_reverse]; omega)]

theorem fromEnd_of_suffix {ms ns : List Span} (h : ms <:+ ns) (hm : fromEnd? ms count = some m) :
    fromEnd? ns count = some m := by
  cases count with
  | zero => simp [fromEnd?] at hm
  | succ n =>
    obtain ⟨before, rfl⟩ := h
    rw [fromEnd_eq] at hm ⊢
    rw [List.reverse_append, List.getElem?_append_left (List.getElem?_eq_some_iff.mp hm).1]
    exact hm

/-- The windows find what one search over the whole stretch finds. -/
theorem searchWindow_eq (sol : pat.Solid) {window : Nat} (hw : 0 < window) :
    ix.searchWindow pat p bound count window hw = fromEnd? (ix.codeMatches pat p bound) count := by
  fun_induction searchWindow ix pat p bound count window hw with
  | case1 window hw start found usable k hk =>
    have hsuffix : usable <:+ found := by
      by_cases hlt : bound < start
      · simp only [usable, hlt, ↓reduceDIte]
        exact List.drop_suffix 1 found
      · simp only [usable, hlt, ↓reduceDIte]
        exact List.suffix_refl _
    have hwhole : found <:+ ix.codeMatches pat p bound :=
      codeMatches_suffix sol (Nat.le_max_right _ _)
    exact (fromEnd_of_suffix (hsuffix.trans hwhole) hk).symm
  | case2 window hw start found usable hnone hlt ih => exact ih
  | case3 window hw start found usable hnone hge =>
    have hstart : start = bound := Nat.le_antisymm (Nat.le_of_not_lt hge) (Nat.le_max_right _ _)
    have husable : usable = found := dif_neg hge
    rw [husable] at hnone
    rw [← hnone, ← hstart]

theorem codeMatches_eq_nil (sol : pat.Solid) (hle : p ≤ bound) : ix.codeMatches pat p bound = [] := by
  refine List.eq_nil_iff_forall_not_mem.mpr fun m hm => ?_
  obtain ⟨hbound, hm⟩ := (mem_codeMatches sol).mp hm
  have := hm.bounds sol
  omega

theorem searchForwardAll_eq (sol : pat.Solid) :
    ix.searchForwardAll pat bound p = ix.codeMatches pat p bound := by
  unfold searchForwardAll
  split
  next hle => exact (codeMatches_eq_nil sol hle).symm
  next => rfl

theorem searchForward_eq (sol : pat.Solid) (n : Nat) :
    ix.searchForward pat bound p (n + 1) = (ix.codeMatches pat p bound)[n]? := by
  simp [searchForward, searchForwardAll_eq sol]

/-- The first match after a gap. -/
theorem searchForward_first (sol : pat.Solid) (h : ix.searchForward pat bound p 1 = some m) :
    bound ≤ m.start ∧ ix.CodeMatch pat p m ∧
      ∀ k, bound ≤ k.start → ix.CodeMatch pat p k → m.start ≤ k.start := by
  rw [searchForward_eq sol, ← List.head?_eq_getElem?] at h
  obtain ⟨rest, heq⟩ := List.head?_eq_some_iff.mp h
  have ascending : (ix.codeMatches pat p bound).Pairwise fun a b => a.start < b.start :=
    codeMatches_ascending sol
  obtain ⟨hle, hm⟩ := (mem_codeMatches sol).mp (List.mem_of_head? h)
  refine ⟨hle, hm, fun k hk hcode => ?_⟩
  have hmem := (mem_codeMatches sol).mpr ⟨hk, hcode⟩
  rw [heq] at hmem ascending
  rcases List.mem_cons.mp hmem with rfl | hrest
  · exact Nat.le_refl _
  · exact Nat.le_of_lt ((List.pairwise_cons.mp ascending).1 k hrest)

theorem searchBack_eq (sol : pat.Solid) :
    ix.searchBack pat p bound count = fromEnd? (ix.codeMatches pat p bound) count := by
  unfold searchBack
  split
  next hnone =>
    rcases hnone with rfl | hle
    · simp [fromEnd?]
    · cases count with
      | zero => simp [fromEnd?]
      | succ n => simp [codeMatches_eq_nil sol hle, fromEnd_eq]
  next => exact searchWindow_eq sol _

/-- The nearest match before a gap. -/
theorem searchBack_eq_some (sol : pat.Solid) : ix.searchBack pat p bound 1 = some m ↔
    bound ≤ m.start ∧ ix.CodeMatch pat p m ∧
      ∀ k, bound ≤ k.start → ix.CodeMatch pat p k → k.start ≤ m.start := by
  have ascending : (ix.codeMatches pat p bound).Pairwise fun a b => a.start < b.start :=
    codeMatches_ascending sol
  have hmem : ∀ k, k ∈ ix.codeMatches pat p bound ↔ bound ≤ k.start ∧ ix.CodeMatch pat p k :=
    fun k => mem_codeMatches sol
  rw [searchBack_eq sol, fromEnd_eq, ← List.head?_eq_getElem?, List.head?_reverse]
  generalize ix.codeMatches pat p bound = ms at ascending hmem
  rcases List.eq_nil_or_concat ms with rfl | ⟨before, last, rfl⟩
  · have hnone : ∀ k, ¬ (bound ≤ k.start ∧ ix.CodeMatch pat p k) := fun k => by simpa using hmem k
    simp only [List.getLast?_nil, reduceCtorEq, false_iff]
    rintro ⟨hle, hm, -⟩
    exact hnone m ⟨hle, hm⟩
  · rw [List.concat_eq_append] at ascending hmem ⊢
    simp only [List.getLast?_append, List.getLast?_singleton, Option.some_or, Option.some.injEq]
    have hlast := (hmem last).mp (by simp)
    have hbefore := (List.pairwise_append.mp ascending).2.2
    have hmax : ∀ k, bound ≤ k.start → ix.CodeMatch pat p k → k = last ∨ k.start < last.start := by
      intro k hk hcode
      rcases List.mem_append.mp ((hmem k).mpr ⟨hk, hcode⟩) with hk | hk
      · exact .inr (hbefore k hk last (List.mem_singleton_self last))
      · exact .inl (List.mem_singleton.mp hk)
    constructor
    · rintro rfl
      refine ⟨hlast.1, hlast.2, fun k hk hcode => ?_⟩
      rcases hmax k hk hcode with rfl | hlt
      · exact Nat.le_refl _
      · exact Nat.le_of_lt hlt
    · rintro ⟨hle, hm, hlater⟩
      have := hlater last hlast.1 hlast.2
      rcases hmax m hle hm with heq | hlt
      · exact heq.symm
      · omega

theorem searchBackFrom_eq (sol : pat.Solid) (n : Nat) :
    ix.searchBackFrom pat p bound (count + 1) n =
      ((ix.codeMatches pat p bound).reverse.drop count).take n := by
  induction n generalizing count with
  | zero => rfl
  | succ n ih =>
    rw [searchBackFrom, searchBack_eq sol, fromEnd_eq, ih]
    cases hm : (ix.codeMatches pat p bound).reverse[count]? with
    | none => rw [List.drop_eq_nil_of_le (List.getElem?_eq_none_iff.mp hm)]; rfl
    | some m =>
      obtain ⟨hlt, hm⟩ := List.getElem?_eq_some_iff.mp hm
      rw [List.drop_eq_getElem_cons hlt, List.take_succ_cons, hm]

theorem length_le_of_ascending {ms : List Span} (ascending : ms.Pairwise fun a b => a.start < b.start)
    (h : ∀ m ∈ ms, p ≤ m.start ∧ m.start < q) : ms.length ≤ q - p := by
  induction ms generalizing p with
  | nil => exact Nat.zero_le _
  | cons k ms ih =>
    obtain ⟨hlt, ascending⟩ := List.pairwise_cons.mp ascending
    obtain ⟨hk, h⟩ := List.forall_mem_cons.mp h
    have hrest := ih (p := p + 1) ascending fun m hm => by
      have := hlt m hm
      have := h m hm
      omega
    rw [List.length_cons]
    omega

theorem searchBackAll_eq (sol : pat.Solid) :
    ix.searchBackAll pat p bound = (ix.codeMatches pat p bound).reverse := by
  have hlength : (ix.codeMatches pat p bound).length ≤ p - bound := by
    refine length_le_of_ascending (codeMatches_ascending sol) fun m hm => ?_
    obtain ⟨hle, hm⟩ := (mem_codeMatches sol).mp hm
    have := hm.bounds sol
    omega
  rw [searchBackAll, searchBackFrom_eq sol, List.drop_zero]
  exact List.take_of_length_le (by rw [List.length_reverse]; omega)

/-- The nearest match from whose end a list of types leads to the target. -/
theorem clauseBefore_eq_some (sol : pat.Solid) : ix.clauseBefore? pat p bound = some m ↔
    bound ≤ m.start ∧ ix.CodeMatch pat p m ∧ ix.skipsForwardTo p m.stop = true ∧
      ∀ k, bound ≤ k.start → ix.CodeMatch pat p k → m.start < k.start →
        ix.skipsForwardTo p k.stop = false := by
  have descending : (ix.codeMatches pat p bound).reverse.Pairwise fun a b => b.start < a.start :=
    List.pairwise_reverse.mpr (codeMatches_ascending sol)
  have hmem : ∀ k, k ∈ (ix.codeMatches pat p bound).reverse ↔
      bound ≤ k.start ∧ ix.CodeMatch pat p k := fun k => by
    rw [List.mem_reverse, mem_codeMatches sol]
  rw [clauseBefore?, searchBackAll_eq sol, List.find?_eq_some_iff_append]
  generalize (ix.codeMatches pat p bound).reverse = ms at descending hmem
  constructor
  · rintro ⟨hskips, later, earlier, rfl, hnone⟩
    obtain ⟨hle, hm⟩ := (hmem m).mp (by simp)
    refine ⟨hle, hm, hskips, fun k hk hcode hlt => ?_⟩
    rcases List.mem_append.mp ((hmem k).mpr ⟨hk, hcode⟩) with hin | hin
    · simpa using hnone k hin
    · have hafter := (List.pairwise_cons.mp (List.pairwise_append.mp descending).2.1).1
      rcases List.mem_cons.mp hin with rfl | hin
      · omega
      · have := hafter k hin
        omega
  · rintro ⟨hle, hm, hskips, hlater⟩
    obtain ⟨later, earlier, rfl⟩ := List.append_of_mem ((hmem m).mpr ⟨hle, hm⟩)
    refine ⟨hskips, later, earlier, rfl, fun k hk => ?_⟩
    have hlt := (List.pairwise_append.mp descending).2.2 k hk m (List.mem_cons_self ..)
    obtain ⟨hbound, hcode⟩ := (hmem k).mp (List.mem_append_left _ hk)
    simpa using hlater k hbound hcode hlt

theorem clauseBefore_eq_none (sol : pat.Solid) : ix.clauseBefore? pat p bound = none ↔
    ∀ m, bound ≤ m.start → ix.CodeMatch pat p m → ix.skipsForwardTo p m.stop = false := by
  rw [clauseBefore?, searchBackAll_eq sol, List.find?_eq_none]
  simp only [List.mem_reverse, mem_codeMatches sol, Bool.not_eq_true]
  exact forall_congr' fun m => and_imp

/-- A word that is found in code is code. -/
theorem IsJava.codeChars_of_match (hix : ix.IsJava) {ws : List (List Char)}
    (sol : (Pattern.words ws).Solid) (h : ix.CodeMatch (.words ws) limit m) :
    ∃ w ∈ ws, ix.CodeChars m.start m.stop w := by
  obtain ⟨c, hc⟩ := sol.charAt h.found
  have hgap := hix.codeGap_of_code (codeChar_of_isCode hc h.code)
  obtain ⟨-, w, hw, hstarts, hstop, -⟩ := Pattern.matchAt_words h.found
  rw [hstop]
  exact ⟨w, hw, hix.codeChars_of_startsWith hgap (fun c hc => ((sol w hw).2 c hc).1) hstarts⟩

/-- The characters beside a word that is found in code belong to no word. -/
theorem IsJava.beside_match (hix : ix.IsJava) {ws : List (List Char)}
    (sol : (Pattern.words ws).Solid) (h : ix.CodeMatch (.words ws) limit m) :
    (∀ a c, ix.text.charBefore m.start = some (a, c) → isWordChar c = false) ∧
      ∀ c, ix.text.charAt m.stop = some c → m.stop < limit → isWordChar c = false := by
  obtain ⟨w, hw, hchars⟩ := hix.codeChars_of_match sol h
  have hne := (sol w hw).1
  have hlt := (h.bounds sol).1
  obtain ⟨hbefore, -, -, -, -, hle, hafter⟩ := Pattern.matchAt_words h.found
  simp only [Pattern.wordBoundary, bne_iff_ne, ne_eq] at hbefore hafter
  refine ⟨fun a c hback => ?_, fun c hc hlimit => ?_⟩
  · obtain ⟨d, hd, hcode⟩ := hchars.first hne
    have hword := ((sol w hw).2 d hd).1
    refine Bool.eq_false_iff.mpr fun hc => hbefore ?_
    simp [hback, hcode.char, hword, hc, show m.start < limit by omega]
  · obtain ⟨a, d, hd, hcode, hnext⟩ := hchars.last hne
    have hback := hcode.charBefore
    rw [hnext] at hback
    have hword := ((sol w hw).2 d hd).1
    refine Bool.eq_false_iff.mpr fun hc' => hafter ?_
    simp [hback, hc, hword, hc', hlimit]

end Lexed

/-- The windows of the backward search miss no match and count none twice: searching back gives the
matches that begin in code, all of them, in the order opposite to that of searching forward. -/
theorem searchBack_eq_reverse_searchForward (t : Text) (r : Rules) (pat : Pattern)
    (hpat : pat ∈ Pattern.searched) (bound p : Nat) :
    ∃ found : List Span,
      (∀ k, (Lexed.ofText t r).searchForward pat bound p (k + 1) = found[k]?) ∧
      (∀ k, (Lexed.ofText t r).searchBack pat p bound (k + 1) = found.reverse[k]?) ∧
      found.Pairwise (fun m m' => m.start < m'.start) ∧
      ∀ m, m ∈ found ↔ bound ≤ m.start ∧ (Lexed.ofText t r).CodeMatch pat p m := by
  have sol := Pattern.solid_of_mem_searched hpat
  refine ⟨(Lexed.ofText t r).codeMatches pat p bound, Lexed.searchForward_eq sol, fun k => ?_,
    Lexed.codeMatches_ascending sol, fun m => Lexed.mem_codeMatches sol⟩
  rw [Lexed.searchBack_eq sol, Lexed.fromEnd_eq]

/-- A keyword in a comment counts in neither direction. -/
theorem searchBack_eq_reverse_searchForward_comment :
    let ix := Lexed.ofText (.ofString "// class\nenum A \x7bclass") .java
    Pattern.typeKeyword ∈ Pattern.searched ∧
      ix.searchForward .typeKeyword 0 22 1 = some ⟨9, 13⟩ ∧
      ix.searchForward .typeKeyword 0 22 2 = some ⟨17, 22⟩ ∧
      ix.searchForward .typeKeyword 0 22 3 = none ∧
      ix.searchBack .typeKeyword 22 0 2 = some ⟨9, 13⟩ := by
  intro ix
  have first : ix.searchForward .typeKeyword 0 22 1 = some ⟨9, 13⟩ := by decide +kernel
  have second : ix.searchForward .typeKeyword 0 22 2 = some ⟨17, 22⟩ := by decide +kernel
  have third : ix.searchForward .typeKeyword 0 22 3 = none := by decide +kernel
  have hpat : Pattern.typeKeyword ∈ Pattern.searched := by simp [Pattern.searched]
  obtain ⟨found, forward, back, -⟩ := searchBack_eq_reverse_searchForward _ .java _ hpat 0 22
  refine ⟨hpat, first, second, third, ?_⟩
  have hfirst := (forward 0).symm.trans first
  have hlength : found.length = 2 := by
    have hsecond := List.getElem?_eq_some_iff.mp ((forward 1).symm.trans second)
    have hthird := List.getElem?_eq_none_iff.mp ((forward 2).symm.trans third)
    obtain ⟨hlt, -⟩ := hsecond
    omega
  calc ix.searchBack .typeKeyword 22 0 2
    _ = found.reverse[1]? := back 1
    _ = found[0]? := by rw [List.getElem?_reverse (by omega), hlength]
    _ = some ⟨9, 13⟩ := hfirst

end BraceScopes
