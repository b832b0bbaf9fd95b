import BraceScopes.Detect.Chain
import BraceScopes.Proofs.ArgList
import BraceScopes.Proofs.Scan.Search
/-!
Detectors look back from their brace, never forward: two texts that look the same from a brace backward
get the same answers about it.
-/
namespace BraceScopes

namespace Pattern

theorem token_typeKeyword : typeKeyword.Token := by simp [Token, typeKeyword]

theorem token_typeClause : typeClause.Token := by simp [Token, typeClause]

theorem token_throwsClause : throwsClause.Token := by simp [Token, throwsClause]

theorem token_closeParen : closeParen.Token := by simp [Token, closeParen]; rfl

theorem token_declarationBoundary : declarationBoundary.Token := by
  simp [Token, declarationBoundary]
  decide

end Pattern

/-- A chain of detectors with the same answers has the same first answer. -/
theorem firstAccepting_congr {chain : List Detector} {cfg : ScopeConfig} {x y : Lexed} {brace : Nat}
    (h : ∀ d ∈ chain, d.detect cfg x brace = d.detect cfg y brace) :
    firstAccepting? chain cfg x brace = firstAccepting? chain cfg y brace := by
  unfold firstAccepting?
  induction chain with
  | nil => rfl
  | cons d chain ih =>
    rw [List.findSome?_cons, List.findSome?_cons, h d (List.mem_cons_self ..),
      ih fun e he => h e (List.mem_cons_of_mem d he)]

namespace Lexed

theorem typeNameBefore_bounds {ix : Lexed} {p : Nat} {u : Piece}
    (h : Detect.typeNameBefore? ix p = some u) : u.start < u.stop ∧ u.stop ≤ p := by
  unfold Detect.typeNameBefore? at h
  split at h
  next => simp at h
  next v hv =>
    have hbounds := pieceBefore_bounds hv
    split at h
    next =>
      have := pieceBefore_bounds h
      omega
    next =>
      cases h
      exact hbounds

theorem typeKeyword_bounds {ix : Lexed} {brace : Nat} {m : Span}
    (h : Detect.typeKeyword? ix brace = some m) : m.start < m.stop ∧ m.stop ≤ brace := by
  obtain ⟨keyword, hkeyword, h⟩ := Option.bind_eq_some_iff.mp h
  obtain ⟨_, -, h⟩ := Option.bind_eq_some_iff.mp h
  cases h
  exact searchBack_bounds Pattern.token_typeKeyword hkeyword

theorem headerEnd_le (ix : Lexed) (bound stop : Nat) : Detect.headerEnd ix bound stop ≤ stop := by
  fun_induction Detect.headerEnd ix bound stop with
  | case2 stop clause hclause hlt ih => omega
  | _ => exact Nat.le_refl _

theorem params_bounds {ix : Lexed} {stop : Nat} {u : Piece} {throwing : Bool}
    (h : Detect.params? ix stop = some (u, throwing)) : u.start < u.stop ∧ u.stop ≤ stop := by
  obtain ⟨v, hv, h⟩ := Option.bind_eq_some_iff.mp h
  split at h
  next =>
    cases h
    exact pieceBefore_bounds hv
  next =>
    obtain ⟨w, hw, h⟩ := Option.bind_eq_some_iff.mp h
    cases h
    obtain ⟨paren, -, hw⟩ := Option.bind_eq_some_iff.mp hw
    obtain ⟨keyword, hkeyword, hw⟩ := Option.bind_eq_some_iff.mp hw
    obtain ⟨thrown, -, hw⟩ := Option.bind_eq_some_iff.mp hw
    obtain ⟨_, -, hw⟩ := Option.bind_eq_some_iff.mp hw
    obtain ⟨params, hparams, hw⟩ := Option.bind_eq_some_iff.mp hw
    obtain ⟨_, -, hw⟩ := Option.bind_eq_some_iff.mp hw
    cases hw
    have hclause := clauseBefore_bounds Pattern.token_throwsClause hkeyword
    have hbounds := pieceBefore_bounds hparams
    omega

namespace SameBelow

variable {n : Nat} {x y : Lexed}

theorem bodyStart (h : SameBelow n x y) {p : Nat} (hp : p ≤ n) : x.bodyStart p = y.bodyStart p := by
  rw [Lexed.bodyStart, Lexed.bodyStart, h.enclosing p hp]

theorem array (h : SameBelow n x y) (cfg : ScopeConfig) : Detect.array cfg x n = Detect.array cfg y n := by
  rw [Detect.array, Detect.array, h.stepBack (Nat.le_refl n)]

theorem typeNameBefore (h : SameBelow n x y) {p : Nat} (hp : p ≤ n) :
    Detect.typeNameBefore? x p = Detect.typeNameBefore? y p := by
  unfold Detect.typeNameBefore?
  rw [h.pieceBefore .angle hp]
  cases hu : y.pieceBefore? .angle p 0 with
  | none => rfl
  | some u =>
    have hlt := pieceBefore_lt hu
    dsimp only
    rw [h.pieceBefore .angle (by omega)]

theorem anonClass (h : SameBelow n x y) (cfg : ScopeConfig) :
    Detect.anonClass cfg x n = Detect.anonClass cfg y n := by
  unfold Detect.anonClass
  rw [h.pieceBefore .normal (Nat.le_refl n)]
  refine Option.bind_congr fun args hargs => Option.bind_congr fun _ _ => ?_
  have hargs := pieceBefore_lt hargs
  rw [h.typeNameBefore (by omega)]
  refine Option.bind_congr fun ty hty => Option.bind_congr fun _ _ => ?_
  obtain ⟨htype, hstop⟩ := typeNameBefore_bounds hty
  rw [h.pieceBefore .normal (by omega), h.text.word ty.start (by omega)]
  refine Option.bind_congr fun new hnew => ?_
  have hnew := (pieceBefore_bounds hnew).2
  rw [h.isWord (by omega)]

theorem headerEnd (h : SameBelow n x y) (bound : Nat) {stop : Nat} (hstop : stop ≤ n) :
    Detect.headerEnd x bound stop = Detect.headerEnd y bound stop := by
  induction stop using Nat.strongRecOn with
  | ind stop ih =>
    unfold Detect.headerEnd
    rw [h.clauseBefore Pattern.token_typeClause hstop]
    cases y.clauseBefore? .typeClause stop bound with
    | none => rfl
    | some clause =>
      simp only
      split
      next hlt => exact ih clause.start hlt (by omega)
      next => rfl

theorem typeKeyword (h : SameBelow n x y) : Detect.typeKeyword? x n = Detect.typeKeyword? y n := by
  unfold Detect.typeKeyword?
  dsimp only
  rw [h.bodyStart (Nat.le_refl n),
    h.searchBack Pattern.token_declarationBoundary (Nat.le_refl n),
    h.searchBack Pattern.token_typeKeyword (Nat.le_refl n)]
  refine Option.bind_congr fun keyword hkeyword => ?_
  have hbounds := searchBack_bounds Pattern.token_typeKeyword hkeyword
  rw [h.text.charBefore (by omega)]

theorem classLike (h : SameBelow n x y) (cfg : ScopeConfig) :
    Detect.classLike cfg x n = Detect.classLike cfg y n := by
  unfold Detect.classLike
  rw [h.typeKeyword]
  refine Option.bind_congr fun keyword hkeyword => ?_
  obtain ⟨hstart, hstop⟩ := typeKeyword_bounds hkeyword
  have hend := headerEnd_le y keyword.stop n
  rw [h.headerEnd keyword.stop (Nat.le_refl n), h.parse true keyword.stop hend,
    h.text.word keyword.start hstop, h.declarationStart (by omega)]

theorem simpleStatement (h : SameBelow n x y) (cfg : ScopeConfig) :
    Detect.simpleStatement cfg x n = Detect.simpleStatement cfg y n := by
  unfold Detect.simpleStatement
  rw [h.pieceBefore .normal (Nat.le_refl n)]
  refine Option.bind_congr fun u hu => ?_
  have hbounds := pieceBefore_bounds hu
  dsimp only
  rw [h.text.charBefore (by omega), h.text.word u.start (by omega)]

theorem paramsBeforeThrows (h : SameBelow n x y) :
    Detect.paramsBeforeThrows? x n = Detect.paramsBeforeThrows? y n := by
  unfold Detect.paramsBeforeThrows?
  rw [h.bodyStart (Nat.le_refl n), h.searchBack Pattern.token_closeParen (Nat.le_refl n)]
  refine Option.bind_congr fun paren _ => ?_
  rw [h.clauseBefore Pattern.token_throwsClause (Nat.le_refl n)]
  refine Option.bind_congr fun keyword hkeyword => ?_
  have hbounds := clauseBefore_bounds Pattern.token_throwsClause hkeyword
  rw [h.parse true keyword.stop (Nat.le_refl n), h.pieceBefore .normal (by omega)]

theorem params (h : SameBelow n x y) : Detect.params? x n = Detect.params? y n := by
  unfold Detect.params?
  rw [h.pieceBefore .normal (Nat.le_refl n), h.paramsBeforeThrows]

theorem methodOrStatement (h : SameBelow n x y) (cfg : ScopeConfig) :
    Detect.methodOrStatement cfg x n = Detect.methodOrStatement cfg y n := by
  unfold Detect.methodOrStatement
  rw [h.params]
  refine Option.bind_congr fun found hfound => ?_
  obtain ⟨params, throwing⟩ := found
  have hparams := params_bounds hfound
  dsimp only
  rw [h.pieceBefore .normal (by omega)]
  refine Option.bind_congr fun ident hident => ?_
  have hbounds := pieceBefore_bounds hident
  rw [h.text.word ident.start (by omega), h.parse false (params.start + 1) (by omega),
    h.declarationStart (by omega)]

/-- Each of the usual detectors gives the same answer about a brace, whatever follows it. -/
theorem detect_standard (h : SameBelow n x y) (cfg : ScopeConfig) :
    ∀ d ∈ Detector.standard, d.detect cfg x n = d.detect cfg y n := by
  intro d hd
  simp only [Detector.standard, List.mem_cons, List.not_mem_nil, or_false] at hd
  rcases hd with rfl | rfl | rfl | rfl | rfl
  · exact h.array cfg
  · exact h.anonClass cfg
  · exact h.classLike cfg
  · exact h.simpleStatement cfg
  · exact h.methodOrStatement cfg

theorem firstAccepting_standard (h : SameBelow n x y) (cfg : ScopeConfig) :
    firstAccepting? Detector.standard cfg x n = firstAccepting? Detector.standard cfg y n :=
  firstAccepting_congr (h.detect_standard cfg)

end SameBelow

end Lexed

open BraceScopes.Lex

/-- No detector looks past its brace. Where two texts have the same bytes up to and including a brace and
the same events before it, each of the usual detectors says the same of the brace in both, and so does
their chain. -/
theorem detect_upTo_brace {t t' : Text} {b : Nat} (r : Rules) (cfg : ScopeConfig)
    (hbrace : t.charAt b = some '{') (hagree : Text.AgreeBelow (b + 1) t t')
    (hevents : below b (events t r) = below b (events t' r)) :
    (∀ d ∈ Detector.standard, d.detect cfg (.ofText t r) b = d.detect cfg (.ofText t' r) b) ∧
      detectWith Detector.standard cfg (.ofText t r) b =
        detectWith Detector.standard cfg (.ofText t' r) b := by
  have same := Lexed.sameBelow_ofText (hagree.shares hbrace) hevents
  refine ⟨same.detect_standard cfg, ?_⟩
  rw [detectWith, detectWith, same.firstAccepting_standard cfg]

/-- A method with type arguments is the same method when a literal and a comment that are never closed
follow its brace. -/
theorem detect_upTo_brace_method :
    let t : Text := .ofString "A<B> m(C c) \x7b"
    let t' : Text := .ofString "A<B> m(C c) \x7b \"\x7d\n/*"
    (.opened 12 ∈ events t .java ∧ .opened 12 ∈ events t' .java) ∧ t.charAt 12 = some '{' ∧
      Text.AgreeBelow 13 t t' ∧ below 12 (events t .java) = below 12 (events t' .java) ∧
      detectWith Detector.standard {} (.ofText t' .java) 12 = some ⟨.method, "m(C)", some 0⟩ := by
  intro t t'
  have opened : .opened 12 ∈ events t .java ∧ .opened 12 ∈ events t' .java := by decide +kernel
  have brace : t.charAt 12 = some '{' := by decide +kernel
  have agree : Text.AgreeBelow 13 t t' := by
    unfold Text.AgreeBelow
    decide +kernel
  have same : below 12 (events t .java) = below 12 (events t' .java) := by decide +kernel
  have found : detectWith Detector.standard {} (.ofText t .java) 12 = some ⟨.method, "m(C)", some 0⟩ := by
    decide +kernel
  have unchanged := (detect_upTo_brace .java {} brace agree same).2
  exact ⟨opened, brace, agree, same, unchanged.symm.trans found⟩

end BraceScopes
