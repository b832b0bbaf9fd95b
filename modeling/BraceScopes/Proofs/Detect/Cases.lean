import BraceScopes.Detect.Chain
import Mathlib.Data.Option.Basic
/-!
When each of the usual detectors accepts a brace, and what it says then.
-/
namespace BraceScopes

theorem exists_of_detectWith {chain : List Detector} {cfg : ScopeConfig} {ix : Lexed} {brace : Nat}
    {d : Detection} (h : detectWith chain cfg ix brace = some d) :
    ∃ a ∈ chain, a.detect cfg ix brace = some d := by
  obtain ⟨found, hfound, rfl⟩ := Option.map_eq_some_iff.mp h
  obtain ⟨a, ha, hmap⟩ := List.exists_of_findSome?_eq_some hfound
  obtain ⟨d, hd, rfl⟩ := Option.map_eq_some_iff.mp hmap
  exact ⟨a, ha, hd⟩

namespace Detect

variable {cfg : ScopeConfig} {ix : Lexed} {brace stop : Nat} {d : Detection} {u : Piece} {m : Span}

theorem toOption_eq_some {ε α : Type} {e : Except ε α} {a : α} : e.toOption = some a ↔ e = .ok a := by
  cases e <;> simp [Except.toOption]

theorem array_eq_some : array cfg ix brace = some d ↔
    ∃ skipped q, ix.stepBack? brace = some (skipped, q) ∧
      skipped.closingChar.any cfg.arrayPredecessors.contains = true ∧ d = ⟨.array, "", none⟩ := by
  unfold array
  split
  next hnone => simp [hnone]
  next skipped q hsome =>
    rw [hsome]
    constructor
    · intro h
      obtain ⟨hany, hd⟩ := Option.ite_none_right_eq_some.mp h
      exact ⟨skipped, q, rfl, hany, (Option.some.inj hd).symm⟩
    · rintro ⟨skipped', q', hsame, hany, rfl⟩
      cases hsame
      rw [if_pos hany]

theorem typeNameBefore_eq_some {p : Nat} : typeNameBefore? ix p = some u ↔
    ∃ v, ix.pieceBefore? .angle p 0 = some v ∧
      (v.kind = .group '<' ∧ ix.pieceBefore? .angle v.start 0 = some u ∨ v.kind ≠ .group '<' ∧ v = u) := by
  unfold typeNameBefore?
  split
  next hnone => simp [hnone]
  next v hsome =>
    rw [hsome]
    by_cases hv : v.kind = .group '<' <;> simp [hv]

theorem anonClass_eq_some : anonClass cfg ix brace = some d ↔
    ∃ args ty new, ix.pieceBefore? .normal brace 0 = some args ∧ args.kind = .group '(' ∧
      typeNameBefore? ix args.start = some ty ∧ ty.kind = .ident ∧
      ix.pieceBefore? .normal ty.start 0 = some new ∧ ix.isWord new "new" = true ∧
      d = ⟨.anonClass, "<anon>" ++ ix.text.word ty.start ty.stop, some new.start⟩ := by
  simp only [anonClass, Option.bind_eq_bind, Option.bind_eq_some_iff, Option.guard_eq_some', exists_const,
    Option.pure_def, Option.some.injEq]
  constructor
  · rintro ⟨args, hargs, hkind, ty, hty, hident, new, hnew, hword, rfl⟩
    exact ⟨args, ty, new, hargs, hkind, hty, hident, hnew, hword, rfl⟩
  · rintro ⟨args, ty, new, hargs, hkind, hty, hident, hnew, hword, rfl⟩
    exact ⟨args, hargs, hkind, ty, hty, hident, new, hnew, hword, rfl⟩

theorem typeKeyword_eq_some : typeKeyword? ix brace = some m ↔
    ix.searchBack .typeKeyword brace (((ix.searchBack .declarationBoundary brace (ix.bodyStart brace) 1).map
      (·.stop)).getD (ix.bodyStart brace)) 1 = some m ∧
      ((ix.text.charBefore m.start).any fun (_, c) => c == '.') = false := by
  simp only [typeKeyword?, Option.bind_eq_bind, Option.bind_eq_some_iff, Option.guard_eq_some', exists_const,
    Option.pure_def, Option.some.injEq]
  constructor
  · rintro ⟨k, hk, hdot, rfl⟩
    exact ⟨hk, by simpa using hdot⟩
  · rintro ⟨hk, hdot⟩
    exact ⟨m, hk, by simpa using hdot, rfl⟩

theorem classLike_eq_some : classLike cfg ix brace = some d ↔
    ∃ keyword arg, typeKeyword? ix brace = some keyword ∧
      ArgList.parse ix true keyword.stop (headerEnd ix keyword.stop brace) = .ok [arg] ∧
      bareName arg.ty ≠ "" ∧
      d = ⟨kindOfKeyword (ix.text.word keyword.start keyword.stop), bareName arg.ty,
        some (ix.declarationStart keyword.start 0)⟩ := by
  simp only [classLike, Option.bind_eq_bind, Option.bind_eq_some_iff]
  constructor
  · rintro ⟨keyword, hkeyword, args, hargs, h⟩
    split at h
    next arg =>
      simp only [Option.bind_eq_some_iff, Option.guard_eq_some', exists_const, Option.pure_def,
        Option.some.injEq] at h
      exact ⟨keyword, arg, hkeyword, toOption_eq_some.mp hargs, h.1, h.2.symm⟩
    next => simp at h
  · rintro ⟨keyword, arg, hkeyword, hargs, hname, rfl⟩
    refine ⟨keyword, hkeyword, [arg], toOption_eq_some.mpr hargs, ?_⟩
    simp [guard, hname]

theorem simpleStatement_eq_some : simpleStatement cfg ix brace = some d ↔
    ∃ u, ix.pieceBefore? .normal brace 0 = some u ∧
      (u.kind = .punct '>' ∧ ((ix.text.charBefore u.start).any fun (_, c) => c == '-') = true ∧
          d = ⟨.simpleStatement, "lambda", some (u.start - 1)⟩ ∨
        u.kind = .ident ∧ cfg.isStatementKeyword (ix.text.word u.start u.stop) = true ∧
          d = ⟨.simpleStatement, ix.text.word u.start u.stop, some u.start⟩) := by
  simp only [simpleStatement, Option.bind_eq_bind, Option.bind_eq_some_iff]
  refine exists_congr fun u => and_congr_right fun _ => ?_
  split
  next hkind =>
    simp only [Option.bind_eq_some_iff, Option.guard_eq_some', exists_const, Option.pure_def, hkind,
      Option.some.injEq, true_and, reduceCtorEq, false_and, or_false, eq_comm (b := d)]
  next hkind =>
    simp only [Option.bind_eq_some_iff, Option.guard_eq_some', exists_const, Option.pure_def, hkind,
      Option.some.injEq, true_and, reduceCtorEq, false_and, false_or, eq_comm (b := d)]
  next hpunct hident =>
    refine iff_of_false (by simp) ?_
    rintro (⟨hkind, -⟩ | ⟨hkind, -⟩)
    · exact hpunct hkind
    · exact hident hkind

theorem paramsBeforeThrows_eq_some : paramsBeforeThrows? ix stop = some u ↔
    ∃ paren keyword thrown, ix.searchBack .closeParen stop (ix.bodyStart stop) 1 = some paren ∧
      ix.clauseBefore? .throwsClause stop paren.stop = some keyword ∧
      ArgList.parse ix true keyword.stop stop = .ok thrown ∧ thrown ≠ [] ∧
      ix.pieceBefore? .normal keyword.start 0 = some u ∧ u.kind = .group '(' := by
  simp only [paramsBeforeThrows?, Option.bind_eq_bind, Option.bind_eq_some_iff, Option.guard_eq_some',
    exists_const, Option.pure_def, Option.some.injEq]
  constructor
  · rintro ⟨paren, hparen, keyword, hkeyword, thrown, hthrown, hne, params, hparams, hkind, rfl⟩
    exact ⟨paren, keyword, thrown, hparen, hkeyword, toOption_eq_some.mp hthrown, by simpa using hne,
      hparams, hkind⟩
  · rintro ⟨paren, keyword, thrown, hparen, hkeyword, hthrown, hne, hparams, hkind⟩
    exact ⟨paren, hparen, keyword, hkeyword, thrown, toOption_eq_some.mpr hthrown, by simpa using hne,
      u, hparams, hkind, rfl⟩

theorem params_eq_some {throwing : Bool} : params? ix stop = some (u, throwing) ↔
    ∃ v, ix.pieceBefore? .normal stop 0 = some v ∧
      (v.kind = .group '(' ∧ v = u ∧ throwing = false ∨
        v.kind ≠ .group '(' ∧ paramsBeforeThrows? ix stop = some u ∧ throwing = true) := by
  simp only [params?, Option.bind_eq_bind, Option.bind_eq_some_iff]
  refine exists_congr fun v => and_congr_right fun _ => ?_
  by_cases hv : v.kind = .group '('
  · simp [hv, eq_comm]
  · simp only [hv, ↓reduceIte, Option.bind_eq_some_iff, Option.pure_def, Option.some.injEq,
      Prod.mk.injEq, false_and, ne_eq, not_false_eq_true, true_and, false_or]
    constructor
    · rintro ⟨w, hw, rfl, rfl⟩
      exact ⟨hw, rfl⟩
    · rintro ⟨hw, rfl⟩
      exact ⟨u, hw, rfl, rfl⟩

theorem methodOrStatement_eq_some : methodOrStatement cfg ix stop = some d ↔
    ∃ params throwing ident, params? ix stop = some (params, throwing) ∧
      ix.pieceBefore? .normal params.start 0 = some ident ∧ ident.kind = .ident ∧
      ((throwing = false ∧ cfg.isStatementKeyword (ix.text.word ident.start ident.stop) = true) ∧
          d = ⟨.statement, ix.text.word ident.start ident.stop, some ident.start⟩ ∨
        ¬ (throwing = false ∧ cfg.isStatementKeyword (ix.text.word ident.start ident.stop) = true) ∧
          ∃ args, ArgList.parse ix false (params.start + 1) (params.stop - 1) = .ok args ∧
            d = ⟨.method, ix.text.word ident.start ident.stop ++ "(" ++
              ",".intercalate (args.map (·.ty)) ++ ")", some (ix.declarationStart ident.start 0)⟩) := by
  simp only [methodOrStatement, Option.bind_eq_bind, Option.bind_eq_some_iff, Option.guard_eq_some',
    exists_const, Prod.exists]
  refine exists_congr fun params => exists_congr fun throwing => ?_
  constructor
  · rintro ⟨hparams, ident, hident, hkind, h⟩
    refine ⟨ident, hparams, hident, hkind, ?_⟩
    split at h
    next hstatement => exact .inl ⟨by simpa using hstatement, (Option.some.inj h).symm⟩
    next hstatement =>
      obtain ⟨args, hargs, h⟩ := Option.bind_eq_some_iff.mp h
      exact .inr ⟨by simpa using hstatement, args, toOption_eq_some.mp hargs, (Option.some.inj h).symm⟩
  · rintro ⟨ident, hparams, hident, hkind, ⟨hstatement, rfl⟩ | ⟨hstatement, args, hargs, rfl⟩⟩
    · exact ⟨hparams, ident, hident, hkind, if_pos (by simpa using hstatement)⟩
    · refine ⟨hparams, ident, hident, hkind, ?_⟩
      rw [if_neg (by simpa using hstatement)]
      exact Option.bind_eq_some_iff.mpr ⟨args, toOption_eq_some.mpr hargs, rfl⟩

end Detect

end BraceScopes
