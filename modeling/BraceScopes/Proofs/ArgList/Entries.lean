import BraceScopes.Proofs.ArgList.TypeText
import BraceScopes.Proofs.Scan.Units
import Mathlib.Data.List.Forall2
/-!
The grammar of a list of types. Reading a list from its end accepts what reads from left to right as
entries with commas between them, and nothing else.
-/
namespace BraceScopes

namespace Lexed

/-- From `p` to `q` stand entries with commas between them, each with its pieces. -/
inductive Entries (ix : Lexed) : Nat → Nat → List (List Piece) → Prop
  | one {p q : Nat} {us : List Piece} (units : ix.Units p q us) : Entries ix p q [us]
  | comma {p k q : Nat} {us : List Piece} {uss : List (List Piece)} (units : ix.Units p k us)
      (comma : ix.CodeChar k ',') (rest : Entries ix (k + 1) q uss) : Entries ix p q (us :: uss)

variable {ix : Lexed} {p q k : Nat} {us : List Piece}

theorem Entries.concat {uss : List (List Piece)} (h : ix.Entries p k uss) (hk : ix.CodeChar k ',')
    (hus : ix.Units (k + 1) q us) : ix.Entries p q (uss ++ [us]) := by
  induction h with
  | one units => exact .comma units hk (.one hus)
  | comma units comma rest ih => exact .comma units comma (ih hk hus)

/-- The last of some entries. -/
theorem Entries.last {uss : List (List Piece)} (h : ix.Entries p q uss) :
    (∃ us, uss = [us] ∧ ix.Units p q us) ∨
      ∃ vss us k, uss = vss ++ [us] ∧ ix.Entries p k vss ∧ ix.CodeChar k ',' ∧ ix.Units (k + 1) q us := by
  induction h with
  | one units => exact .inl ⟨_, rfl, units⟩
  | comma units comma rest ih =>
    rcases ih with ⟨us, rfl, hus⟩ | ⟨vss, us, k, rfl, hvss, hk, hus⟩
    · exact .inr ⟨_, us, _, rfl, .one units, comma, hus⟩
    · exact .inr ⟨_ :: vss, us, k, rfl, .comma units comma hvss, hk, hus⟩

end Lexed

namespace ArgList

open Lexed

/-- The pieces of an entry, and what is read of it. Where names are asked for, the name is the last
identifier, and array brackets may follow it. -/
inductive Entry (ix : Lexed) : Bool → List Piece → Arg → Prop
  | ofType {us : List Piece} (left : ∃ u, some u ∈ remaining ix none us) :
      Entry ix true us ⟨typeText ix us, none⟩
  | named {us dims : List Piece} {name : Piece} (left : ∃ u, some u ∈ remaining ix none us)
      (ident : name.kind = .ident)
      (simple : ∀ p, name.start ≤ p → p < name.stop →
        ix.text.charAt p ≠ some '.' ∧ ix.text.charAt p ≠ some '@')
      (brackets : ∀ u ∈ dims, u.kind = .group '[') :
      Entry ix false (us ++ name :: dims)
        ⟨typeText ix us ++ String.join (List.replicate dims.length "[]"),
          some (ix.text.word name.start name.stop)⟩

variable {ix : Lexed} {start stop p q e k : Nat} {c : Char} {u : Piece} {us acc : List Piece}
  {comma : Option Nat}

/-- Where an entry begins: at the start of the list, or after a comma. -/
def Begins (ix : Lexed) (start e : Nat) (comma : Option Nat) : Prop :=
  e = start ∧ comma = none ∨ ∃ k, ix.CodeChar k ',' ∧ start ≤ k ∧ e = k + 1 ∧ comma = some k

theorem next_comma (h : ix.CodeChar k ',') : ix.text.next k = k + 1 := Text.next_of_charAt h.char

theorem not_ident_comma (hix : ix.IsJava) {m : Mode} : ix.isIdentChar m ',' = false := by
  refine Bool.eq_false_iff.mpr fun h => ?_
  have h := isTypeIdentChar_of_isIdentChar hix.rules h
  exact absurd h (by decide)

theorem Begins.edge (hix : ix.IsJava) (h : Begins ix start e comma) : ix.Edge start e := by
  rcases h with ⟨rfl, -⟩ | ⟨k, hk, -, rfl, -⟩
  · exact .inl (.inl rfl)
  · rw [← next_comma hk]
    exact .inl (stops_next hk (not_ident_comma hix))

theorem Begins.le (h : Begins ix start e comma) : start ≤ e := by
  rcases h with ⟨rfl, -⟩ | ⟨k, -, hle, rfl, -⟩ <;> omega

variable (hix : ix.IsJava)

include hix

theorem last_comma (hk : ix.CodeChar k ',') (hle : start ≤ k) (htrivia : ix.Trivia (k + 1) p) :
    ix.Last .angle start p (some ⟨.punct ',', k, k + 1⟩) := by
  rw [← next_comma hk] at htrivia ⊢
  exact .punct hk (by decide) (by decide) (not_ident_comma hix) hle htrivia

theorem typeBefore_of_units (acc : List Piece) (hstart : ix.CodeGap start) (hp : ix.CodeGap p) (hus : ix.Units e p us)
    (hbegins : Begins ix start e comma) :
    ∃ pos, typeBefore ix start acc p = .ok ⟨us ++ acc, comma, pos⟩ := by
  induction hn : us.length generalizing us p acc with
  | zero =>
    obtain rfl := List.length_eq_zero_iff.mp hn
    cases hus with
    | nil htrivia =>
      rw [typeBefore]
      rcases hbegins with ⟨rfl, rfl⟩ | ⟨k, hk, hle, rfl, rfl⟩
      · have hskip : ix.skipTriviaBack p e = e := by
          rw [skipTriviaBack_codeGap hp, hix.retreat_trivia htrivia (Nat.le_refl _),
            retreat_eq_bound (Nat.le_refl _)]
        refine ⟨p, ?_⟩
        split
        next hnone => rw [hskip, if_neg (Nat.lt_irrefl _)]; rfl
        next u hu => simp [hix.pieceBefore_eq_none hp (.nothing htrivia)] at hu
      · have hpiece := hix.pieceBefore_eq_some hp (last_comma hix hk hle htrivia) (by simp)
        refine ⟨p, ?_⟩
        split
        next hnone => simp [hpiece] at hnone
        next u hu =>
          rw [hpiece] at hu
          cases hu
          rfl
  | succ n ih =>
    obtain ⟨vs, v, rfl, hlast, hunits⟩ := hix.last_of_units hus
      (fun hnil => by simp [hnil] at hn) hbegins.le (hbegins.edge hix)
    have hkind := hus.isUnit v (by simp)
    obtain ⟨pos, hpos⟩ := ih (v :: acc) (hix.codeGap_of_last hlast) hunits (by simpa using hn)
    refine ⟨pos, ?_⟩
    have hpiece := hix.pieceBefore_eq_some hp hlast fun hlit => by simp [Piece.IsUnit, hlit] at hkind
    rw [typeBefore]
    split
    next hnone => simp [hpiece] at hnone
    next u hu =>
      rw [hpiece] at hu
      cases hu
      rw [List.append_assoc, List.singleton_append]
      rcases hkind with hkind | hkind | hkind | hkind <;> simpa only [hkind] using hpos

theorem units_of_typeBefore {found : TypePieces} (hstart : ix.CodeGap start) (hp : ix.CodeGap p)
    (hle : start ≤ p) (hus : ix.Units p stop us) (hedge : p = stop ∧ us = [] ∨ ix.Edge start p)
    (h : typeBefore ix start us p = .ok found) :
    ∃ e, ix.Units e stop found.pieces ∧ Begins ix start e found.comma := by
  induction p using Nat.strongRecOn generalizing us with
  | ind p ih =>
    have hspec := hix.pieceBefore_spec (m := .angle) hstart hp hle
    rw [typeBefore] at h
    split at h
    next hnone =>
      rw [hnone] at hspec
      split at h
      next => simp at h
      next hskip =>
        cases h
        cases hspec with
        | nothing trivia => exact ⟨start, hus.trivia trivia, .inl ⟨rfl, rfl⟩⟩
        | @unpaired k c char closer above alone trivia =>
          have hlt := ix.text.lt_next k
          rw [skipTriviaBack_codeGap hp, hix.retreat_trivia trivia (by omega),
            retreat_solid char (not_isBlank_of_isCloser closer) above] at hskip
          omega
    next u hu =>
      rw [hu] at hspec
      have hlt := pieceBefore_lt hu
      have read : u.IsUnit → typeBefore ix start (u :: us) u.start = .ok found →
          ∃ e, ix.Units e stop found.pieces ∧ Begins ix start e found.comma := by
        intro hkind h
        obtain ⟨hunits, hedge⟩ := hix.units_of_last hspec hkind hus hedge
        exact ih u.start hlt (hix.codeGap_of_last hspec) hspec.above hunits (.inr hedge) h
      split at h
      next hkind =>
        cases h
        cases hspec with
        | punct char solid closer ident above trivia =>
          cases hkind
          rw [next_comma char] at trivia
          exact ⟨_, hus.trivia trivia, .inr ⟨_, char, above, rfl, rfl⟩⟩
        | group => simp at hkind
        | ident => simp at hkind
        | literal => simp at hkind
      next hkind => exact read (.inl hkind) h
      next hkind => exact read (.inr (.inl hkind)) h
      next hkind => exact read (.inr (.inr (.inl hkind))) h
      next hkind => exact read (.inr (.inr (.inr hkind))) h
      next => simp at h

theorem dimsBefore_of_units {dims : List Piece} {name : Piece} (count : Nat) (hp : ix.CodeGap p)
    (hus : ix.Units e p (us ++ name :: dims)) (hbegins : Begins ix start e comma)
    (hident : name.kind = .ident) (hdims : ∀ u ∈ dims, u.kind = .group '[') :
    ∃ q, dimsBefore ix start count p = (count + dims.length, q) ∧ ix.CodeGap q ∧
      ix.Units e q (us ++ [name]) := by
  induction dims using List.reverseRecOn generalizing p count with
  | nil =>
    obtain ⟨hlast, -⟩ := hix.last_of_units_concat hus hbegins.le (hbegins.edge hix)
    have hpiece := hix.pieceBefore_eq_some hp hlast (by simp [hident])
    refine ⟨p, ?_, hp, hus⟩
    rw [dimsBefore]
    split
    next u hu =>
      rw [hpiece] at hu
      cases hu
      simp [hident]
    next hnone => simp [hpiece] at hnone
  | append_singleton dims d ih =>
    have hd : d.kind = .group '[' := hdims d (by simp)
    rw [← List.cons_append, ← List.append_assoc] at hus
    obtain ⟨hlast, hunits⟩ := hix.last_of_units_concat hus hbegins.le (hbegins.edge hix)
    have hpiece := hix.pieceBefore_eq_some hp hlast (by simp [hd])
    obtain ⟨q, hq, hgap, hunits⟩ := ih (count + 1) (hix.codeGap_of_last hlast) hunits
      fun u hu => hdims u (List.mem_append_left _ hu)
    refine ⟨q, ?_, hgap, hunits⟩
    rw [dimsBefore]
    split
    next u hu =>
      rw [hpiece] at hu
      cases hu
      rw [if_pos hd, hq, List.length_append, List.length_singleton]
      congr 1
      omega
    next hnone => simp [hpiece] at hnone

theorem units_of_dimsBefore (dims : List Piece) {n : Nat} (hstart : ix.CodeGap start)
    (hp : ix.CodeGap p) (hle : start ≤ p) (hdims : ix.Units p stop dims)
    (hedge : p = stop ∧ dims = [] ∨ ix.Edge start p) (hkind : ∀ u ∈ dims, u.kind = .group '[')
    (h : dimsBefore ix start dims.length p = (n, q)) :
    ∃ dims', dims'.length = n ∧ ix.Units q stop dims' ∧ (∀ u ∈ dims', u.kind = .group '[') ∧
      (q = stop ∧ dims' = [] ∨ ix.Edge start q) ∧ ix.CodeGap q ∧ start ≤ q := by
  induction p using Nat.strongRecOn generalizing dims with
  | ind p ih =>
    have hspec := hix.pieceBefore_spec (m := .angle) hstart hp hle
    rw [dimsBefore] at h
    split at h
    next u hu =>
      rw [hu] at hspec
      split at h
      next hu' =>
        obtain ⟨hunits, hedge⟩ := hix.units_of_last hspec (.inr (.inr (.inl hu'))) hdims hedge
        exact ih u.start (pieceBefore_lt hu) (u :: dims) (hix.codeGap_of_last hspec) hspec.above hunits
          (.inr hedge) (List.forall_mem_cons.mpr ⟨hu', hkind⟩) h
      next =>
        cases h
        exact ⟨dims, rfl, hdims, hkind, hedge, hp, hle⟩
    next =>
      cases h
      exact ⟨dims, rfl, hdims, hkind, hedge, hp, hle⟩

/-- Where no identifier is cut, no dot and no at sign stands right before an identifier. -/
theorem charBefore_name (hp : ix.CodeGap p) (hstops : ix.Stops .angle start p) (hlt : start < p)
    (hc : ix.CodeChar p c) (hident : ix.isIdentChar .angle c = true) :
    (ix.text.charBefore p).any (fun (_, d) => d == '.' || d == '@') = false := by
  rcases hix.before_codeGap hp (by omega) with ⟨a, d, hd, rfl⟩ | ⟨a, d, r, hd, rfl, hr, hstop⟩
  · have hnot := hstops.resolve_left (by omega) a d rfl hd
    simp only [isIdentChar_angle, Bool.or_eq_false_iff] at hnot
    simp [hd.charBefore, hnot.1.2, hnot.2]
  · have hdelim := hix.isDelimiter_last hd hr hstop.symm (hstop ▸ hc.char) (hix.not_isBlank_of_ident hident)
    rw [Text.charBefore_next hd]
    rcases hdelim with rfl | rfl | rfl <;> rfl

theorem tailBefore_of_units {dims : List Piece} {name : Piece} (hp : ix.CodeGap p)
    (hus : ix.Units e p (us ++ name :: dims)) (hne : us ≠ [])
    (hbegins : Begins ix start e comma) (hident : name.kind = .ident)
    (hsimple : ∀ i, name.start ≤ i → i < name.stop →
      ix.text.charAt i ≠ some '.' ∧ ix.text.charAt i ≠ some '@')
    (hdims : ∀ u ∈ dims, u.kind = .group '[') :
    tailBefore ix start p =
      .ok ⟨dims.length, some (ix.text.word name.start name.stop), name.start⟩ ∧
        ix.CodeGap name.start ∧ ix.Units e name.start us := by
  obtain ⟨q, hq, hgap, hunits⟩ := dimsBefore_of_units hix 0 hp hus hbegins hident hdims
  obtain ⟨hlast, hus⟩ := hix.last_of_units_concat hunits hbegins.le (hbegins.edge hix)
  have hname := hix.codeGap_of_last hlast
  refine ⟨?_, hname, hus⟩
  have hlt := (hix.le_of_units hus).2 hne
  cases hlast with
  | group | punct | literal => simp at hident
  | ident word nonempty above stops trivia =>
    obtain ⟨c, hc, hcident⟩ := word.first nonempty
    have hpiece := hix.pieceBefore_eq_some hgap
      (.ident (word.normal hsimple) nonempty above stops.normal trivia) (by simp)
    have hbefore := charBefore_name hix hname stops (Nat.lt_of_le_of_lt hbegins.le hlt) hc hcident
    simp only [tailBefore, hq, hpiece, Nat.zero_add, hbefore]
    rfl

theorem units_of_tailBefore {tail : Tail} (hstart : ix.CodeGap start) (hstop : ix.CodeGap stop)
    (hle : start ≤ stop) (h : tailBefore ix start stop = .ok tail) :
    ∃ dims name, tail = ⟨dims.length, some (ix.text.word name.start name.stop), name.start⟩ ∧
      name.kind = .ident ∧ (∀ u ∈ dims, u.kind = .group '[') ∧
      (∀ i, name.start ≤ i → i < name.stop →
        ix.text.charAt i ≠ some '.' ∧ ix.text.charAt i ≠ some '@') ∧
      ix.Units name.start stop (name :: dims) ∧ ix.Edge start name.start ∧
      ix.CodeGap name.start ∧ start ≤ name.start := by
  unfold tailBefore at h
  generalize hfound : dimsBefore ix start 0 stop = found at h
  obtain ⟨n, q⟩ := found
  obtain ⟨dims, rfl, hdims, hkind, hedge, hgap, hsq⟩ := units_of_dimsBefore hix [] hstart hstop hle
    (.nil (.nil _)) (.inl ⟨rfl, rfl⟩) (by simp) hfound
  have hspec := hix.pieceBefore_spec (m := .normal) hstart hgap hsq
  simp only at h
  split at h
  next => simp at h
  next u hu =>
    rw [hu] at hspec
    split at h
    next => simp at h
    next hident =>
      split at h
      next => simp at h
      next hbefore =>
        cases h
        have hident : u.kind = .ident := not_not.mp hident
        cases hspec with
        | group | punct | literal => simp at hident
        | @ident s e word nonempty above stops trivia =>
          have hstops : ix.Stops .angle start s := by
            refine stops.imp_right fun hnot a c hnext hc => ?_
            have hback := hc.charBefore
            rw [hnext] at hback
            simp only [hback, Option.any_some, Bool.or_eq_true, beq_iff_eq, not_or] at hbefore
            simp [isIdentChar_angle, hnot a c hnext hc, hbefore]
          have hlast : ix.Last .angle start q (some ⟨.ident, s, e⟩) :=
            .ident word.angle nonempty above hstops trivia
          obtain ⟨hunits, hedge⟩ := hix.units_of_last hlast (.inl rfl) hdims hedge
          exact ⟨dims, ⟨.ident, s, e⟩, rfl, rfl, hkind, hix.simple_of_word word, hunits, hedge,
            hix.codeGap_of_last hlast, above⟩

theorem entryBefore_of_units {typesOnly : Bool} {arg : Arg} (hstart : ix.CodeGap start)
    (hp : ix.CodeGap p) (hus : ix.Units e p us) (hbegins : Begins ix start e comma)
    (h : Entry ix typesOnly us arg) : entryBefore ix typesOnly start p = .ok (arg, comma) := by
  unfold entryBefore
  cases h with
  | ofType left =>
    obtain ⟨pos, hpos⟩ := typeBefore_of_units hix [] hstart hp hus hbegins
    rw [List.append_nil] at hpos
    simp only [↓reduceIte, hpos, (typeText_eq_some hix hus).mpr ⟨left, rfl⟩, List.replicate_zero,
      String.join_nil, String.append_empty]
  | @named us dims name left ident simple brackets =>
    have hne : us ≠ [] := by
      rintro rfl
      simp [remaining] at left
    obtain ⟨htail, hname, hunits⟩ := tailBefore_of_units hix hp hus hne hbegins ident simple brackets
    obtain ⟨pos, hpos⟩ := typeBefore_of_units hix [] hstart hname hunits hbegins
    rw [List.append_nil] at hpos
    simp only [Bool.false_eq_true, ↓reduceIte, htail, hpos, (typeText_eq_some hix hunits).mpr ⟨left, rfl⟩]

theorem units_of_entryBefore {typesOnly : Bool} {arg : Arg} (hstart : ix.CodeGap start)
    (hstop : ix.CodeGap stop) (hle : start ≤ stop)
    (h : entryBefore ix typesOnly start stop = .ok (arg, comma)) :
    ∃ e us, ix.Units e stop us ∧ Begins ix start e comma ∧ Entry ix typesOnly us arg := by
  unfold entryBefore at h
  split at h
  next => simp at h
  next tail htail =>
    split at h
    next => simp at h
    next found hfound =>
      split at h
      next => simp at h
      next ty hty =>
        cases h
        cases typesOnly with
        | true =>
          cases htail
          obtain ⟨e, hunits, hbegins⟩ := units_of_typeBefore hix hstart hstop hle (.nil (.nil _))
            (.inl ⟨rfl, rfl⟩) hfound
          obtain ⟨left, rfl⟩ := (typeText_eq_some hix hunits).mp hty
          refine ⟨e, found.pieces, hunits, hbegins, ?_⟩
          simpa using Entry.ofType left
        | false =>
          obtain ⟨dims, name, rfl, ident, brackets, simple, hunits, hedge, hname, hsn⟩ :=
            units_of_tailBefore hix hstart hstop hle htail
          obtain ⟨e, hus, hbegins⟩ := units_of_typeBefore hix hstart hname hsn (.nil (.nil _))
            (.inl ⟨rfl, rfl⟩) hfound
          obtain ⟨left, rfl⟩ := (typeText_eq_some hix hus).mp hty
          have hedge' := hedge.mono hbegins.le (hix.le_of_units hus).1
          exact ⟨e, _, hix.units_append hus hunits hedge', hbegins, .named left ident simple brackets⟩

theorem le_of_entries {uss : List (List Piece)} (h : ix.Entries p q uss) : p ≤ q := by
  induction h with
  | one units => exact (hix.le_of_units units).1
  | comma units comma rest ih =>
    have := (hix.le_of_units units).1
    omega

omit hix in
theorem forall₂_concat {typesOnly : Bool} {uss : List (List Piece)} {args : List Arg}
    (h : List.Forall₂ (Entry ix typesOnly) (uss ++ [us]) args) :
    ∃ before arg, args = before ++ [arg] ∧ List.Forall₂ (Entry ix typesOnly) uss before ∧
      Entry ix typesOnly us arg := by
  induction uss generalizing args with
  | nil =>
    obtain ⟨arg, rest, harg, hrest, rfl⟩ := List.forall₂_cons_left_iff.mp h
    cases hrest
    exact ⟨[], arg, rfl, .nil, harg⟩
  | cons vs uss ih =>
    obtain ⟨first, rest, hfirst, hrest, rfl⟩ := List.forall₂_cons_left_iff.mp h
    obtain ⟨before, arg, rfl, hbefore, harg⟩ := ih hrest
    exact ⟨first :: before, arg, rfl, .cons hfirst hbefore, harg⟩

theorem entriesBefore_of_entries {typesOnly : Bool} {uss : List (List Piece)} {args rest : List Arg}
    (hstart : ix.CodeGap start) (hp : ix.CodeGap p) (h : ix.Entries start p uss)
    (hargs : List.Forall₂ (Entry ix typesOnly) uss args) :
    entriesBefore ix typesOnly start rest p = .ok (args ++ rest) := by
  induction uss using List.reverseRecOn generalizing args rest p with
  | nil => rcases h.last with ⟨us, hnil, -⟩ | ⟨vss, us, k, hnil, -⟩ <;> simp at hnil
  | append_singleton uss us ih =>
    obtain ⟨args, arg, rfl, huss, harg⟩ := forall₂_concat hargs
    rw [entriesBefore]
    rcases h.last with ⟨us', heq, hus⟩ | ⟨vss, us', k, heq, hvss, hk, hus⟩
    · obtain ⟨rfl, hsingle⟩ := List.append_inj' (heq.trans (List.nil_append _).symm) rfl
      cases hsingle
      cases huss
      have hentry := entryBefore_of_units hix hstart hp hus (.inl ⟨rfl, rfl⟩) harg
      split
      next e he => simp [hentry] at he
      next a ha =>
        rw [hentry] at ha
        cases ha
        rfl
      next a k ha => simp [hentry] at ha
    · obtain ⟨rfl, hsingle⟩ := List.append_inj' heq rfl
      cases hsingle
      have hentry := entryBefore_of_units hix hstart hp hus
        (.inr ⟨k, hk, le_of_entries hix hvss, rfl, rfl⟩) harg
      split
      next e he => simp [hentry] at he
      next a ha => simp [hentry] at ha
      next a k' ha =>
        rw [hentry] at ha
        cases ha
        rw [ih (hix.codeGap_of_code hk) hvss huss, List.append_assoc, List.singleton_append]

theorem entries_of_entriesBefore {typesOnly : Bool} {args rest : List Arg}
    (hstart : ix.CodeGap start) (hp : ix.CodeGap p) (hle : start ≤ p)
    (h : entriesBefore ix typesOnly start rest p = .ok args) :
    ∃ uss new, args = new ++ rest ∧ ix.Entries start p uss ∧
      List.Forall₂ (Entry ix typesOnly) uss new := by
  induction p using Nat.strongRecOn generalizing rest with
  | ind p ih =>
    rw [entriesBefore] at h
    split at h
    next => simp at h
    next arg hentry =>
      cases h
      obtain ⟨e, us, hus, hbegins, harg⟩ := units_of_entryBefore hix hstart hp hle hentry
      rcases hbegins with ⟨rfl, -⟩ | ⟨k, -, -, -, hnone⟩
      · exact ⟨[us], [arg], rfl, .one hus, .cons harg .nil⟩
      · simp at hnone
    next arg k hentry =>
      obtain ⟨e, us, hus, hbegins, harg⟩ := units_of_entryBefore hix hstart hp hle hentry
      rcases hbegins with ⟨-, hnone⟩ | ⟨k, hk, hsk, rfl, hsome⟩
      · simp at hnone
      · cases hsome
        obtain ⟨uss, new, rfl, huss, hnew⟩ := ih k (entryBefore_comma_lt hentry)
          (hix.codeGap_of_code hk) hsk h
        refine ⟨uss ++ [us], new ++ [arg], by simp, huss.concat hk hus, ?_⟩
        exact List.rel_append hnew (.cons harg .nil)

theorem skipTriviaBack_le_iff (hstart : ix.CodeGap start) (hstop : ix.CodeGap stop) (hle : start ≤ stop) :
    ix.skipTriviaBack stop start ≤ start ↔ ix.Trivia start stop := by
  rw [skipTriviaBack_codeGap hstop]
  constructor
  · intro h
    have hspec := hix.retreat_spec hstart hstop hle
    generalize ix.retreat start stop = q at h hspec
    cases hspec with
    | bound trivia => exact trivia
    | @code a c char solid above trivia =>
      have := ix.text.lt_next a
      omega
    | literal region kind above inside before trivia =>
      obtain ⟨a, c, ha, hr⟩ := inside
      have := Text.charBefore_lt ha
      have := (of_regionAtChar hr).1
      omega
  · intro h
    exact Nat.le_of_eq (by rw [hix.retreat_trivia h (Nat.le_refl _), retreat_eq_bound (Nat.le_refl _)])

theorem parse_trivia {typesOnly : Bool} (hstop : ix.CodeGap stop) (h : ix.Trivia start stop) :
    parse ix typesOnly start stop = .ok [] := by
  rw [parse, skipTriviaBack_codeGap hstop, hix.retreat_trivia h (Nat.le_refl _),
    retreat_eq_bound (Nat.le_refl _), if_pos (Nat.le_refl _)]

/-- A list that is more than trivia is read when it reads as entries. -/
theorem parse_eq_ok {typesOnly : Bool} {args : List Arg} (hstart : ix.CodeGap start)
    (hstop : ix.CodeGap stop) (hle : start ≤ stop) (h : ¬ ix.Trivia start stop) :
    parse ix typesOnly start stop = .ok args ↔
      ∃ uss, ix.Entries start stop uss ∧ List.Forall₂ (Entry ix typesOnly) uss args := by
  rw [parse, if_neg fun hskip => h ((skipTriviaBack_le_iff hix hstart hstop hle).mp hskip)]
  constructor
  · intro hparse
    obtain ⟨uss, new, rfl, huss, hnew⟩ := entries_of_entriesBefore hix hstart hstop hle hparse
    rw [List.append_nil]
    exact ⟨uss, huss, hnew⟩
  · rintro ⟨uss, huss, hargs⟩
    rw [entriesBefore_of_entries hix hstart hstop huss hargs, List.append_nil]

end ArgList

open ArgList

/-- Between two gaps of Java code, a list of trivia is empty, and any other list is read exactly when it
reads from left to right as entries with commas between them. What is read of an entry is its name,
where names are asked for, and the text of its type with the array brackets after the name. -/
theorem parse_eq_ok_iff_entries (t : Text) (typesOnly : Bool) (start stop : Nat)
    (hstart : (Lexed.ofText t .java).CodeGap start) (hstop : (Lexed.ofText t .java).CodeGap stop)
    (hle : start ≤ stop) :
    ((Lexed.ofText t .java).Trivia start stop →
        parse (.ofText t .java) typesOnly start stop = .ok []) ∧
      (¬ (Lexed.ofText t .java).Trivia start stop → ∀ args,
        parse (.ofText t .java) typesOnly start stop = .ok args ↔
          ∃ uss, (Lexed.ofText t .java).Entries start stop uss ∧
            List.Forall₂ (Entry (.ofText t .java) typesOnly) uss args) := by
  have hix := Lexed.isJava_ofText t
  refine ⟨fun htrivia => parse_trivia hix hstop htrivia, fun htrivia args => ?_⟩
  exact parse_eq_ok hix hstart hstop hle htrivia

/-- Two parameters: one with a comment inside its type, and one with a modifier, an annotation with
arguments, and array brackets after its name. -/
theorem parse_eq_ok_iff_entries_parameters :
    let t : Text := .ofString "m(Map<K,/*>*/  V> d, final @E(\")\") F g[])"
    (Lexed.ofText t .java).CodeGap 2 ∧ (Lexed.ofText t .java).CodeGap 40 ∧
      ∃ uss, (Lexed.ofText t .java).Entries 2 40 uss ∧
        List.Forall₂ (Entry (.ofText t .java) false) uss
          [⟨"Map<K, V>", some "d"⟩, ⟨"F[]", some "g"⟩] := by
  intro t
  have start : (Lexed.ofText t .java).CodeGap 2 := ⟨by decide +kernel, by decide +kernel⟩
  have stop : (Lexed.ofText t .java).CodeGap 40 := ⟨by decide +kernel, by decide +kernel⟩
  have more : ¬ (Lexed.ofText t .java).Trivia 2 40 := by
    rw [← skipTriviaBack_le_iff (Lexed.isJava_ofText t) start stop (by decide)]
    decide +kernel
  have read : parse (.ofText t .java) false 2 40 =
      .ok [⟨"Map<K, V>", some "d"⟩, ⟨"F[]", some "g"⟩] := by decide +kernel
  exact ⟨start, stop, ((parse_eq_ok_iff_entries t false 2 40 start stop (by decide)).2 more _).mp read⟩

end BraceScopes
