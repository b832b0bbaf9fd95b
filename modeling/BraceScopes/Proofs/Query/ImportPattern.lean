import BraceScopes.Proofs.Text.Classes
import BraceScopes.Proofs.Text.Regex
import BraceScopes.Proofs.Text.Slice
import BraceScopes.Proofs.Text.Squeeze
import BraceScopes.Query.Header
import Mathlib.Data.Option.Basic
/-!
The pattern of import declarations. A run of path characters, and the white space after it, is followed by
a character of another kind, so there is at most one way to match, and the reader takes it.
-/
namespace BraceScopes

open Regex

namespace Header

def blanks : Regex := run isBlank

def part : Regex := (char isPathChar).plus

def dot : Regex := blanks.seq (exactly '.')

/-- A part after a dot. Where stars are allowed, a star is a part. -/
def later (star : Bool) : Regex := if star then part.alt (exactly '*') else part

def tail (star : Bool) : Regex := dot.seq (blanks.seq (later star))

def path (star : Bool) : Regex := part.seq (tail star).star

def close : Regex := blanks.seq (exactly ';')

def keyword (w : String) : Regex := (word w.toList).seq (char isBlank).plus

def importHead : Regex := wordBoundary.seq (keyword "import")

def importPattern : Regex :=
  importHead.seq ((keyword "static").opt.seq ((path true).seq close))

/-- What the later parts of a path match. -/
inductive LaterParts (t : Text) (star : Bool) : Nat → Nat → List String → Prop
  | nil (p : Nat) : LaterParts t star p p []
  | cons {p m k n q : Nat} {ws : List String} (dot : dot.Matches t p m) (blanks : blanks.Matches t m k)
      (part : (later star).Matches t k n) (rest : LaterParts t star n q ws) :
      LaterParts t star p q (t.word k n :: ws)

/-- What the parts of a path match, from `p` to `q`. -/
inductive Parts (t : Text) (star : Bool) (p q : Nat) : List String → Prop
  | mk {m : Nat} {ws : List String} (first : part.Matches t p m) (rest : LaterParts t star m q ws) :
      Parts t star p q (t.word p m :: ws)

/-- The pattern matches the stretch of a line, with the static group as the line says. The path of the line
is what the parts of the path group match, with dots between them. -/
def Reads (t : Text) (x : HeaderLine) : Prop :=
  ∃ q stop, (importHead.seq (if x.isStatic then keyword "static" else .empty)).Matches t x.start q ∧
    (path true).Matches t q stop ∧ close.Matches t stop x.stop ∧
    ∃ ws, Parts t true q stop ws ∧ x.path = ".".intercalate ws

variable {t : Text} {test : Char → Bool} {star : Bool} {r : Regex} {w : String} {p q m stop e : Nat}
  {c : Char}

theorem not_isPathChar_of_isBlank (h : isBlank c = true) : isPathChar c = false := by
  have hdollar : (c == '$') = false := by
    refine beq_false_of_ne fun heq => ?_
    subst heq
    exact absurd h (by decide)
  rw [isPathChar, isWordChar_of_isBlank h, hdollar]
  rfl

theorem not_isBlank_of_isPathChar (h : isPathChar c = true) : isBlank c = false := by
  refine Bool.eq_false_iff.mpr fun hb => ?_
  rw [not_isPathChar_of_isBlank hb] at h
  cases h

theorem ends_of_charAt (hc : t.charAt p = some c) (htest : test c = false) : t.Ends test p := by
  intro d hd
  rw [hc] at hd
  cases hd
  exact htest

theorem matches_runEnd (t : Text) (test : Char → Bool) (p : Nat) :
    (run test).Matches t p (runEnd t test p) := by
  fun_induction runEnd t test p with
  | case1 p c hc htest ih => exact matches_run_cons hc htest ih
  | case2 | case3 => exact .refl

theorem ends_runEnd (t : Text) (test : Char → Bool) (p : Nat) : t.Ends test (runEnd t test p) := by
  fun_induction runEnd t test p with
  | case1 p c hc htest ih => exact ih
  | case2 p c hc htest => exact ends_of_charAt hc (Bool.eq_false_iff.mpr htest)
  | case3 p hnone =>
    intro c hc
    rw [hnone] at hc
    cases hc

theorem runEnd_eq (h : (run test).Matches t p q) (hq : t.Ends test q) : runEnd t test p = q :=
  matches_run_unique (matches_runEnd t test p) (ends_runEnd t test p) h hq

theorem runEnd_self (h : t.Ends test p) : runEnd t test p = p := runEnd_eq .refl h

theorem matches_plus_runEnd (h : p < runEnd t test p) :
    (char test).plus.Matches t p (runEnd t test p) :=
  matches_plus_char.mpr ⟨h, matches_runEnd t test p⟩

theorem ends_of_mark (hc : t.charAt p = some '.' ∨ t.charAt p = some ';') (hdot : test '.' = false)
    (hsemi : test ';' = false) : t.Ends test p := by
  rcases hc with hc | hc
  · exact ends_of_charAt hc hdot
  · exact ends_of_charAt hc hsemi

/-- After white space stands a dot or a semicolon. -/
def Stops (t : Text) (p : Nat) : Prop :=
  ∃ m, blanks.Matches t p m ∧ (t.charAt m = some '.' ∨ t.charAt m = some ';')

theorem Stops.blanksEnd (h : Stops t p) :
    t.charAt (blanksEnd t p) = some '.' ∨ t.charAt (blanksEnd t p) = some ';' := by
  obtain ⟨m, hm, hc⟩ := h
  rw [Header.blanksEnd, runEnd_eq hm (ends_of_mark hc (by decide) (by decide))]
  exact hc

theorem Stops.ends (h : Stops t p) : t.Ends isPathChar p := by
  obtain ⟨m, hm, hc⟩ := h
  rcases Relation.ReflTransGen.cases_head hm with rfl | ⟨_, ⟨d, hd, hblank, -⟩, -⟩
  · exact ends_of_mark hc (by decide) (by decide)
  · exact ends_of_charAt hd (not_isPathChar_of_isBlank hblank)

theorem stops_of_close (h : close.Matches t p e) : Stops t p := by
  obtain ⟨m, hm, c, hc, hsemi, -⟩ := h
  obtain rfl := eq_of_beq hsemi
  exact ⟨m, hm, .inr hc⟩

theorem stops_of_tail (h : (tail star).Matches t p q) : Stops t p := by
  obtain ⟨_, ⟨m, hm, c, hc, hdot, -⟩, -⟩ := h
  obtain rfl := eq_of_beq hdot
  exact ⟨m, hm, .inl hc⟩

theorem stops_of_tails (h : (tail star).star.Matches t p stop) (hclose : close.Matches t stop e) :
    Stops t p := by
  rcases Relation.ReflTransGen.cases_head h with rfl | ⟨m, htail, -⟩
  · exact stops_of_close hclose
  · exact stops_of_tail htail

theorem close_iff : close.Matches t p e ↔
    t.charAt (blanksEnd t p) = some ';' ∧ blanksEnd t p + 1 = e := by
  constructor
  · rintro ⟨m, hm, c, hc, hsemi, rfl⟩
    obtain rfl := eq_of_beq hsemi
    have hend : blanksEnd t p = m := runEnd_eq hm (ends_of_charAt hc (by decide))
    rw [hend, Text.next_of_charAt hc]
    exact ⟨hc, rfl⟩
  · rintro ⟨hc, rfl⟩
    exact ⟨_, matches_runEnd t isBlank p, ';', hc, rfl, Text.next_of_charAt hc⟩

theorem tail_of_dottedPart? (h : dottedPart? t star p = some q) : (tail star).Matches t p q := by
  unfold dottedPart? at h
  obtain ⟨hdot, h⟩ := Option.ite_none_right_eq_some.mp h
  have hblanks := matches_runEnd t isBlank (t.next (blanksEnd t p))
  have hnext : t.next (blanksEnd t p) = blanksEnd t p + 1 := Text.next_of_charAt hdot
  refine ⟨_, ⟨_, matches_runEnd t isBlank p, '.', hdot, rfl, rfl⟩, _, hblanks, ?_⟩
  change Regex.Matches t _ (blanksEnd t (t.next (blanksEnd t p))) q
  rw [hnext]
  simp only at h
  generalize blanksEnd t (blanksEnd t p + 1) = k at h
  split at h
  next hlt =>
    cases h
    have hpart : part.Matches t k (partEnd t k) := matches_plus_runEnd hlt
    cases star with
    | true => exact .inl hpart
    | false => exact hpart
  next =>
    obtain ⟨⟨hstar, hc⟩, h⟩ := Option.ite_none_right_eq_some.mp h
    cases h
    rw [later, if_pos hstar]
    exact .inr ⟨'*', hc, rfl, Text.next_of_charAt hc⟩

theorem ends_of_part (h : part.Matches t p q) : t.Ends isBlank p := by
  obtain ⟨m, ⟨c, hc, hpath, -⟩, -⟩ := h
  exact ends_of_charAt hc (not_isBlank_of_isPathChar hpath)

theorem partEnd_eq (h : part.Matches t p q) (hq : Stops t q) : p < q ∧ partEnd t p = q := by
  obtain ⟨hlt, hrun⟩ := matches_plus_char.mp h
  exact ⟨hlt, runEnd_eq hrun hq.ends⟩

theorem dottedPart?_of_tail (h : (tail star).Matches t p q) (hq : Stops t q) :
    dottedPart? t star p = some q := by
  obtain ⟨_, ⟨m, hm, c, hc, hdot, rfl⟩, k, hk, hlast⟩ := h
  obtain rfl := eq_of_beq hdot
  have hend : blanksEnd t p = m := runEnd_eq hm (ends_of_charAt hc (by decide))
  rw [Text.next_of_charAt hc] at hk
  -- a part is read whether stars are allowed or not
  have of_part : part.Matches t k q → dottedPart? t star p = some q := by
    intro hpart
    obtain ⟨hlt, hpartEnd⟩ := partEnd_eq hpart hq
    have hkEnd : blanksEnd t (m + 1) = k := runEnd_eq hk (ends_of_part hpart)
    rw [dottedPart?, hend]
    simp only [hkEnd, hpartEnd]
    rw [if_pos hc, if_pos hlt]
  cases star with
  | false => exact of_part hlast
  | true =>
    rcases hlast with hpart | ⟨d, hd, hstar, rfl⟩
    · exact of_part hpart
    · obtain rfl := eq_of_beq hstar
      have hkEnd : blanksEnd t (m + 1) = k := runEnd_eq hk (ends_of_charAt hd (by decide))
      have hno : partEnd t k = k := runEnd_self (ends_of_charAt hd (by decide))
      rw [dottedPart?, hend]
      simp only [hkEnd, hno]
      rw [if_pos hc, if_neg (Nat.lt_irrefl k), if_pos ⟨trivial, hd⟩, Text.next_of_charAt hd]
      rfl

theorem tails_pathEnd (t : Text) (star : Bool) (p : Nat) :
    (tail star).star.Matches t p (pathEnd t star p) := by
  fun_induction pathEnd t star p with
  | case1 p q hq hlt ih => exact .head (tail_of_dottedPart? hq) ih
  | case2 | case3 => exact .refl

theorem lt_of_tail (h : (tail star).Matches t p q) : p < q ∧ q ≤ t.size := by
  obtain ⟨k, ⟨m, hm, c, hc, -, rfl⟩, hrest⟩ := h
  have hpm : p ≤ m := Matches.le hm
  have hmk := t.lt_next m
  have hkq := Matches.le hrest
  exact ⟨by omega, hrest.le_size (Text.next_le_size hc)⟩

/-- The parts of a path are read to the last one that the semicolon can follow. -/
theorem pathEnd_eq (h : (tail star).star.Matches t p stop) (hclose : close.Matches t stop e) :
    pathEnd t star p = stop := by
  -- what follows each dotted part is another one or the close, and neither lets the part go on
  induction h using Relation.ReflTransGen.head_induction_on with
  | refl =>
    have hnone : dottedPart? t star stop = none := by
      rw [dottedPart?, (close_iff.mp hclose).1]
      rfl
    rw [pathEnd, hnone]
  | @head p m htail hrest ih =>
    have hm := dottedPart?_of_tail htail (stops_of_tails hrest hclose)
    rw [pathEnd, hm]
    simp only
    rw [if_pos (lt_of_tail htail)]
    exact ih

theorem path?_eq_some : path? t star p = some (stop, e) ↔
    (path star).Matches t p stop ∧ close.Matches t stop e := by
  constructor
  · intro h
    obtain ⟨⟨hlt, hsemi⟩, h⟩ := Option.ite_none_right_eq_some.mp h
    cases h
    exact ⟨⟨partEnd t p, matches_plus_runEnd hlt, tails_pathEnd t star _⟩,
      close_iff.mpr ⟨hsemi, rfl⟩⟩
  · rintro ⟨⟨m, hpart, htails⟩, hclose⟩
    obtain ⟨hlt, hpartEnd⟩ := partEnd_eq hpart (stops_of_tails htails hclose)
    obtain ⟨hsemi, rfl⟩ := close_iff.mp hclose
    rw [path?, hpartEnd, pathEnd_eq htails hclose]
    exact if_pos ⟨hlt, hsemi⟩

theorem keywordEnd?_eq_some (hw : w.utf8ByteSize = byteLength w.toList) :
    keywordEnd? t w p = some q ↔ (keyword w).Matches t p q ∧ t.Ends isBlank q := by
  rw [keywordEnd?]
  simp only [hw]
  constructor
  · intro h
    obtain ⟨⟨hword, hlt⟩, h⟩ := Option.ite_none_right_eq_some.mp h
    cases h
    exact ⟨⟨_, matches_word.mpr ⟨hword, rfl⟩, matches_plus_runEnd hlt⟩, ends_runEnd t isBlank _⟩
  · rintro ⟨⟨m, hword, hplus⟩, hends⟩
    obtain ⟨hstarts, rfl⟩ := matches_word.mp hword
    obtain ⟨hlt, hblanks⟩ := matches_plus_char.mp hplus
    rw [show blanksEnd t (p + byteLength w.toList) = q from runEnd_eq hblanks hends]
    exact if_pos ⟨hstarts, hlt⟩

theorem exists_laterParts (h : (tail star).star.Matches t p q) : ∃ ws, LaterParts t star p q ws := by
  induction h using Relation.ReflTransGen.head_induction_on with
  | refl => exact ⟨[], .nil q⟩
  | head hstep _ ih =>
    obtain ⟨m, hdot, k, hblanks, hpart⟩ := hstep
    obtain ⟨ws, rest⟩ := ih
    exact ⟨_, .cons hdot hblanks hpart rest⟩

theorem exists_parts (h : (path star).Matches t p q) : ∃ ws, Parts t star p q ws := by
  obtain ⟨m, hfirst, hrest⟩ := h
  obtain ⟨ws, rest⟩ := exists_laterParts hrest
  exact ⟨_, .mk hfirst rest⟩

theorem unspaced_blanks_slice (h : blanks.Matches t p q) : unspaced (t.slice p q) = [] := by
  refine unspaced_blanks fun c hc => ?_
  obtain ⟨i, hp, hi, hc⟩ := Text.mem_slice.mp hc
  exact h.crosses hp hi hc

theorem not_isBlank_of_part (h : part.crosses c = true) : isBlank c = false := by
  rw [show part.crosses c = (isPathChar c || isPathChar c) from rfl, Bool.or_self] at h
  exact not_isBlank_of_isPathChar h

theorem not_isBlank_of_later (h : (later star).crosses c = true) : isBlank c = false := by
  cases star with
  | false => exact not_isBlank_of_part h
  | true =>
    rcases Bool.or_eq_true_iff.mp h with hpart | hstar
    · exact not_isBlank_of_part hpart
    · obtain rfl : c = '*' := eq_of_beq hstar
      decide

/-- Nothing that an expression goes over is a blank, and so no part of a match is left out. -/
theorem unspaced_solid_slice (hr : ∀ c, r.crosses c = true → isBlank c = false) (h : r.Matches t p q) :
    unspaced (t.slice p q) = t.slice p q := by
  refine unspaced_solid fun c hc => ?_
  obtain ⟨i, hp, hi, hc⟩ := Text.mem_slice.mp hc
  exact hr c (h.crosses hp hi hc)

theorem unspaced_dot (h : dot.Matches t p q) : unspaced (t.slice p q) = ['.'] := by
  obtain ⟨m, hblanks, c, hc, hdot, rfl⟩ := h
  obtain rfl := eq_of_beq hdot
  rw [← Text.slice_append_slice hblanks.le (Nat.le_of_lt (t.lt_next m)), unspaced_append,
    unspaced_blanks_slice hblanks, Text.slice_next hc]
  rfl

theorem unspaced_laterParts {ws : List String} (h : LaterParts t star p q ws) :
    p ≤ q ∧ unspaced (t.slice p q) = ws.flatMap fun w => '.' :: w.toList := by
  induction h with
  | nil p =>
    rw [t.slice_self]
    exact ⟨Nat.le_refl p, rfl⟩
  | @cons p m k n q ws hdot hblanks hpart rest ih =>
    have hpm := hdot.le
    have hmk := hblanks.le
    have hkn := hpart.le
    have hword : (t.word k n).toList = t.slice k n := by rw [Text.word, String.toList_ofList]
    refine ⟨by omega, ?_⟩
    rw [← Text.slice_append_slice hpm (by omega), ← Text.slice_append_slice hmk (by omega),
      ← Text.slice_append_slice hkn ih.1, unspaced_append, unspaced_append, unspaced_append,
      unspaced_dot hdot, unspaced_blanks_slice hblanks,
      unspaced_solid_slice (fun c => not_isBlank_of_later) hpart, ih.2, List.flatMap_cons, hword]
    rfl

/-- A path without its white space is its parts with dots between them. -/
theorem squeezed_parts {ws : List String} (h : Parts t star p q ws) :
    squeezed t p q = ".".intercalate ws := by
  obtain @⟨m, ws, hfirst, hrest⟩ := h
  obtain ⟨hle, hlater⟩ := unspaced_laterParts hrest
  have hchars : unspaced (t.slice p q) = t.slice p m ++ ws.flatMap fun w => '.' :: w.toList := by
    rw [← Text.slice_append_slice hfirst.le hle, unspaced_append,
      unspaced_solid_slice (fun c => not_isBlank_of_part) hfirst, hlater]
  rw [← String.toList_inj, String.toList_intercalate, squeezed, String.toList_ofList, List.map_cons,
    intercalate_cons, List.flatMap_map, Text.word, String.toList_ofList]
  exact hchars

theorem ends_of_path (h : (path star).Matches t p q) : t.Ends isBlank p := by
  obtain ⟨m, hpart, -⟩ := h
  exact ends_of_part hpart

/-- A keyword is a part of its own, which ends where the keyword ends. -/
theorem part_of_keyword (hne : w.toList ≠ []) (hw : ∀ c ∈ w.toList, isPathChar c = true)
    (h : (keyword w).Matches t p q) : part.Matches t p (p + byteLength w.toList) ∧
      t.Ends isPathChar (p + byteLength w.toList) := by
  obtain ⟨m, hword, d, ⟨c, hc, hblank, -⟩, -⟩ := h
  obtain ⟨hstarts, rfl⟩ := matches_word.mp hword
  have hpos := byteLength_pos hne
  exact ⟨matches_plus_char.mpr ⟨by omega, matches_run_of_startsWith hw hstarts⟩,
    ends_of_charAt hc (not_isPathChar_of_isBlank hblank)⟩

/-- Where a path is read that begins with the keyword, none follows the keyword. -/
theorem path?_after_static (hpath : (path true).Matches t p stop) (hclose : close.Matches t stop e)
    (hstatic : keywordEnd? t "static" p = some q) : path? t true q = none := by
  obtain ⟨m, hpart, htails⟩ := hpath
  have hstops := stops_of_tails htails hclose
  obtain ⟨hkeyword, hends⟩ := (keywordEnd?_eq_some rfl).mp hstatic
  obtain ⟨hword, hwordEnds⟩ := part_of_keyword (by decide) (by decide) hkeyword
  -- the keyword is all of the first part, so a dot or the semicolon stands where the reader looks for a path
  obtain rfl := matches_run_unique (matches_plus_char.mp hpart).2 hstops.ends
    (matches_plus_char.mp hword).2 hwordEnds
  obtain ⟨k, hword, hplus⟩ := hkeyword
  obtain ⟨-, rfl⟩ := matches_word.mp hword
  have hq : blanksEnd t (p + byteLength "static".toList) = q :=
    runEnd_eq (matches_plus_char.mp hplus).2 hends
  have hafter := hstops.blanksEnd
  rw [hq] at hafter
  have hnone : partEnd t q = q := runEnd_self (ends_of_mark hafter (by decide) (by decide))
  rw [path?, hnone]
  exact if_neg fun h => Nat.lt_irrefl q h.1

theorem importHead_iff : importHead.Matches t p q ∧ t.Ends isBlank q ↔
    keywordEnd? t "import" p = some q ∧ Pattern.wordBoundary t t.size p = true := by
  rw [keywordEnd?_eq_some rfl]
  constructor
  · rintro ⟨⟨m, ⟨hboundary, rfl⟩, hkeyword⟩, hends⟩
    exact ⟨⟨hkeyword, hends⟩, hboundary⟩
  · rintro ⟨⟨hkeyword, hends⟩, hboundary⟩
    exact ⟨⟨p, ⟨hboundary, rfl⟩, hkeyword⟩, hends⟩

theorem importAt?_cases {x : HeaderLine} : importAt? t p = some x ↔
    ∃ q, (keywordEnd? t "import" p = some q ∧ Pattern.wordBoundary t t.size p = true) ∧
      ((∃ q', keywordEnd? t "static" q = some q' ∧
          ∃ stop, path? t true q' = some (stop, x.stop) ∧ x = ⟨p, x.stop, squeezed t q' stop, true⟩) ∨
        (∀ q', keywordEnd? t "static" q = some q' → path? t true q' = none) ∧
          ∃ stop, path? t true q = some (stop, x.stop) ∧ x = ⟨p, x.stop, squeezed t q stop, false⟩) := by
  have line : ∀ q s, ((path? t true q).map fun y => HeaderLine.mk p y.2 (squeezed t q y.1) s) = some x ↔
      ∃ stop, path? t true q = some (stop, x.stop) ∧ x = ⟨p, x.stop, squeezed t q stop, s⟩ := by
    intro q s
    rw [Option.map_eq_some_iff]
    constructor
    · rintro ⟨⟨stop, whole⟩, hpath, rfl⟩
      exact ⟨stop, hpath, rfl⟩
    · rintro ⟨stop, hpath, hx⟩
      exact ⟨(stop, x.stop), hpath, hx.symm⟩
  simp only [importAt?, Option.bind_eq_bind, Option.bind_eq_some_iff, Option.guard_eq_some', exists_const]
  refine exists_congr fun q => ?_
  rw [and_assoc]
  refine and_congr_right fun _ => and_congr_right fun _ => ?_
  cases hstatic : keywordEnd? t "static" q with
  | none => simp [line]
  | some q' =>
    simp only [Option.orElse_eq_orElse, Option.orElse_eq_or, Option.or_eq_some_iff, line,
      Option.map_eq_none_iff, Option.some.injEq, exists_eq_left', forall_eq']

/-- The reader finds exactly what the pattern matches. -/
theorem importAt?_eq_some {x : HeaderLine} : importAt? t p = some x ↔ x.start = p ∧ Reads t x := by
  rw [importAt?_cases]
  constructor
  · rintro ⟨q, hhead, ⟨q', hstatic, stop, hpath, hx⟩ | ⟨-, stop, hpath, hx⟩⟩
    · obtain ⟨hpath, hclose⟩ := path?_eq_some.mp hpath
      obtain ⟨ws, hparts⟩ := exists_parts hpath
      rw [hx]
      exact ⟨rfl, q', stop, ⟨q, (importHead_iff.mpr hhead).1, ((keywordEnd?_eq_some rfl).mp hstatic).1⟩,
        hpath, hclose, ws, hparts, squeezed_parts hparts⟩
    · obtain ⟨hpath, hclose⟩ := path?_eq_some.mp hpath
      obtain ⟨ws, hparts⟩ := exists_parts hpath
      rw [hx]
      exact ⟨rfl, q, stop, ⟨q, (importHead_iff.mpr hhead).1, rfl⟩, hpath, hclose, ws, hparts,
        squeezed_parts hparts⟩
  · obtain ⟨start, whole, name, isStatic⟩ := x
    rintro ⟨rfl, q, stop, ⟨m, hhead, hkind⟩, hpath, hclose, ws, hparts, hname⟩
    obtain rfl : name = squeezed t q stop := hname.trans (squeezed_parts hparts).symm
    have hread := path?_eq_some.mpr ⟨hpath, hclose⟩
    cases isStatic with
    | true =>
      have hstatic := (keywordEnd?_eq_some rfl).mpr ⟨hkind, ends_of_path hpath⟩
      have hword := (part_of_keyword (by decide) (by decide) hkind).1
      exact ⟨m, importHead_iff.mp ⟨hhead, ends_of_part hword⟩,
        .inl ⟨q, hstatic, stop, hread, rfl⟩⟩
    | false =>
      obtain rfl : m = q := hkind
      exact ⟨m, importHead_iff.mp ⟨hhead, ends_of_path hpath⟩,
        .inr ⟨fun q' hq' => path?_after_static hpath hclose hq', stop, hread, rfl⟩⟩

end Header

end BraceScopes
