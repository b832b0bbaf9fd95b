import BraceScopes.ArgList
import BraceScopes.Proofs.Scan.Piece
/-!
Reading a list of types depends on nothing after the end of the list.
-/
namespace BraceScopes

namespace ArgList

/-- A piece that ends by `n`. -/
def EndsBy (n : Nat) (u : Piece) : Prop := u.start < u.stop ∧ u.stop ≤ n

theorem endsBy_of_pieceBefore {ix : Lexed} {m : Mode} {n p bound : Nat} {u : Piece} (hp : p ≤ n)
    (h : ix.pieceBefore? m p bound = some u) : EndsBy n u := by
  have := Lexed.pieceBefore_bounds h
  exact ⟨this.1, by omega⟩

theorem mem_strike {ix : Lexed} {annotated : Bool} {us : List Piece} {u : Piece}
    (h : some u ∈ strike ix annotated us) : u ∈ us := by
  fun_induction strike ix annotated us with
  | case1 => simp at h
  | case2 annotated v us hv ih | case3 annotated v us hv hw ih | case4 annotated v us hv hw hf ih =>
    rcases List.mem_cons.mp h with h | h
    · simp at h
    · exact List.mem_cons_of_mem v (ih h)
  | case5 annotated v us hv hw hf ih =>
    rcases List.mem_cons.mp h with h | h
    · cases h
      exact List.mem_cons_self ..
    · exact List.mem_cons_of_mem v (ih h)

/-- A stretch ends where one of its pieces does. -/
theorem segments_stop {us : List (Option Piece)} {s : Span} (h : s ∈ segments us) :
    ∃ u, some u ∈ us ∧ u.stop = s.stop := by
  have longer : ∀ {a : Option Piece} {us : List (Option Piece)} {k : Nat},
      (∃ u, some u ∈ us ∧ u.stop = k) → ∃ u, some u ∈ a :: us ∧ u.stop = k :=
    fun ⟨u, hu, hk⟩ => ⟨u, List.mem_cons_of_mem _ hu, hk⟩
  fun_induction segments us generalizing s with
  | case1 => simp at h
  | case2 us ih => exact longer (ih h)
  | case3 u v us s' ss hss ih =>
    rw [hss] at ih
    rcases List.mem_cons.mp h with rfl | h
    · exact longer (ih (s := s') (List.mem_cons_self ..))
    · exact longer (ih (List.mem_cons_of_mem s' h))
  | case4 u v us hss ih =>
    obtain rfl := List.mem_singleton.mp h
    exact ⟨u, List.mem_cons_self .., rfl⟩
  | case5 u us hne ih =>
    rcases List.mem_cons.mp h with rfl | h
    · exact ⟨u, List.mem_cons_self .., rfl⟩
    · exact longer (ih h)

theorem endsBy_of_typeBefore {ix : Lexed} {n start p : Nat} {pieces : List Piece} {found : TypePieces}
    (hp : p ≤ n) (hpieces : ∀ u ∈ pieces, EndsBy n u)
    (h : typeBefore ix start pieces p = .ok found) : ∀ u ∈ found.pieces, EndsBy n u := by
  fun_induction typeBefore ix start pieces p with
  | case1 => simp at h
  | case2 => cases h; exact hpieces
  | case3 => cases h; exact hpieces
  | case4 pieces p u hu hk ih | case5 pieces p u hu hk ih | case6 pieces p u hu hk ih
  | case7 pieces p u hu hk ih =>
    have hlt := Lexed.pieceBefore_lt hu
    refine ih (by omega) (fun v hv => ?_) h
    rcases List.mem_cons.mp hv with rfl | hv
    · exact endsBy_of_pieceBefore hp hu
    · exact hpieces v hv
  | case8 => simp at h

end ArgList

namespace Lexed.SameBelow

open ArgList

variable {n : Nat} {x y : Lexed}

theorem dimsBefore (h : SameBelow n x y) (start count : Nat) {p : Nat} (hp : p ≤ n) :
    ArgList.dimsBefore x start count p = ArgList.dimsBefore y start count p := by
  induction p using Nat.strongRecOn generalizing count with
  | ind p ih =>
    unfold ArgList.dimsBefore
    rw [h.pieceBefore .angle hp]
    cases hu : y.pieceBefore? .angle p start with
    | none => rfl
    | some u =>
      have hlt := pieceBefore_lt hu
      simp only
      rw [ih u.start hlt (count + 1) (by omega)]

theorem tailBefore (h : SameBelow n x y) (start : Nat) {p : Nat} (hp : p ≤ n) :
    ArgList.tailBefore x start p = ArgList.tailBefore y start p := by
  have hle := dimsBefore_le y start 0 p
  unfold ArgList.tailBefore
  rw [h.dimsBefore start 0 hp]
  generalize ArgList.dimsBefore y start 0 p = found at hle
  obtain ⟨dims, q⟩ := found
  simp only at hle ⊢
  rw [h.pieceBefore .normal (by omega)]
  cases hu : y.pieceBefore? .normal q start with
  | none => rfl
  | some u =>
    have hbounds := pieceBefore_bounds hu
    simp only
    rw [h.text.charBefore (by omega), h.text.word u.start (by omega)]

theorem typeBefore (h : SameBelow n x y) (start : Nat) (pieces : List Piece) {p : Nat} (hp : p ≤ n) :
    ArgList.typeBefore x start pieces p = ArgList.typeBefore y start pieces p := by
  induction p using Nat.strongRecOn generalizing pieces with
  | ind p ih =>
    unfold ArgList.typeBefore
    rw [h.pieceBefore .angle hp, h.skipTriviaBack hp]
    cases hu : y.pieceBefore? .angle p start with
    | none => rfl
    | some u =>
      have hlt := pieceBefore_lt hu
      simp only
      rw [ih u.start hlt (u :: pieces) (by omega)]

theorem strike (h : SameBelow n x y) (annotated : Bool) {us : List Piece}
    (hus : ∀ u ∈ us, EndsBy n u) : ArgList.strike x annotated us = ArgList.strike y annotated us := by
  induction us generalizing annotated with
  | nil => rfl
  | cons u us ih =>
    obtain ⟨hstart, hstop⟩ := hus u (List.mem_cons_self ..)
    have rest := fun annotated => ih annotated fun v hv => hus v (List.mem_cons_of_mem u hv)
    unfold ArgList.strike
    rw [h.text.agree u.start (by omega), h.isWord hstop]
    simp only [rest]

theorem typeText (h : SameBelow n x y) {us : List Piece} (hus : ∀ u ∈ us, EndsBy n u) :
    ArgList.typeText? x us = ArgList.typeText? y us := by
  have each : ∀ s ∈ segments (ArgList.strike y false us),
      String.ofList (x.normalized s.start s.stop) = String.ofList (y.normalized s.start s.stop) := by
    intro s hs
    obtain ⟨u, hu, hstop⟩ := segments_stop hs
    have hle := (hus u (mem_strike hu)).2
    rw [h.normalized s.start (by omega)]
  unfold ArgList.typeText?
  rw [h.strike false hus]
  cases hs : segments (ArgList.strike y false us) with
  | nil => rfl
  | cons s ss =>
    rw [hs] at each
    simp only
    rw [List.map_congr_left each]

theorem entryBefore (h : SameBelow n x y) (typesOnly : Bool) (start : Nat) {p : Nat} (hp : p ≤ n) :
    ArgList.entryBefore x typesOnly start p = ArgList.entryBefore y typesOnly start p := by
  unfold ArgList.entryBefore
  rw [h.tailBefore start hp]
  cases ht : (if typesOnly then .ok ⟨0, none, p⟩ else ArgList.tailBefore y start p) with
  | error e => rfl
  | ok tail =>
    have hle : tail.pos ≤ p := by
      split at ht
      next => cases ht; exact Nat.le_refl _
      next => exact tailBefore_le ht
    simp only
    rw [h.typeBefore start [] (by omega)]
    cases hf : ArgList.typeBefore y start [] tail.pos with
    | error e => rfl
    | ok found =>
      have hends : ∀ u ∈ found.pieces, EndsBy n u :=
        endsBy_of_typeBefore (by omega) (fun u hu => by simp at hu) hf
      simp only
      rw [h.typeText hends]

theorem entriesBefore (h : SameBelow n x y) (typesOnly : Bool) (start : Nat) (args : List Arg) {p : Nat}
    (hp : p ≤ n) : ArgList.entriesBefore x typesOnly start args p =
      ArgList.entriesBefore y typesOnly start args p := by
  induction p using Nat.strongRecOn generalizing args with
  | ind p ih =>
    unfold ArgList.entriesBefore
    rw [h.entryBefore typesOnly start hp]
    cases he : ArgList.entryBefore y typesOnly start p with
    | error e => rfl
    | ok found =>
      obtain ⟨arg, comma⟩ := found
      cases comma with
      | none => rfl
      | some c =>
        have hlt := entryBefore_comma_lt he
        exact ih c hlt (arg :: args) (by omega)

theorem parse (h : SameBelow n x y) (typesOnly : Bool) (start : Nat) {stop : Nat} (hstop : stop ≤ n) :
    ArgList.parse x typesOnly start stop = ArgList.parse y typesOnly start stop := by
  unfold ArgList.parse
  rw [h.skipTriviaBack hstop, h.entriesBefore typesOnly start [] hstop]

end Lexed.SameBelow

end BraceScopes
