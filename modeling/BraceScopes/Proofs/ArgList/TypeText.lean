import BraceScopes.Proofs.ArgList
import BraceScopes.Proofs.Scan.Normalized
import BraceScopes.Proofs.Scan.Units
/-!
The text of a type: what is left of its pieces when modifiers and annotations are struck. Neighbouring
pieces keep the code between them, without comments and with white space collapsed, and where something was
struck a space stands for it.
-/
namespace BraceScopes

namespace ArgList

def annotates (ix : Lexed) (u : Piece) : Bool :=
  u.kind == .ident && ix.text.charAt u.start == some '@'

/-- Whether a piece of a type is struck when it stands right after `before`: a modifier, an annotation,
or the arguments of an annotation. -/
def isStruck (ix : Lexed) (before : Option Piece) (u : Piece) : Bool :=
  ix.isWord u "final" || annotates ix u || u.kind == .group '(' && before.any (annotates ix)

/-- The pieces after `before`, with nothing in the place of those that are struck. -/
def remaining (ix : Lexed) (before : Option Piece) (us : List Piece) : List (Option Piece) :=
  List.zipWith (fun before u => if isStruck ix before u then none else some u) (before :: us.map some) us

/-- The longest stretches of pieces without a struck one between them. -/
def stretches (os : List (Option Piece)) : List (List Piece) :=
  ((os.splitOnP (·.isNone)).map (·.filterMap id)).filter (!·.isEmpty)

/-- From the start of the first piece to the end of the last. -/
def spanOf : List Piece → Span
  | [] => ⟨0, 0⟩
  | u :: us => ⟨u.start, ((u :: us).getLast (List.cons_ne_nil u us)).stop⟩

/-- The plain text from the first piece to the last, with white space collapsed. -/
def runText (ix : Lexed) (us : List Piece) : List Char :=
  squeeze (ix.plain (spanOf us).start (spanOf us).stop)

def typeText (ix : Lexed) (us : List Piece) : String :=
  " ".intercalate ((stretches (remaining ix none us)).map fun run => String.ofList (runText ix run))

variable {ix : Lexed} {p q : Nat} {us : List Piece} {os : List (Option Piece)} {u v : Piece}

theorem remaining_cons (before : Option Piece) :
    remaining ix before (u :: us) =
      (if isStruck ix before u then none else some u) :: remaining ix (some u) us := rfl

theorem strike_eq (before : Option Piece) (us : List Piece) :
    strike ix (before.any (annotates ix)) us = remaining ix before us := by
  induction us generalizing before with
  | nil => rfl
  | cons u us ih =>
    rw [remaining_cons, ← ih, strike, isStruck]
    by_cases hargs : u.kind = .group '('
    · have hword : ix.isWord u "final" = false := by simp [Lexed.isWord, hargs]
      have hann : annotates ix u = false := by simp [annotates, hargs]
      cases before.any (annotates ix) <;> simp [hword, hann, hargs]
    · cases hann : annotates ix u with
      | true =>
        have hann' := hann
        simp only [annotates] at hann'
        simp [hargs, hann', hann]
      | false =>
        have hann' := hann
        simp only [annotates] at hann'
        cases hword : ix.isWord u "final" <;> simp [hargs, hann', hann]

theorem stretches_nil : stretches [] = [] := rfl

theorem stretches_none : stretches (none :: os) = stretches os := by
  simp [stretches, List.splitOnP_cons_eq_if_modifyHead]

theorem stretches_some_none : stretches (some u :: none :: os) = [u] :: stretches os := by
  simp [stretches, List.splitOnP_cons_eq_if_modifyHead]

theorem stretches_some_nil : stretches [some u] = [[u]] := rfl

/-- A piece before a piece that is left belongs to its stretch. -/
theorem stretches_some_some (u v : Piece) (os : List (Option Piece)) :
    ∃ run rest, stretches (some v :: os) = (v :: run) :: rest ∧
      stretches (some u :: some v :: os) = (u :: v :: run) :: rest := by
  obtain ⟨run, rest, hsplit⟩ := List.exists_cons_of_ne_nil (List.splitOnP_ne_nil (·.isNone) os)
  refine ⟨run.filterMap id, (rest.map (·.filterMap id)).filter (!·.isEmpty), ?_, ?_⟩
  · simp [stretches, List.splitOnP_cons_eq_if_modifyHead, hsplit]
  · simp [stretches, List.splitOnP_cons_eq_if_modifyHead, hsplit]

theorem segments_eq (os : List (Option Piece)) : segments os = (stretches os).map spanOf := by
  fun_induction segments os with
  | case1 => rfl
  | case2 os ih => rw [stretches_none, ih]
  | case3 u v os s ss hss ih =>
    obtain ⟨run, rest, hv, huv⟩ := stretches_some_some u v os
    rw [hv, hss, List.map_cons, List.cons.injEq] at ih
    rw [huv, List.map_cons, ih.1, ih.2]
    simp [spanOf]
  | case4 u v os hss ih =>
    obtain ⟨run, rest, hv, -⟩ := stretches_some_some u v os
    rw [hv, hss] at ih
    simp at ih
  | case5 u os hne ih =>
    cases os with
    | nil => rfl
    | cons o os =>
      cases o with
      | none =>
        rw [stretches_some_none, ih, stretches_none]
        rfl
      | some v => exact (hne v os rfl).elim

theorem stretches_ne_nil : stretches os ≠ [] ↔ ∃ u, some u ∈ os := by
  induction os with
  | nil => simp [stretches_nil]
  | cons o os ih =>
    cases o with
    | none => simpa [stretches_none] using ih
    | some u =>
      refine iff_of_true ?_ ⟨u, List.mem_cons_self ..⟩
      rcases os with - | ⟨- | v, os⟩
      · simp [stretches_some_nil]
      · simp [stretches_some_none]
      · obtain ⟨run, rest, -, huv⟩ := stretches_some_some u v os
        simp [huv]

/-- Each stretch holds some of the pieces, in their order. -/
theorem mem_stretches {run : List Piece} (h : run ∈ stretches os) :
    run ≠ [] ∧ run.Sublist (os.filterMap id) := by
  induction os generalizing run with
  | nil => simp [stretches_nil] at h
  | cons o os ih =>
    cases o with
    | none =>
      rw [stretches_none] at h
      exact ih h
    | some u =>
      rw [show (some u :: os).filterMap id = u :: os.filterMap id from rfl]
      rcases os with - | ⟨- | v, os⟩
      · rw [stretches_some_nil, List.mem_singleton] at h
        subst h
        simp
      · rw [stretches_some_none, List.mem_cons, ← stretches_none] at h
        rcases h with rfl | h
        · simp
        · exact ⟨(ih h).1, (ih h).2.cons u⟩
      · obtain ⟨run', rest, hv, huv⟩ := stretches_some_some u v os
        rw [huv, List.mem_cons] at h
        rw [hv] at ih
        rcases h with rfl | h
        · exact ⟨List.cons_ne_nil _ _, (ih (List.mem_cons_self ..)).2.cons_cons u⟩
        · have hrun := ih (List.mem_cons_of_mem _ h)
          exact ⟨hrun.1, hrun.2.cons u⟩

theorem remaining_sublist (before : Option Piece) (us : List Piece) :
    ((remaining ix before us).filterMap id).Sublist us := by
  induction us generalizing before with
  | nil => exact .slnil
  | cons u us ih =>
    rw [remaining_cons]
    cases isStruck ix before u with
    | true => exact (ih (some u)).cons u
    | false => exact (ih (some u)).cons_cons u

/-- The stretches of a type are made of its pieces. -/
theorem stretches_remaining {run : List Piece} (h : run ∈ stretches (remaining ix none us)) :
    run ≠ [] ∧ run.Sublist us :=
  ⟨(mem_stretches h).1, (mem_stretches h).2.trans (remaining_sublist none us)⟩

theorem spanOf_lt (hix : ix.IsJava) (hus : ix.Units p q us) {run : List Piece} (hne : run ≠ [])
    (hsub : run.Sublist us) : (spanOf run).start < (spanOf run).stop := by
  obtain ⟨ordered, each⟩ := hix.units_ordered hus
  obtain ⟨u, tail, rfl⟩ := List.exists_cons_of_ne_nil hne
  have hafter := (List.pairwise_cons.mp (ordered.sublist hsub)).1
  have hlast := List.getLast_mem (List.cons_ne_nil u tail)
  change u.start < ((u :: tail).getLast (List.cons_ne_nil u tail)).stop
  generalize (u :: tail).getLast (List.cons_ne_nil u tail) = v at hlast
  have hu := (each u (hsub.subset (List.mem_cons_self ..))).2.1
  have hv := (each v (hsub.subset hlast)).2.1
  rcases List.mem_cons.mp hlast with rfl | hmem
  · exact hu
  · have := hafter v hmem
    omega

/-- What the walk writes from the first of some pieces to the last. -/
theorem normalized_spanOf (hix : ix.IsJava) (hus : ix.Units p q us) {run : List Piece} (hne : run ≠ [])
    (hsub : run.Sublist us) : ix.normalized (spanOf run).start (spanOf run).stop = runText ix run := by
  have boundary := hus.boundary
  obtain ⟨u, tail, rfl⟩ := List.exists_cons_of_ne_nil hne
  have first := (boundary u (hsub.subset (List.mem_cons_self ..))).1
  have last := (boundary _ (hsub.subset (List.getLast_mem (List.cons_ne_nil u tail)))).2
  exact hix.normalized_eq_squeeze first last

/-- A type has a text when some of its pieces is left. -/
theorem typeText_eq_some (hix : ix.IsJava) (hus : ix.Units p q us) {ty : String} :
    typeText? ix us = some ty ↔ (∃ u, some u ∈ remaining ix none us) ∧ ty = typeText ix us := by
  have hstrike : strike ix false us = remaining ix none us := strike_eq none us
  have htext : ∀ run ∈ stretches (remaining ix none us),
      String.ofList (ix.normalized (spanOf run).start (spanOf run).stop) =
        String.ofList (runText ix run) := by
    intro run hrun
    obtain ⟨hne, hsub⟩ := stretches_remaining hrun
    rw [normalized_spanOf hix hus hne hsub]
  rw [typeText, ← List.map_congr_left htext, ← stretches_ne_nil, typeText?, hstrike, segments_eq]
  cases hs : stretches (remaining ix none us) with
  | nil => simp
  | cons run rest => simp [eq_comm, Function.comp_def]

/-- Pieces of which none is struck make up one stretch. -/
theorem typeText_of_remaining (hne : us ≠ []) (h : remaining ix none us = us.map some) :
    typeText ix us = String.ofList (runText ix us) := by
  have hsplit : (us.map some).splitOnP (·.isNone) = [us.map some] :=
    List.splitOnP_eq_singleton fun o ho => by
      obtain ⟨u, -, rfl⟩ := List.mem_map.mp ho
      rfl
  have hstretches : stretches (us.map some) = [us] := by
    simp [stretches, hsplit, hne]
  rw [typeText, h, hstretches, List.map_singleton, String.intercalate_singleton]

end ArgList

end BraceScopes
