import BraceScopes.Text.Blank
import Mathlib.Data.List.Basic
/-!
White space in lists of characters: collapsed, and left out.
-/
namespace BraceScopes

/-- The characters with each stretch of white space as one space, and none at either end. -/
def squeeze (cs : List Char) : List Char :=
  [' '].intercalate ((cs.splitOnP isBlank).filter (!·.isEmpty))

theorem intercalate_cons {sep r : List Char} {rs : List (List Char)} :
    sep.intercalate (r :: rs) = r ++ rs.flatMap (sep ++ ·) := by
  induction rs generalizing r with
  | nil => simp
  | cons s rs ih => simp only [List.intercalate_cons_cons, ih, List.flatMap_cons, List.append_assoc]

theorem splitOnP_blanks {bs : List Char} (h : ∀ c ∈ bs, isBlank c = true) :
    bs.splitOnP isBlank = [] :: List.replicate bs.length [] := by
  induction bs with
  | nil => rfl
  | cons b bs ih =>
    obtain ⟨hb, hbs⟩ := List.forall_mem_cons.mp h
    simp [List.splitOnP_cons_eq_if_modifyHead, hb, ih hbs, List.replicate_succ]

theorem splitOnP_append_blanks {cs bs : List Char} (h : ∀ c ∈ bs, isBlank c = true) :
    (cs ++ bs).splitOnP isBlank = cs.splitOnP isBlank ++ List.replicate bs.length [] := by
  induction cs with
  | nil => simp [splitOnP_blanks h]
  | cons c cs ih =>
    simp only [List.cons_append, List.splitOnP_cons_eq_if_modifyHead, ih]
    split
    next => rfl
    next =>
      obtain ⟨r, rs, hr⟩ := List.exists_cons_of_ne_nil (List.splitOnP_ne_nil isBlank cs)
      simp [hr]

/-- Blanks at the end are dropped. -/
theorem squeeze_append {cs bs : List Char} (h : ∀ c ∈ bs, isBlank c = true) :
    squeeze (cs ++ bs) = squeeze cs := by
  rw [squeeze, splitOnP_append_blanks h, List.filter_append, List.filter_replicate]
  simp [squeeze]

/-- Blanks at the start separate nothing. -/
theorem filter_splitOnP_append {g : List Char} (cs : List Char) (hg : ∀ c ∈ g, isBlank c = true) :
    ((g ++ cs).splitOnP isBlank).filter (!·.isEmpty) = (cs.splitOnP isBlank).filter (!·.isEmpty) := by
  induction g with
  | nil => rfl
  | cons b g ih =>
    obtain ⟨hb, hg⟩ := List.forall_mem_cons.mp hg
    simp [List.splitOnP_cons_eq_if_modifyHead, hb, ih hg]

theorem splitOnP_append_of_solid {w cs : List Char} (h : ∀ c ∈ w, isBlank c = false) :
    (w ++ cs).splitOnP isBlank = (cs.splitOnP isBlank).modifyHead (w ++ ·) := by
  induction w with
  | nil =>
    obtain ⟨r, rs, hr⟩ := List.exists_cons_of_ne_nil (List.splitOnP_ne_nil isBlank cs)
    simp [hr]
  | cons c w ih =>
    obtain ⟨hc, hw⟩ := List.forall_mem_cons.mp h
    obtain ⟨r, rs, hr⟩ := List.exists_cons_of_ne_nil (List.splitOnP_ne_nil isBlank cs)
    simp [List.splitOnP_cons_eq_if_modifyHead, hc, ih hw, hr]

/-- White space behind a word is one space or none. -/
theorem squeeze_word {w g : List Char} {c : Char} (cs : List Char) (hne : w ≠ [])
    (hw : ∀ c ∈ w, isBlank c = false) (hg : ∀ c ∈ g, isBlank c = true) (hc : isBlank c = false) :
    ∃ bs rest, squeeze (w ++ (g ++ c :: cs)) = w ++ (bs ++ c :: rest) ∧ ∀ b ∈ bs, isBlank b = true := by
  obtain ⟨r, rs, hr⟩ := List.exists_cons_of_ne_nil (List.splitOnP_ne_nil isBlank cs)
  have hsplit : (c :: cs).splitOnP isBlank = (c :: r) :: rs := by
    simp [List.splitOnP_cons_eq_if_modifyHead, hc, hr]
  cases g with
  | nil =>
    refine ⟨[], r ++ (rs.filter (!·.isEmpty)).flatMap ([' '] ++ ·), ?_, by simp⟩
    rw [squeeze, splitOnP_append_of_solid hw, List.nil_append, hsplit, List.modifyHead_cons,
      List.filter_cons_of_pos (by simp), intercalate_cons]
    simp
  | cons b g =>
    obtain ⟨hb, hg⟩ := List.forall_mem_cons.mp hg
    refine ⟨[' '], r ++ (rs.filter (!·.isEmpty)).flatMap ([' '] ++ ·), ?_,
      List.forall_mem_singleton.mpr (by decide)⟩
    rw [squeeze, splitOnP_append_of_solid hw, List.cons_append, List.splitOnP_cons_eq_if_modifyHead,
      if_pos hb, List.modifyHead_cons, List.filter_cons_of_pos (by simpa using hne),
      filter_splitOnP_append (c :: cs) hg, hsplit, List.filter_cons_of_pos (by simp), intercalate_cons]
    simp

theorem squeeze_solid {w : List Char} (hne : w ≠ []) (hw : ∀ c ∈ w, isBlank c = false) :
    squeeze w = w := by
  rw [squeeze, ← List.append_nil w, splitOnP_append_of_solid hw]
  simp [hne]

/-- The characters without white space. -/
def unspaced (cs : List Char) : List Char := cs.filter (!isBlank ·)

theorem unspaced_append (cs ds : List Char) : unspaced (cs ++ ds) = unspaced cs ++ unspaced ds :=
  List.filter_append ..

theorem unspaced_blanks {bs : List Char} (h : ∀ c ∈ bs, isBlank c = true) : unspaced bs = [] := by
  simpa [unspaced] using h

theorem unspaced_solid {w : List Char} (h : ∀ c ∈ w, isBlank c = false) : unspaced w = w := by
  simpa [unspaced] using h

/-- The characters that are written behind others, when a space is owed or not: each stretch of white
space is one space, and there is none at the end. -/
def squeezeFrom (pending started : Bool) : List Char → List Char
  | [] => []
  | c :: cs =>
    if isBlank c then squeezeFrom true started cs
    else if pending && started then ' ' :: c :: squeezeFrom false true cs
    else c :: squeezeFrom false true cs

theorem squeezeFrom_spec {cs r : List Char} {rs : List (List Char)}
    (hsplit : cs.splitOnP isBlank = r :: rs) :
    (∀ pending, squeezeFrom pending false cs = squeeze cs) ∧
      squeezeFrom false true cs = r ++ (rs.filter (!·.isEmpty)).flatMap ([' '] ++ ·) ∧
      squeezeFrom true true cs = ((r :: rs).filter (!·.isEmpty)).flatMap ([' '] ++ ·) := by
  induction cs generalizing r rs with
  | nil =>
    simp only [List.splitOnP_nil, List.cons.injEq, List.nil_eq] at hsplit
    obtain ⟨rfl, rfl⟩ := hsplit
    simp [squeezeFrom, squeeze]
  | cons c cs ih =>
    obtain ⟨r', rs', hcs⟩ := List.exists_cons_of_ne_nil (List.splitOnP_ne_nil isBlank cs)
    obtain ⟨start, inside, owed⟩ := ih hcs
    rw [List.splitOnP_cons_eq_if_modifyHead, hcs] at hsplit
    have hsqueeze : squeeze (c :: cs) = [' '].intercalate ((r :: rs).filter (!·.isEmpty)) := by
      rw [squeeze, List.splitOnP_cons_eq_if_modifyHead, hcs, hsplit]
    simp only [squeezeFrom]
    cases hblank : isBlank c with
    | true =>
      simp only [hblank, ↓reduceIte, List.cons.injEq] at hsplit ⊢
      obtain ⟨rfl, rfl⟩ := hsplit
      refine ⟨fun _ => ?_, by simpa using owed, by simpa using owed⟩
      rw [start true, hsqueeze, squeeze, hcs]
      rfl
    | false =>
      simp only [hblank, Bool.false_eq_true, ↓reduceIte, List.modifyHead_cons, List.cons.injEq] at hsplit
      obtain ⟨rfl, rfl⟩ := hsplit
      refine ⟨fun _ => ?_, ?_, ?_⟩
      · rw [hsqueeze, List.filter_cons_of_pos (by simp), intercalate_cons]
        simp [inside]
      · simp [inside]
      · simp [inside]

theorem squeezeFrom_eq_squeeze (pending : Bool) (cs : List Char) :
    squeezeFrom pending false cs = squeeze cs := by
  obtain ⟨r, rs, hcs⟩ := List.exists_cons_of_ne_nil (List.splitOnP_ne_nil isBlank cs)
  exact (squeezeFrom_spec hcs).1 pending

/-- White space leaves a space owed. -/
theorem squeezeFrom_blanks {bs : List Char} (pending started : Bool) (cs : List Char) (hne : bs ≠ [])
    (h : ∀ c ∈ bs, isBlank c = true) :
    squeezeFrom pending started (bs ++ cs) = squeezeFrom true started cs := by
  induction bs generalizing pending with
  | nil => exact absurd rfl hne
  | cons b bs ih =>
    obtain ⟨hb, hbs⟩ := List.forall_mem_cons.mp h
    rw [List.cons_append, squeezeFrom, if_pos hb]
    cases bs with
    | nil => rfl
    | cons b' bs => exact ih true (List.cons_ne_nil b' bs) hbs

/-- Only white space is squeezed. -/
theorem unspaced_squeezeFrom (pending started : Bool) (cs : List Char) :
    unspaced (squeezeFrom pending started cs) = unspaced cs := by
  have blank : isBlank ' ' = true := by decide
  fun_induction squeezeFrom pending started cs with
  | case1 => rfl
  | case2 pending started c cs hc ih => simpa [unspaced, hc] using ih
  | case3 pending started c cs hc h ih => simpa [unspaced, hc, blank] using ih
  | case4 pending started c cs hc h ih => simpa [unspaced, hc] using ih

theorem unspaced_squeeze (cs : List Char) : unspaced (squeeze cs) = unspaced cs := by
  rw [← squeezeFrom_eq_squeeze false, unspaced_squeezeFrom]

/-- What begins with no white space begins alike when it is squeezed. -/
theorem squeeze_cons_solid {c : Char} (cs : List Char) (h : isBlank c = false) :
    ∃ rest, squeeze (c :: cs) = c :: rest := by
  rw [← squeezeFrom_eq_squeeze false, squeezeFrom, h]
  exact ⟨_, rfl⟩

end BraceScopes
