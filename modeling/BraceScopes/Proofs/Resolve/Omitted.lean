import BraceScopes.Proofs.Resolve
/-!
Which braces are left out when a text is resolved. A brace is left out when it stands in the declaration
of the next annotated brace that has one, on the level of that brace.
-/
namespace BraceScopes

open BraceScopes.Lex

namespace Resolve

section Declared

variable (chain : List Detector) (cfg : ScopeConfig) (ix : Lexed)

/-- Where the declaration of a brace begins, if the chain accepts the brace and says so. -/
def declaredFrom? (b : Nat) : Option Nat :=
  (detectWith chain cfg ix b).bind (·.start)

/-- A brace stands in the declaration of the next annotated brace that has one, on its level. -/
def InDeclaration (isAnnotated : Nat → Prop) (b : Nat) : Prop :=
  ∃ c start, b < c ∧ isAnnotated c ∧ declaredFrom? chain cfg ix c = some start ∧
    (∀ e, b < e → e < c → isAnnotated e → declaredFrom? chain cfg ix e = none) ∧
    start ≤ b ∧ ix.parentOf b = ix.parentOf c

theorem declarationAfter_eq (last : Option Declaration) (b : Nat) :
    declarationAfter chain cfg ix last b =
      ((declaredFrom? chain cfg ix b).map fun start => ⟨start, b, ix.parentOf b⟩).or last := by
  have same : (firstAccepting? chain cfg ix b).bind (fun f => f.2.start) =
      declaredFrom? chain cfg ix b := by
    rw [declaredFrom?, detectWith, Option.bind_map]
    rfl
  rw [declarationAfter, same]
  cases declaredFrom? chain cfg ix b with
  | none => rfl
  | some start => rfl

/-- After braces that were visited from the last to the first, the declaration found last is that of
the first brace that has one. -/
theorem foldl_declarationAfter {bs : List Nat} (descending : bs.Pairwise (· > ·)) {d : Declaration} :
    bs.foldl (declarationAfter chain cfg ix) none = some d ↔
      d.brace ∈ bs ∧ declaredFrom? chain cfg ix d.brace = some d.start ∧
      d.parent = ix.parentOf d.brace ∧
      ∀ e ∈ bs, e < d.brace → declaredFrom? chain cfg ix e = none := by
  induction bs using List.reverseRecOn with
  | nil => simp
  | append_singleton bs b ih =>
    obtain ⟨hbs, -, hlt⟩ := List.pairwise_append.mp descending
    have hlt : ∀ c ∈ bs, b < c := fun c hc => hlt c hc b (by simp)
    rw [List.foldl_append, List.foldl_cons, List.foldl_nil, declarationAfter_eq]
    cases hb : declaredFrom? chain cfg ix b with
    | none =>
      rw [Option.map_none, Option.none_or, ih hbs]
      constructor
      · rintro ⟨hmem, hstart, hparent, hfirst⟩
        refine ⟨List.mem_append_left _ hmem, hstart, hparent, ?_⟩
        intro e he hed
        rcases List.mem_append.mp he with he | he
        · exact hfirst e he hed
        · obtain rfl := List.mem_singleton.mp he
          exact hb
      · rintro ⟨hmem, hstart, hparent, hfirst⟩
        refine ⟨?_, hstart, hparent, fun e he hed => hfirst e (List.mem_append_left _ he) hed⟩
        rcases List.mem_append.mp hmem with hmem | hmem
        · exact hmem
        · rw [List.mem_singleton.mp hmem, hb] at hstart
          simp at hstart
    | some start =>
      rw [Option.map_some, Option.some_or, Option.some.injEq]
      constructor
      · rintro rfl
        refine ⟨by simp, hb, rfl, ?_⟩
        intro e he hed
        rcases List.mem_append.mp he with he | he
        · have := hlt e he
          simp only at hed
          omega
        · obtain rfl := List.mem_singleton.mp he
          exact absurd hed (Nat.lt_irrefl e)
      · rintro ⟨hmem, hstart, hparent, hfirst⟩
        have hbrace : d.brace = b := by
          rcases List.mem_append.mp hmem with hmem | hmem
          · have := hfirst b (by simp) (hlt d.brace hmem)
            rw [hb] at this
            simp at this
          · exact List.mem_singleton.mp hmem
        rw [hbrace, hb] at hstart
        cases d
        simp only at hbrace hparent hstart
        rw [hparent, hbrace, Option.some.inj hstart]

variable {chain cfg ix}

theorem InDeclaration.congr {P Q : Nat → Prop} {b : Nat} (same : ∀ c, b < c → (P c ↔ Q c))
    (h : InDeclaration chain cfg ix P b) : InDeclaration chain cfg ix Q b := by
  obtain ⟨c, start, hbc, hc, hstart, hfirst, hle, hparent⟩ := h
  refine ⟨c, start, hbc, (same c hbc).mp hc, hstart, ?_, hle, hparent⟩
  intro e hbe hec he
  exact hfirst e hbe hec ((same e hbe).mpr he)

end Declared

variable {chain : List Detector} {cfg : ScopeConfig} {t : Text} {r : Rules} {b : Nat}

variable (chain cfg) in
/-- When a brace is reached, the annotated braces after it were visited, and it is left out if the
declaration found last among them covers it. -/
theorem exists_visited_after (h : b ∈ (Lexed.ofText t r).bracesFrom 0) :
    ∃ after : List Nat, after.Pairwise (· > ·) ∧
      (∀ c, c ∈ after ↔ b < c ∧ c ∈ annotated chain cfg (.ofText t r)) ∧
      (b ∉ annotated chain cfg (.ofText t r) ↔
        ∃ d, after.foldl (declarationAfter chain cfg (.ofText t r)) none = some d ∧
          d.covers (.ofText t r) b = true) := by
  obtain ⟨bs, cs, hsplit⟩ := List.append_of_mem (List.mem_reverse.mpr h)
  have descending := List.pairwise_reverse.mpr (Lexed.bracesFrom_ascending t r 0)
  rw [hsplit] at descending
  obtain ⟨hbs, hcs, hbetween⟩ := List.pairwise_append.mp descending
  have above : ∀ c ∈ bs, b < c := fun c hc => hbetween c hc b (by simp)
  have beneath : ∀ c ∈ cs, c < b := (List.pairwise_cons.mp hcs).1
  have visited := (classifyBack_spec chain cfg (.ofText t r) none bs).1
  have whole : annotated chain cfg (.ofText t r) =
      (classifyBack chain cfg (.ofText t r) none (bs ++ b :: cs)).map (·.brace) := by
    rw [← hsplit]
    rfl
  rw [classifyBack_append, List.map_append] at whole
  generalize (classifyBack chain cfg (.ofText t r) none bs).map (·.brace) = after at visited whole
  refine ⟨after, hbs.sublist visited, ?_, ?_⟩
  · intro c
    rw [whole, List.mem_append]
    constructor
    · intro hc
      exact ⟨above c (visited.subset hc), .inl hc⟩
    · rintro ⟨hbc, hc | hc⟩
      · exact hc
      · have hin := (classifyBack_spec chain cfg (.ofText t r) _ (b :: cs)).1.subset hc
        rcases List.mem_cons.mp hin with rfl | hin
        · omega
        · have := beneath c hin
          omega
  · have hafter : b ∉ after := fun hin => Nat.lt_irrefl b (above b (visited.subset hin))
    rw [whole, List.mem_append, or_iff_right hafter, classifyBack_cons]
    generalize after.foldl (declarationAfter chain cfg (.ofText t r)) none = last
    by_cases hcover : last.any fun d => d.covers (.ofText t r) b
    · rw [if_pos hcover]
      refine iff_of_true ?_ ((Option.any_eq_true ..).mp hcover)
      intro hin
      have hin := (classifyBack_spec chain cfg (.ofText t r) last cs).1.subset hin
      exact Nat.lt_irrefl b (beneath b hin)
    · rw [if_neg hcover]
      refine iff_of_false (fun hnot => hnot ?_) fun hd => hcover ((Option.any_eq_true ..).mpr hd)
      exact List.mem_map_of_mem (List.mem_cons_self ..)

theorem not_mem_annotated_iff (h : b ∈ (Lexed.ofText t r).bracesFrom 0) :
    b ∉ annotated chain cfg (.ofText t r) ↔
      InDeclaration chain cfg (.ofText t r) (· ∈ annotated chain cfg (.ofText t r)) b := by
  obtain ⟨after, descending, hmem, hleft⟩ := exists_visited_after chain cfg h
  rw [hleft]
  constructor
  · rintro ⟨d, hlast, hcovers⟩
    obtain ⟨hin, hstart, hparent, hfirst⟩ :=
      (foldl_declarationAfter chain cfg _ descending).mp hlast
    simp only [Declaration.covers, Bool.and_eq_true, decide_eq_true_eq, beq_iff_eq] at hcovers
    obtain ⟨hbd, hd⟩ := (hmem d.brace).mp hin
    refine ⟨d.brace, d.start, hbd, hd, hstart, ?_, hcovers.1.1, hcovers.2.trans hparent⟩
    intro e hbe hed he
    exact hfirst e ((hmem e).mpr ⟨hbe, he⟩) hed
  · rintro ⟨c, start, hbc, hc, hstart, hfirst, hle, hparent⟩
    refine ⟨⟨start, c, (Lexed.ofText t r).parentOf c⟩, ?_, ?_⟩
    · apply (foldl_declarationAfter chain cfg _ descending).mpr
      refine ⟨(hmem c).mpr ⟨hbc, hc⟩, hstart, rfl, ?_⟩
      intro e he hec
      exact hfirst e ((hmem e).mp he).1 hec ((hmem e).mp he).2
    · simp [Declaration.covers, hle, hbc, hparent]

end Resolve

end BraceScopes
