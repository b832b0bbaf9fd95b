import BraceScopes.Proofs.Lex.Behind
import BraceScopes.Proofs.Store
import BraceScopes.Resolve
import Mathlib.Data.List.Basic
/-!
What resolving leaves in the store. A pass from any place visits the braces that the pass from the
start visits there, and each of them gets the annotation that the finished store gives it.
-/
namespace BraceScopes

open BraceScopes.Lex

namespace Lexed

variable {t : Text} {r : Rules} {b o p : Nat}

theorem ancestors_lt (h : o ∈ (ofText t r).ancestors b) : o < b := by
  unfold ancestors at h
  cases hb : (ofText t r).bracketAt? b with
  | none => simp [hb] at h
  | some x =>
    obtain ⟨-, rfl⟩ := ((reads_ofText t r).bracketAt_eq_some (pairwise_events t r)).mp hb
    rw [hb] at h
    exact (opened_of_mem_stackBelow h).2

/-- The braces from `p` on are the last ones of the text. -/
theorem bracesFrom_split (t : Text) (r : Rules) (p : Nat) :
    ∃ before, (ofText t r).bracesFrom 0 = before ++ (ofText t r).bracesFrom p ∧
      (∀ b ∈ before, b < p) ∧ ∀ b ∈ (ofText t r).bracesFrom p, p ≤ b := by
  have ascending := (reads_ofText t r).brackets_ascending (pairwise_events t r)
  generalize ofText t r = ix at ascending ⊢
  have hall : ix.brackets.toList.drop (countBefore ix.brackets 0) = ix.brackets.toList := by
    rw [show countBefore ix.brackets 0 = rank Bracket.pos ix.brackets 0 from rfl, drop_rank ascending]
    simp
  refine ⟨((ix.brackets.toList.take (countBefore ix.brackets p)).map (·.pos)).filter ix.isBrace,
    ?_, fun b hb => ?_, fun b hb => ?_⟩
  · rw [bracesFrom, bracesFrom, hall, ← List.filter_append, ← List.map_append,
      List.take_append_drop]
  · obtain ⟨x, hx, rfl⟩ := List.mem_map.mp (List.mem_filter.mp hb).1
    rw [show countBefore ix.brackets p = rank Bracket.pos ix.brackets p from rfl,
      take_rank ascending] at hx
    simpa using (List.mem_filter.mp hx).2
  · obtain ⟨x, hx, rfl⟩ := List.mem_map.mp (List.mem_filter.mp hb).1
    rw [show countBefore ix.brackets p = rank Bracket.pos ix.brackets p from rfl,
      drop_rank ascending] at hx
    simpa using (List.mem_filter.mp hx).2

theorem mem_bracesFrom_zero :
    b ∈ (ofText t r).bracesFrom 0 ↔ .opened b ∈ events t r ∧ t.charAt b = some '{' := by
  have reads := reads_ofText t r
  have ascending := reads.brackets_ascending (pairwise_events t r)
  unfold bracesFrom
  rw [show countBefore (ofText t r).brackets 0 = rank Bracket.pos (ofText t r).brackets 0 from rfl,
    drop_rank ascending, reads.brackets]
  simp only [isBrace, ofText_text, List.mem_filter, List.mem_map, beq_iff_eq, mem_openers]
  constructor
  · rintro ⟨⟨x, ⟨⟨o, ho, rfl⟩, -⟩, rfl⟩, hbrace⟩
    exact ⟨ho, hbrace⟩
  · rintro ⟨ho, hbrace⟩
    exact ⟨⟨_, ⟨⟨b, ho, rfl⟩, by simp⟩, rfl⟩, hbrace⟩

theorem bracesFrom_ascending (t : Text) (r : Rules) (p : Nat) :
    ((ofText t r).bracesFrom p).Pairwise (· < ·) := by
  have ascending := (reads_ofText t r).brackets_ascending (pairwise_events t r)
  unfold bracesFrom
  exact (List.pairwise_map.mpr (ascending.sublist (List.drop_sublist _ _))).filter _

end Lexed

namespace Resolve

section Visits

variable (chain : List Detector) (cfg : ScopeConfig) (ix : Lexed)

def visitOf (b : Nat) : Visit :=
  ⟨b, firstAccepting? chain cfg ix b⟩

/-- The braces that are annotated when a whole text is resolved, from the last to the first. -/
def annotated : List Nat :=
  (visits chain cfg ix 0).map (·.brace)

/-- The declaration found last after a brace was visited. -/
def declarationAfter (last : Option Declaration) (b : Nat) : Option Declaration :=
  match (firstAccepting? chain cfg ix b).bind fun f => f.2.start with
  | some start => some ⟨start, b, ix.parentOf b⟩
  | none => last

theorem classifyBack_cons (last : Option Declaration) (b : Nat) (bs : List Nat) :
    classifyBack chain cfg ix last (b :: bs) =
      if last.any fun d => d.covers ix b then classifyBack chain cfg ix last bs
      else visitOf chain cfg ix b ::
        classifyBack chain cfg ix (declarationAfter chain cfg ix last b) bs := rfl

/-- Classifying goes on from the declaration that was found last among the braces visited so far. -/
theorem classifyBack_append (last : Option Declaration) (bs cs : List Nat) :
    classifyBack chain cfg ix last (bs ++ cs) =
      classifyBack chain cfg ix last bs ++
        classifyBack chain cfg ix (((classifyBack chain cfg ix last bs).map (·.brace)).foldl
          (declarationAfter chain cfg ix) last) cs := by
  induction bs generalizing last with
  | nil => rfl
  | cons b bs ih =>
    rw [List.cons_append, classifyBack_cons, classifyBack_cons]
    split
    next => exact ih last
    next => rw [ih (declarationAfter chain cfg ix last b)]; rfl

/-- Visits go over some of the braces in order, and ask the chain about each. -/
theorem classifyBack_spec (last : Option Declaration) (bs : List Nat) :
    ((classifyBack chain cfg ix last bs).map (·.brace)).Sublist bs ∧
      ∀ v ∈ classifyBack chain cfg ix last bs, v = visitOf chain cfg ix v.brace := by
  induction bs generalizing last with
  | nil => exact ⟨.slnil, by simp [classifyBack]⟩
  | cons b bs ih =>
    rw [classifyBack_cons]
    split
    next => exact ⟨(ih last).1.cons b, (ih last).2⟩
    next =>
      obtain ⟨sub, each⟩ := ih (declarationAfter chain cfg ix last b)
      refine ⟨sub.cons_cons b, fun v hv => ?_⟩
      rcases List.mem_cons.mp hv with rfl | hv
      · rfl
      · exact each v hv

end Visits

variable {chain : List Detector} {cfg : ScopeConfig} {t : Text} {r : Rules} {p b : Nat}

variable (chain cfg t r) in
theorem visits_ascending (p : Nat) :
    (visits chain cfg (.ofText t r) p).reverse.Pairwise fun v w => v.brace < w.brace := by
  have sub := (classifyBack_spec chain cfg (.ofText t r) none
    ((Lexed.ofText t r).bracesFrom p).reverse).1
  have descending := (List.pairwise_reverse.mpr (Lexed.bracesFrom_ascending t r p)).sublist sub
  exact List.pairwise_reverse.mpr (List.pairwise_map.mp descending)

/-- A pass from `p` visits the braces from `p` on that the pass from the start visits. -/
theorem mem_visits {v : Visit} : v ∈ visits chain cfg (.ofText t r) p ↔
    v = visitOf chain cfg (.ofText t r) v.brace ∧ v.brace ∈ annotated chain cfg (.ofText t r) ∧
      p ≤ v.brace := by
  obtain ⟨before, heq, hlt, hge⟩ := Lexed.bracesFrom_split t r p
  have hsplit := classifyBack_append chain cfg (.ofText t r) none
    ((Lexed.ofText t r).bracesFrom p).reverse before.reverse
  rw [← List.reverse_append, ← heq] at hsplit
  change visits chain cfg (.ofText t r) 0 = visits chain cfg (.ofText t r) p ++ _ at hsplit
  constructor
  · intro hv
    obtain ⟨sub, each⟩ := classifyBack_spec chain cfg (.ofText t r) none
      ((Lexed.ofText t r).bracesFrom p).reverse
    have hin := sub.subset (List.mem_map_of_mem hv)
    refine ⟨each v hv, ?_, hge v.brace (List.mem_reverse.mp hin)⟩
    rw [annotated, hsplit]
    exact List.mem_map_of_mem (List.mem_append_left _ hv)
  · rintro ⟨hv, hmem, hp⟩
    obtain ⟨w, hw, hbrace⟩ := List.mem_map.mp hmem
    have hwv : w = visitOf chain cfg (.ofText t r) w.brace := (classifyBack_spec chain cfg _ none _).2 w hw
    rw [hbrace, ← hv] at hwv
    subst hwv
    rw [hsplit] at hw
    rcases List.mem_append.mp hw with hw | hw
    · exact hw
    · have hin := (classifyBack_spec chain cfg _ _ _).1.subset (List.mem_map_of_mem hw)
      have := hlt w.brace (List.mem_reverse.mp hin)
      omega

theorem mem_annotated (h : b ∈ annotated chain cfg (.ofText t r)) :
    .opened b ∈ events t r ∧ t.charAt b = some '{' := by
  have hin := (classifyBack_spec chain cfg (.ofText t r) none _).1.subset h
  exact Lexed.mem_bracesFrom_zero.mp (List.mem_reverse.mp hin)

theorem annotate_of_around {x y : Lexed} {s s' : Store} {v : Visit}
    (h : annotatedAround? x s v.brace = annotatedAround? y s' v.brace) :
    annotate x s v = annotate y s' v := by
  rw [annotate, annotate, h]

/-- A brace becomes a scope when it is accepted and no unknown brace is the nearest annotated one. -/
theorem annotate_eq_scope {x : Lexed} {s : Store} {v : Visit} {scope : Scope}
    (h : annotate x s v = .scope scope) :
    v.found.map (·.2) = some ⟨scope.kind, scope.name, scope.start⟩ ∧ scope.openBrace = v.brace ∧
      (annotatedAround? x s v.brace).map (·.1) = scope.parent := by
  unfold annotate at h
  split at h
  next name found hfound haround =>
    cases h
    exact ⟨by rw [hfound]; rfl, rfl, by rw [haround]; rfl⟩
  next name found o around hfound haround =>
    cases h
    exact ⟨by rw [hfound]; rfl, rfl, by rw [haround]; rfl⟩
  next => simp at h

theorem annotate_eq_unknown {x : Lexed} {s : Store} {v : Visit} (h : annotate x s v = .unknown) :
    v.found = none ∨ ∃ o, annotatedAround? x s v.brace = some (o, .unknown) := by
  unfold annotate at h
  split at h
  next => simp at h
  next => simp at h
  next hnone hscope =>
    cases hfound : v.found with
    | none => exact .inl rfl
    | some found =>
      cases haround : annotatedAround? x s v.brace with
      | none => exact (hnone found.1 found.2 hfound haround).elim
      | some around =>
        obtain ⟨o, a⟩ := around
        cases a with
        | scope y => exact (hscope found.1 found.2 o y hfound haround).elim
        | unknown => exact .inr ⟨o, rfl⟩

theorem annotate_isScope_iff {x : Lexed} {s : Store} {v : Visit} :
    (∃ scope, annotate x s v = .scope scope) ↔
      v.found.isSome = true ∧
        ∀ o a, annotatedAround? x s v.brace = some (o, a) → ∃ scope, a = .scope scope := by
  unfold annotate
  constructor
  · intro h
    split at h
    next found haround => exact ⟨by rw [found]; rfl, by simp [haround]⟩
    next o y found haround => exact ⟨by rw [found]; rfl, by simp [haround]⟩
    next => simp at h
  · rintro ⟨hfound, hscope⟩
    obtain ⟨f, hf⟩ := Option.isSome_iff_exists.mp hfound
    cases haround : annotatedAround? x s v.brace with
    | none => simp [hf]
    | some around =>
      obtain ⟨scope, ha⟩ := hscope around.1 around.2 haround
      have heq : around = (around.1, .scope scope) := by rw [← ha]
      rw [heq]
      simp [hf]

/-- The annotation of a brace depends on the annotations before it. -/
theorem annotate_congr {s s' : Store} {v : Visit} (h : ∀ o < v.brace, s.get? o = s'.get? o) :
    annotate (.ofText t r) s v = annotate (.ofText t r) s' v := by
  refine annotate_of_around ?_
  unfold annotatedAround?
  rw [← List.head?_filterMap, ← List.head?_filterMap]
  congr 1
  refine List.filterMap_congr fun o ho => ?_
  rw [h o (Lexed.ancestors_lt (List.mem_filter.mp ho).1)]

/-- Linking annotates the visited braces and keeps the other annotations. -/
theorem get?_link {vs : List Visit} (ascending : vs.Pairwise fun v w => v.brace < w.brace)
    (store : Store) :
    (∀ b, (∀ v ∈ vs, v.brace ≠ b) → (link (.ofText t r) store vs).get? b = store.get? b) ∧
      ∀ v ∈ vs, (link (.ofText t r) store vs).get? v.brace =
        some (annotate (.ofText t r) (link (.ofText t r) store vs) v) := by
  induction vs generalizing store with
  | nil => exact ⟨fun _ _ => rfl, by simp⟩
  | cons v vs ih =>
    obtain ⟨hlt, hvs⟩ := List.pairwise_cons.mp ascending
    obtain ⟨keep, set⟩ := ih hvs (store.insert v.brace (annotate (.ofText t r) store v))
    have unfolded : link (.ofText t r) store (v :: vs) =
        link (.ofText t r) (store.insert v.brace (annotate (.ofText t r) store v)) vs := rfl
    rw [← unfolded] at keep set
    have before : ∀ o < v.brace, (link (.ofText t r) store (v :: vs)).get? o = store.get? o := by
      intro o ho
      have hne : ∀ w ∈ vs, w.brace ≠ o := fun w hw => by
        have := hlt w hw
        omega
      rw [keep o hne, Store.get?_insert, if_neg (Nat.ne_of_lt ho)]
    refine ⟨fun b hb => ?_, fun w hw => ?_⟩
    · have hne := hb v (List.mem_cons_self ..)
      rw [keep b fun w hw => hb w (List.mem_cons_of_mem v hw), Store.get?_insert, if_neg (Ne.symm hne)]
    · rcases List.mem_cons.mp hw with rfl | hw
      · rw [keep w.brace fun u hu => Nat.ne_of_gt (hlt u hu), Store.get?_insert, if_pos rfl,
          annotate_congr before]
      · exact set w hw

variable (chain cfg t r) in
/-- Resolving from `p` keeps the annotations before `p`, and annotates the braces after it by the
annotations that it leaves. -/
theorem get?_run (store : Store) (p b : Nat) :
    (run chain cfg (.ofText t r) store p).get? b =
      if b < p then store.get? b
      else if b ∈ annotated chain cfg (.ofText t r) then
        some (annotate (.ofText t r) (run chain cfg (.ofText t r) store p)
          (visitOf chain cfg (.ofText t r) b))
      else none := by
  have ascending := visits_ascending chain cfg t r p
  obtain ⟨keep, set⟩ := get?_link ascending (store.clearFrom p)
  by_cases hlt : b < p
  · rw [if_pos hlt, run, keep b, Store.get?_clearFrom, if_pos hlt]
    intro v hv
    have := (mem_visits.mp (List.mem_reverse.mp hv)).2.2
    omega
  · rw [if_neg hlt]
    by_cases hb : b ∈ annotated chain cfg (.ofText t r)
    · rw [if_pos hb]
      refine set (visitOf chain cfg (.ofText t r) b) (List.mem_reverse.mpr (mem_visits.mpr ⟨rfl, hb, ?_⟩))
      exact Nat.le_of_not_lt hlt
    · rw [if_neg hb, run, keep b, Store.get?_clearFrom, if_neg hlt]
      rintro v hv rfl
      exact hb (mem_visits.mp (List.mem_reverse.mp hv)).2.1

/-- The store holds what resolving the whole text leaves in it. -/
def Resolved (chain : List Detector) (cfg : ScopeConfig) (t : Text) (r : Rules) (store : Store) : Prop :=
  ∀ b, store.get? b =
    if b ∈ annotated chain cfg (.ofText t r) then
      some (annotate (.ofText t r) store (visitOf chain cfg (.ofText t r) b))
    else none

variable (chain cfg t r) in
theorem resolved_run (store : Store) :
    Resolved chain cfg t r (run chain cfg (.ofText t r) store 0) := by
  intro b
  rw [get?_run, if_neg (Nat.not_lt_zero b)]

theorem Resolved.isSome_iff {store : Store} (h : Resolved chain cfg t r store) :
    (store.get? b).isSome = true ↔ b ∈ annotated chain cfg (.ofText t r) := by
  rw [h b]
  by_cases hb : b ∈ annotated chain cfg (.ofText t r)
  · simp [hb]
  · simp [hb]

theorem Resolved.of_get? {store : Store} {a : Annotation} (h : Resolved chain cfg t r store)
    (hb : store.get? b = some a) :
    b ∈ annotated chain cfg (.ofText t r) ∧
      annotate (.ofText t r) store (visitOf chain cfg (.ofText t r) b) = a := by
  have hmem : b ∈ annotated chain cfg (.ofText t r) := h.isSome_iff.mp (by rw [hb]; rfl)
  have hget := h b
  rw [hb, if_pos hmem] at hget
  exact ⟨hmem, (Option.some.inj hget).symm⟩

/-- A pass from any place completes a store that is right before that place. -/
theorem Resolved.run_eq {full store : Store} (h : Resolved chain cfg t r full)
    (agree : ∀ b < p, store.get? b = full.get? b) :
    run chain cfg (.ofText t r) store p = full := by
  refine Store.ext_get? fun b => ?_
  induction b using Nat.strongRecOn with
  | ind b ih =>
    rw [get?_run]
    by_cases hlt : b < p
    · rw [if_pos hlt, agree b hlt]
    · rw [if_neg hlt, h b]
      split
      next => exact congrArg some (annotate_congr ih)
      next => rfl

end Resolve

end BraceScopes
