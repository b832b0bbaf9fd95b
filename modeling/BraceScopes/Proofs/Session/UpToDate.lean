import BraceScopes.Proofs.Session.Entries
/-!
No annotation of a session is out of date, at any moment of a run whose edits leave the events up to the
annotated braces alone.
-/
namespace BraceScopes

open BraceScopes.Lex Resolve

/-- The nearest brace around `b` that has an annotation. -/
def nearestAnnotated (t : Text) (r : Rules) (store : Store) (b : Nat) : Option Nat :=
  (classify t r b).enclosing.find? fun o => t.charAt o == some '{' && (store.get? o).isSome

theorem findSome_filter_eq_find {store : Store} {isBrace : Nat → Bool} (os : List Nat) :
    (os.filter isBrace).findSome? (fun o => (store.get? o).map fun a => (o, a)) =
      (os.find? fun o => isBrace o && (store.get? o).isSome).bind fun o =>
        (store.get? o).map fun a => (o, a) := by
  induction os with
  | nil => rfl
  | cons o os ih =>
    by_cases hb : isBrace o = true
    · rw [List.filter_cons_of_pos hb, List.findSome?_cons, List.find?_cons, ih]
      cases ha : store.get? o with
      | none => simp [hb]
      | some a => simp [hb, ha]
    · rw [List.filter_cons_of_neg hb, List.find?_cons, ih]
      simp [hb]

/-- The index finds the nearest annotated brace around a brace. -/
theorem annotatedAround_eq {t : Text} {r : Rules} {store : Store} {b : Nat}
    (h : .opened b ∈ events t r) :
    annotatedAround? (.ofText t r) store b =
      (nearestAnnotated t r store b).bind fun o => (store.get? o).map fun a => (o, a) := by
  rw [annotatedAround?, findSome_filter_eq_find,
    (Lexed.reads_ofText t r).ancestors_of_opened (pairwise_events t r) h, nearestAnnotated,
    enclosing_of_opened h]
  simp only [Lexed.isBrace, Lexed.ofText_text]

theorem nearestAnnotated_get? {t : Text} {r : Rules} {store : Store} {b o : Nat}
    (h : nearestAnnotated t r store b = some o) : ∃ a, store.get? o = some a := by
  have hfound := List.find?_some h
  simp only [Bool.and_eq_true] at hfound
  exact Option.isSome_iff_exists.mp hfound.2

theorem map_annotatedAround {t : Text} {r : Rules} {store : Store} {b : Nat}
    (h : .opened b ∈ events t r) :
    (annotatedAround? (.ofText t r) store b).map (·.1) = nearestAnnotated t r store b := by
  rw [annotatedAround_eq h]
  cases ho : nearestAnnotated t r store b with
  | none => rfl
  | some o =>
    obtain ⟨a, ha⟩ := nearestAnnotated_get? ho
    rw [Option.bind_some, ha]
    rfl

namespace ValidEntry

variable {cfg : ScopeConfig} {r : Rules} {t : Text} {store : Store} {b : Nat} {a : Annotation}

/-- A valid scope is what the detectors say, inside the nearest annotated brace. -/
theorem of_scope {x : Scope} (h : ValidEntry cfg r t store b (.scope x)) :
    detectWith Detector.standard cfg (.ofText t r) b = some ⟨x.kind, x.name, x.start⟩ ∧
      x.openBrace = b ∧ x.parent = nearestAnnotated t r store b := by
  obtain ⟨hfound, hbrace, hparent⟩ := annotate_eq_scope h.annotation.symm
  exact ⟨hfound, hbrace, hparent.symm.trans (map_annotatedAround h.opened)⟩

/-- A valid entry is unknown because the detectors decline or because the nearest annotated brace is
unknown. -/
theorem of_unknown (h : ValidEntry cfg r t store b .unknown) :
    detectWith Detector.standard cfg (.ofText t r) b = none ∨
      ∃ o, nearestAnnotated t r store b = some o ∧ store.get? o = some .unknown := by
  rcases annotate_eq_unknown h.annotation.symm with hnone | ⟨o, haround⟩
  · refine .inl ?_
    change (visitOf Detector.standard cfg (.ofText t r) b).found.map (·.2) = none
    rw [hnone]
    rfl
  · change annotatedAround? (.ofText t r) store b = some (o, .unknown) at haround
    rw [annotatedAround_eq h.opened] at haround
    obtain ⟨q, hq, hget⟩ := Option.bind_eq_some_iff.mp haround
    obtain ⟨a, ha, heq⟩ := Option.map_eq_some_iff.mp hget
    cases heq
    exact .inr ⟨o, hq, ha⟩

end ValidEntry

namespace Session

/-- Along a run, no request changes the events up to a brace that stays annotated. -/
def Undisturbed (r : Rules) : Session → List Request → Prop
  | _, [] => True
  | s, q :: qs =>
    (∀ e ∈ (s.perform q).store.entries, (s.store.get? e.1).isSome = true →
      below (e.1 + 1) (events s.text r) = below (e.1 + 1) (events (s.perform q).text r)) ∧
    Undisturbed r (s.perform q) qs

instance decidableUndisturbed (r : Rules) : ∀ s qs, Decidable (Undisturbed r s qs)
  | _, [] => isTrue trivial
  | s, q :: qs =>
    have := decidableUndisturbed r (s.perform q) qs
    inferInstanceAs (Decidable (_ ∧ _))

theorem undisturbed_of_append {r : Rules} {s : Session} {qs rs : List Request}
    (h : s.Undisturbed r (qs ++ rs)) : s.Undisturbed r qs := by
  induction qs generalizing s with
  | nil => exact trivial
  | cons q qs ih => exact ⟨h.1, ih h.2⟩

/-- The texts and their events agree up to and including the byte `b`. -/
def SameEvents (r : Rules) (b : Nat) (t t' : Text) : Prop :=
  Text.AgreeBelow (b + 1) t t' ∧ below (b + 1) (events t r) = below (b + 1) (events t' r)

variable {cfg : ScopeConfig} {r : Rules} {s : Session}

theorem Sourced.undisturbed_run (h : Sourced cfg r (SameEvents r) s) {rs : List Request}
    (hrs : ∀ q ∈ rs, q.isPlain = true) (hkeep : s.Undisturbed r rs) :
    Sourced cfg r (SameEvents r) (s.run rs) := by
  induction rs generalizing s with
  | nil => exact h
  | cons q rs ih =>
    obtain ⟨hq, hrs⟩ := List.forall_mem_cons.mp hrs
    obtain ⟨hevents, hkeep⟩ := hkeep
    have refl : ∀ b t, SameEvents r b t t := fun b t => ⟨Text.AgreeBelow.refl (b + 1) t, rfl⟩
    refine ih (h.perform refl hq fun b a hb hb' hagree t hsame => ?_) hrs hkeep
    have unchanged := hevents (b, a) (Store.get?_eq_some.mp hb') (by rw [hb]; rfl)
    exact ⟨hsame.1.trans hagree, hsame.2.trans unchanged⟩

theorem Sourced.valid (h : Sourced cfg r (SameEvents r) s) {b : Nat} {a : Annotation}
    (hb : s.store.get? b = some a) : ValidEntry cfg r s.text s.store b a := by
  obtain ⟨t, ⟨hagree, hevents⟩, hvalid⟩ := h.source b a hb
  exact hvalid.congr_text hagree hevents

end Session

/-- In every state of a run that leaves the events up to the annotated braces alone, every annotated
brace is a brace of code of the present text. A scope is what the detectors say of the present text, and
its parent is the nearest annotated brace around it; an unknown brace is one that the detectors decline
or that stands in an unknown one. -/
theorem entries_upToDate (t : Text) (r : Rules) (cfg : ScopeConfig) (rs : List Request)
    (hrs : ∀ q ∈ rs, q.isPlain = true) (hkeep : (Session.ofText t r cfg).Undisturbed r rs)
    (qs : List Request) (hqs : qs <+: rs) :
    let s := (Session.ofText t r cfg).run qs
    ∀ b a, s.store.get? b = some a →
      (.opened b ∈ events s.text r ∧ s.text.charAt b = some '{') ∧
      (∀ x, a = .scope x →
        detectWith Detector.standard cfg (.ofText s.text r) b = some ⟨x.kind, x.name, x.start⟩ ∧
        x.openBrace = b ∧ x.parent = nearestAnnotated s.text r s.store b) ∧
      (a = .unknown →
        detectWith Detector.standard cfg (.ofText s.text r) b = none ∨
        ∃ o, nearestAnnotated s.text r s.store b = some o ∧ s.store.get? o = some .unknown) := by
  intro s b a hb
  obtain ⟨later, rfl⟩ := hqs
  have sourced : s.Sourced cfg r (Session.SameEvents r) :=
    Session.Sourced.undisturbed_run (.ofText t) (fun q hq => hrs q (List.mem_append_left later hq))
      (Session.undisturbed_of_append hkeep)
  have valid := sourced.valid hb
  refine ⟨⟨valid.opened, valid.brace⟩, fun x hx => ?_, fun hunknown => ?_⟩
  · subst hx
    exact valid.of_scope
  · subst hunknown
    exact valid.of_unknown

/-- A method is typed into a class and resolved, and the class goes on to be typed behind it. -/
theorem entries_upToDate_typing :
    let rs : List Request := [.resolve, .edit ⟨⟨9, 9, by decide⟩, .ofString " void m() \x7b"⟩, .resolve,
      .edit ⟨⟨20, 20, by decide⟩, .ofString " \x7d"⟩]
    let s := (Session.ofText (.ofString "class A \x7b") .java {}).run rs
    (∀ q ∈ rs, q.isPlain = true) ∧ (Session.ofText (.ofString "class A \x7b") .java {}).Undisturbed .java rs ∧
      s.store.get? 19 = some (.scope ⟨.method, "m()", some 10, 19, some 8⟩) ∧
      detectWith Detector.standard {} (.ofText s.text .java) 19 = some ⟨.method, "m()", some 10⟩ ∧
      nearestAnnotated s.text .java s.store 19 = some 8 := by
  intro rs s
  have plain : ∀ q ∈ rs, q.isPlain = true := by simp [rs, Request.isPlain]
  have keep : (Session.ofText (.ofString "class A \x7b") .java {}).Undisturbed .java rs := by
    decide +kernel
  have stored : s.store.get? 19 = some (.scope ⟨.method, "m()", some 10, 19, some 8⟩) := by
    decide +kernel
  obtain ⟨-, scope, -⟩ := entries_upToDate _ .java {} rs plain keep rs (List.prefix_refl rs) 19 _ stored
  obtain ⟨found, -, parent⟩ := scope _ rfl
  exact ⟨plain, keep, stored, found, parent.symm⟩

end BraceScopes
