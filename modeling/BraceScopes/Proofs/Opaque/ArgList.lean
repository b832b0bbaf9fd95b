import BraceScopes.Detect.Chain
import BraceScopes.Proofs.Opaque.Search
import BraceScopes.Proofs.Scan.Normalized
import Mathlib.Data.List.TakeWhile
/-!
A list of types is read in both of two texts that differ only inside comments and literals, or in
neither. The types begin alike, and they are the same when the literals are.
-/
namespace BraceScopes

namespace Lexed

/-- Entries that were read in two texts. -/
structure SameArg (x y : Lexed) (a b : Arg) : Prop where
  first : ∃ c, isBlank c = false ∧ a.ty.toList.head? = some c ∧ b.ty.toList.head? = some c
  text : SameLiterals x y → a.ty = b.ty

theorem map_ty_of_same {x y : Lexed} {args args' : List Arg} (h : List.Forall₂ (SameArg x y) args args')
    (hl : SameLiterals x y) : args.map (·.ty) = args'.map (·.ty) := by
  induction h with
  | nil => rfl
  | cons harg _ ih => rw [List.map_cons, List.map_cons, harg.text hl, ih]

variable {ix : Lexed} {p q stop : Nat} {c : Char} {u : Piece} {us : List Piece}

/-- The text of a type begins with the first of its pieces that is left. -/
theorem IsJava.typeText_head (hix : ix.IsJava) (hus : ix.Units p q us) {run : List Piece}
    {rest : List (List Piece)} (h : ArgList.stretches (ArgList.remaining ix none us) = run :: rest) :
    ∃ u tail c, run = u :: tail ∧ ix.CodeChar u.start c ∧ isBlank c = false ∧
      (ArgList.typeText ix us).toList.head? = some c := by
  obtain ⟨hne, hsub⟩ := ArgList.stretches_remaining (h ▸ List.mem_cons_self ..)
  have hlt := ArgList.spanOf_lt hix hus hne hsub
  obtain ⟨u, tail, rfl⟩ := List.exists_cons_of_ne_nil hne
  obtain ⟨-, -, -, c, hc, solid⟩ := (hix.units_ordered hus).2 u (hsub.subset (List.mem_cons_self ..))
  have hlast := (hus.boundary _ (hsub.subset (List.getLast_mem (List.cons_ne_nil u tail)))).2
  obtain ⟨chars, hchars⟩ : ∃ chars, ArgList.runText ix (u :: tail) = c :: chars := by
    rw [ArgList.runText, show (ArgList.spanOf (u :: tail)).start = u.start from rfl,
      hix.plain_code hc (Text.next_le_of_isBoundary hc.char hlt hlast)]
    exact squeeze_cons_solid _ solid
  refine ⟨u, tail, c, rfl, hc, solid, ?_⟩
  rw [ArgList.typeText, h, List.map_cons, hchars]
  cases rest with
  | nil => simp
  | cons run rest => simp [String.intercalate_cons_cons]

namespace SameCode

variable {x y : Lexed} {m : Mode} {start : Nat}

theorem slice_word (h : SameCode x y) (hw : x.Word m p q) (hlt : p < q) :
    x.text.slice p q = y.text.slice p q := by
  obtain ⟨c, hc, -⟩ := hw.first hlt
  have hp := h.left.codeGap_of_code hc
  obtain ⟨cs, hcs⟩ := hw.codeChars
  rw [hcs.slice hp, (h.codeChars hcs).slice (h.codeGap hp)]

theorem remaining (h : SameCode x y) (hus : x.Units p q us) (before : Option Piece)
    (hbefore : ∀ u, before = some u → ArgList.annotates x u = ArgList.annotates y u) :
    ArgList.remaining x before us = ArgList.remaining y before us := by
  have hann : ∀ u ∈ us, ArgList.annotates x u = ArgList.annotates y u := by
    intro u hu
    obtain ⟨-, -, -, c, hc, -⟩ := (h.left.units_ordered hus).2 u hu
    rw [ArgList.annotates, ArgList.annotates, hc.char, (h.codeChar hc).char]
  have hword : ∀ u ∈ us, x.isWord u "final" = y.isWord u "final" := by
    intro u hu
    unfold Lexed.isWord
    cases hkind : u.kind == .ident with
    | false => rfl
    | true =>
      obtain ⟨hw, hlt⟩ := hus.word u hu (by simpa using hkind)
      rw [h.slice_word hw hlt]
  clear hus
  induction us generalizing before with
  | nil => rfl
  | cons u us ih =>
    have hany : before.any (ArgList.annotates x) = before.any (ArgList.annotates y) := by
      cases before with
      | none => rfl
      | some v => exact hbefore v rfl
    obtain ⟨hu, hann⟩ := List.forall_mem_cons.mp hann
    obtain ⟨hw, hword⟩ := List.forall_mem_cons.mp hword
    rw [ArgList.remaining_cons, ArgList.remaining_cons, ArgList.isStruck, ArgList.isStruck, hw, hu, hany,
      ih (some u) (fun v hv => by cases hv; exact hu) hann hword]

theorem plain (h : SameCode x y) (hl : SameLiterals x y) (p q : Nat) : x.plain p q = y.plain p q := by
  refine List.filterMap_congr fun i _ => ?_
  rw [plainChar?, plainChar?, ← h.regionAtChar]
  cases hi : x.regionAtChar? i with
  | none => rw [h.agree i hi]
  | some r =>
    cases hkind : r.kind with
    | comment => simp [hkind]
    | string => rw [hl i r hi hkind]

theorem typeText (h : SameCode x y) (hl : SameLiterals x y) (hus : x.Units p q us) :
    ArgList.typeText x us = ArgList.typeText y us := by
  unfold ArgList.typeText
  rw [h.remaining hus none (by simp)]
  simp only [ArgList.runText, h.plain hl]

theorem entry (h : SameCode x y) {typesOnly : Bool} {a : Arg} (hus : x.Units p q us)
    (ha : ArgList.Entry x typesOnly us a) : ∃ b, ArgList.Entry y typesOnly us b ∧ SameArg x y a b := by
  have same : ∀ {p q : Nat} {us : List Piece} (tail : String), x.Units p q us →
      (∃ u, some u ∈ ArgList.remaining x none us) → ∃ c, isBlank c = false ∧
        (ArgList.typeText x us ++ tail).toList.head? = some c ∧
        (ArgList.typeText y us ++ tail).toList.head? = some c := by
    intro p q us tail hus left
    have hremaining := h.remaining hus none (by simp)
    obtain ⟨run, rest, hrun⟩ := List.exists_cons_of_ne_nil (ArgList.stretches_ne_nil.mpr left)
    obtain ⟨u, tail', c, rfl, hc, solid, hx⟩ := h.left.typeText_head hus hrun
    rw [hremaining] at hrun
    obtain ⟨u', _, d, heq, hd, -, hy⟩ := h.right.typeText_head (h.units hus) hrun
    cases heq
    obtain rfl := (h.codeChar hc).unique hd
    refine ⟨c, solid, ?_, ?_⟩
    · rw [String.toList_append, List.head?_append, hx]
      rfl
    · rw [String.toList_append, List.head?_append, hy]
      rfl
  cases ha with
  | ofType left =>
    obtain ⟨c, solid, hx, hy⟩ := same "" hus left
    rw [String.append_empty] at hx hy
    rw [h.remaining hus none (by simp)] at left
    exact ⟨_, .ofType left, ⟨c, solid, hx, hy⟩, fun hl => h.typeText hl hus⟩
  | @named us dims name left ident simple brackets =>
    have hunits := h.left.units_before hus
    obtain ⟨c, solid, hx, hy⟩ := same _ hunits left
    have hword := h.word ((hus.word name (by simp) ident).1.normal simple)
    rw [h.remaining hunits none (by simp)] at left
    exact ⟨_, .named left ident (h.right.simple_of_word hword) brackets, ⟨c, solid, hx, hy⟩,
      fun hl => congrArg (· ++ _) (h.typeText hl hunits)⟩

theorem entries_args (h : SameCode x y) {typesOnly : Bool} {uss : List (List Piece)} {args : List Arg}
    (huss : x.Entries p q uss) (hargs : List.Forall₂ (ArgList.Entry x typesOnly) uss args) :
    ∃ args', List.Forall₂ (ArgList.Entry y typesOnly) uss args' ∧ List.Forall₂ (SameArg x y) args args' := by
  induction huss generalizing args with
  | one units =>
    obtain ⟨a, rest, ha, hrest, rfl⟩ := List.forall₂_cons_left_iff.mp hargs
    cases hrest
    obtain ⟨b, hb, hab⟩ := h.entry units ha
    exact ⟨[b], .cons hb .nil, .cons hab .nil⟩
  | comma units comma rest ih =>
    obtain ⟨a, rest, ha, hrest, rfl⟩ := List.forall₂_cons_left_iff.mp hargs
    obtain ⟨b, hb, hab⟩ := h.entry units ha
    obtain ⟨args', hargs', hsame⟩ := ih hrest
    exact ⟨b :: args', .cons hb hargs', .cons hab hsame⟩

theorem parse (h : SameCode x y) {typesOnly : Bool} {args : List Arg} (hstart : x.CodeGap start)
    (hstop : x.CodeGap stop) (hle : start ≤ stop)
    (hargs : ArgList.parse x typesOnly start stop = .ok args) :
    ∃ args', ArgList.parse y typesOnly start stop = .ok args' ∧ List.Forall₂ (SameArg x y) args args' := by
  by_cases htrivia : x.Trivia start stop
  · rw [ArgList.parse_trivia h.left hstop htrivia] at hargs
    cases hargs
    exact ⟨[], ArgList.parse_trivia h.right (h.codeGap hstop) (h.trivia htrivia), .nil⟩
  · obtain ⟨uss, huss, hargs⟩ := (ArgList.parse_eq_ok h.left hstart hstop hle htrivia).mp hargs
    obtain ⟨args', hargs', hsame⟩ := h.entries_args huss hargs
    refine ⟨args', (ArgList.parse_eq_ok h.right (h.codeGap hstart) (h.codeGap hstop) hle ?_).mpr ?_, hsame⟩
    · exact fun ht => htrivia (h.symm.trivia ht)
    · exact ⟨uss, h.entries huss, hargs'⟩

theorem bareName_eq_empty {ty : String} (hc : ty.toList.head? = some c) (solid : isBlank c = false) :
    Detect.bareName ty = "" ↔ c = '<' := by
  obtain ⟨cs, hcs⟩ := List.head?_eq_some_iff.mp hc
  rw [Detect.bareName, hcs, ← String.ofList_nil, String.ofList_inj]
  by_cases hlt : c = '<'
  · simp [hlt, dropBlanksEnd]
  · refine iff_of_false (fun hnil => ?_) hlt
    rw [dropBlanksEnd, List.reverse_eq_nil_iff, List.dropWhile_eq_nil_iff] at hnil
    have hmem : c ∈ ((c :: cs).takeWhile (· != '<')).reverse := by simp [hlt]
    simp [hnil c hmem] at solid

end SameCode

end Lexed

end BraceScopes
