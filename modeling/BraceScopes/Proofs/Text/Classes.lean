import BraceScopes.Rules
import BraceScopes.Scan.Group
import BraceScopes.Text.Blank
import BraceScopes.Text.WordChar
/-!
Classes of characters that do not meet: a blank is no part of a word, and a character of an identifier
is no bracket.
-/
namespace BraceScopes

/-- The characters of a list are checked one by one, and not all characters that there are. -/
instance (priority := 2000) decidableForallMem (cs : List Char) (P : Char → Prop) [DecidablePred P] :
    Decidable (∀ c ∈ cs, P c) :=
  List.decidableBAll P cs

/-- The blank characters, by code point. -/
def blankPoints : List Nat :=
  [0x9, 0xA, 0xB, 0xC, 0xD, 0x20, 0x85, 0xA0, 0x1680, 0x2000, 0x2001, 0x2002, 0x2003, 0x2004, 0x2005,
    0x2006, 0x2007, 0x2008, 0x2009, 0x200A, 0x2028, 0x2029, 0x202F, 0x205F, 0x3000]

theorem mem_blankPoints {c : Char} (h : isBlank c = true) : c.toNat ∈ blankPoints := by
  simp only [isBlank, Bool.or_eq_true, Bool.and_eq_true, decide_eq_true_eq, beq_iff_eq] at h
  simp only [blankPoints, List.mem_cons, List.not_mem_nil, or_false]
  omega

theorem isWordChar_of_isBlank {c : Char} (h : isBlank c = true) : isWordChar c = false := by
  have hall : ∀ n ∈ blankPoints, isWordChar (Char.ofNat n) = false := by decide +kernel
  rw [← Char.ofNat_toNat c]
  exact hall _ (mem_blankPoints h)

theorem isTypeIdentChar_of_isBlank {c : Char} (h : isBlank c = true) :
    Rules.java.isTypeIdentChar c = false := by
  have hall : ∀ n ∈ blankPoints, Rules.java.isTypeIdentChar (Char.ofNat n) = false := by decide +kernel
  rw [← Char.ofNat_toNat c]
  exact hall _ (mem_blankPoints h)

/-- A character that neither pairs nor ends a search for a partner. -/
def IsPlain (c : Char) : Prop := c ≠ ';' ∧ groupOpenerOf c = none ∧ isGroupOpener c = false

instance (c : Char) : Decidable (IsPlain c) := inferInstanceAs (Decidable (_ ∧ _ ∧ _))

theorem groupOpenerOf_eq_some {c a : Char} :
    groupOpenerOf c = some a ↔
      c = '>' ∧ a = '<' ∨ c = ')' ∧ a = '(' ∨ c = ']' ∧ a = '[' ∨ c = '}' ∧ a = '{' := by
  unfold groupOpenerOf openerOf
  split
  next h => simp [h, eq_comm]
  next h => split <;> simp_all [eq_comm]

theorem isGroupOpener_of_pair {c a : Char} (h : groupOpenerOf c = some a) :
    isGroupOpener a = true := by
  rcases groupOpenerOf_eq_some.mp h with ⟨-, rfl⟩ | ⟨-, rfl⟩ | ⟨-, rfl⟩ | ⟨-, rfl⟩ <;> rfl

theorem not_isGroupOpener_of_pair {c a : Char} (h : groupOpenerOf c = some a) :
    isGroupOpener c = false := by
  rcases groupOpenerOf_eq_some.mp h with ⟨rfl, -⟩ | ⟨rfl, -⟩ | ⟨rfl, -⟩ | ⟨rfl, -⟩ <;> rfl

theorem isGroupOpener_iff {a : Char} :
    isGroupOpener a = true ↔ a = '(' ∨ a = '[' ∨ a = '{' ∨ a = '<' := by
  simp [isGroupOpener, isOpener, or_assoc]

theorem groupOpenerOf_of_opener {a : Char} (h : isGroupOpener a = true) : groupOpenerOf a = none := by
  rcases isGroupOpener_iff.mp h with rfl | rfl | rfl | rfl <;> rfl

/-- A class of characters with no bracket and no semicolon in it. -/
theorem isPlain_of_class {f : Char → Bool} {c : Char}
    (hf : ∀ d ∈ [';', '(', ')', '[', ']', '{', '}', '<', '>'], f d = false) (h : f c = true) :
    IsPlain c := by
  have hne : ∀ d ∈ [';', '(', ')', '[', ']', '{', '}', '<', '>'], c ≠ d := by
    rintro d hd rfl
    simp [hf c hd] at h
  refine ⟨hne _ (by simp), ?_, ?_⟩
  · refine Option.eq_none_iff_forall_ne_some.mpr fun a ha => ?_
    rcases groupOpenerOf_eq_some.mp ha with ⟨rfl, -⟩ | ⟨rfl, -⟩ | ⟨rfl, -⟩ | ⟨rfl, -⟩ <;>
      exact hne _ (by simp) rfl
  · refine Bool.eq_false_iff.mpr fun ho => ?_
    rcases isGroupOpener_iff.mp ho with rfl | rfl | rfl | rfl <;> exact hne _ (by simp) rfl

theorem isPlain_of_ident {c : Char} (h : Rules.java.isTypeIdentChar c = true) : IsPlain c :=
  isPlain_of_class (f := Rules.java.isTypeIdentChar) (by decide) h

theorem isPlain_of_isBlank {c : Char} (h : isBlank c = true) : IsPlain c :=
  isPlain_of_class (f := isBlank) (by decide) h

/-- The characters of identifiers in code are characters of identifiers in types. -/
theorem isTypeIdentChar_of_isIdentChar {ix : Lexed} (hrules : ix.rules = .java) {m : Mode} {c : Char}
    (h : ix.isIdentChar m c = true) : Rules.java.isTypeIdentChar c = true := by
  cases m with
  | normal =>
    simp only [Lexed.isIdentChar, hrules] at h
    simp [Rules.isTypeIdentChar, h]
  | angle => simpa only [Lexed.isIdentChar, hrules] using h

theorem Mode.isCloser_eq (m : Mode) (c : Char) :
    m.isCloser c = true → (groupOpenerOf c).isSome = true := by
  unfold Mode.isCloser groupOpenerOf
  split
  next => simp
  next h => simp [h]

theorem Mode.isCloser_of_pair {c a : Char} (h : groupOpenerOf c = some a) :
    Mode.angle.isCloser c = true := by
  rcases groupOpenerOf_eq_some.mp h with ⟨rfl, -⟩ | ⟨rfl, -⟩ | ⟨rfl, -⟩ | ⟨rfl, -⟩ <;> rfl

end BraceScopes
