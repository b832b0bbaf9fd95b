import BraceScopes.Detect.Basic
import BraceScopes.Text.Blank
import Mathlib.Data.List.Chain
/-!
The grammar of declaration headers: methods with their parameters, and types with their clauses. A
header is a sequence of tokens, each with the white space after it.
-/
namespace BraceScopes

namespace Header

/-- A word or a mark, and the white space after it. -/
structure Token where
  text : List Char
  gap : List Char

def token (s : String) (gap : List Char) : Token := ⟨s.toList, gap⟩

/-- Letters, digits and the underscore. -/
def isNameChar (c : Char) : Bool := c.isAlphanum || c == '_'

namespace Token

def isWord (k : Token) : Bool := k.text.all isNameChar

def chars (k : Token) : List Char := k.text ++ k.gap

end Token

def spell (ts : List Token) : List Char := ts.flatMap Token.chars

/-- White space stands between tokens, and there is some between two words. -/
structure Spaced (ts : List Token) : Prop where
  blank : ∀ k ∈ ts, ∀ c ∈ k.gap, isBlank c = true
  apart : ts.IsChain fun a b => a.isWord = true → b.isWord = true → a.gap ≠ []

/-- A word that is not reserved. -/
structure IsWord (reserved : List String) (w : List Char) : Prop where
  nonempty : w ≠ []
  chars : ∀ c ∈ w, isNameChar c = true
  free : String.ofList w ∉ reserved

instance (reserved : List String) (w : List Char) : Decidable (IsWord reserved w) :=
  decidable_of_iff (w ≠ [] ∧ w.all isNameChar = true ∧ String.ofList w ∉ reserved)
    ⟨fun ⟨hne, hchars, hfree⟩ => ⟨hne, List.all_eq_true.mp hchars, hfree⟩,
      fun h => ⟨h.nonempty, List.all_eq_true.mpr h.chars, h.free⟩⟩

/-- A dotted name. -/
inductive Name (reserved : List String) : List Token → Prop
  | word {w g : List Char} (word : IsWord reserved w) : Name reserved [⟨w, g⟩]
  | dot {w g g' : List Char} {ts : List Token} (word : IsWord reserved w) (rest : Name reserved ts) :
      Name reserved (⟨w, g⟩ :: token "." g' :: ts)

inductive Form where
  /-- A name, with or without type arguments. -/
  | simple
  /-- A simple type, and what makes it an array or variable in number. -/
  | type
  /-- Types that all have to be met. -/
  | bounds
  /-- A type argument or parameter: a type, or a wildcard or a word with its bounds. -/
  | argument
  /-- Arguments with commas between them. -/
  | arguments

/-- How types are written. -/
inductive Phrase (reserved : List String) : Form → List Token → Prop
  | name {ts : List Token} (name : Name reserved ts) : Phrase reserved .simple ts
  | generic {ts us : List Token} {g g' : List Char} (name : Name reserved ts)
      (arguments : Phrase reserved .arguments us) :
      Phrase reserved .simple (ts ++ token "<" g :: us ++ [token ">" g'])
  | simple {ts : List Token} (type : Phrase reserved .simple ts) : Phrase reserved .type ts
  | array {ts : List Token} {g g' : List Char} (type : Phrase reserved .type ts) :
      Phrase reserved .type (ts ++ [token "[" g, token "]" g'])
  | variadic {ts : List Token} {g : List Char} (type : Phrase reserved .type ts) :
      Phrase reserved .type (ts ++ [token "..." g])
  | bound {ts : List Token} (type : Phrase reserved .type ts) : Phrase reserved .bounds ts
  | both {ts us : List Token} {g : List Char} (type : Phrase reserved .type ts)
      (rest : Phrase reserved .bounds us) : Phrase reserved .bounds (ts ++ token "&" g :: us)
  | type {ts : List Token} (type : Phrase reserved .type ts) : Phrase reserved .argument ts
  | wildcard {g : List Char} : Phrase reserved .argument [token "?" g]
  | bounded {k : Token} {s : String} {g : List Char} {ts : List Token}
      (head : k.text = ['?'] ∨ IsWord reserved k.text) (keyword : s = "extends" ∨ s = "super")
      (bounds : Phrase reserved .bounds ts) : Phrase reserved .argument (k :: token s g :: ts)
  | one {ts : List Token} (argument : Phrase reserved .argument ts) : Phrase reserved .arguments ts
  | comma {ts us : List Token} {g : List Char} (argument : Phrase reserved .argument ts)
      (rest : Phrase reserved .arguments us) : Phrase reserved .arguments (ts ++ token "," g :: us)

/-- Type parameters, if there are any. -/
inductive TypeParameters (reserved : List String) : List Token → Prop
  | nil : TypeParameters reserved []
  | some {ts : List Token} {g g' : List Char} (arguments : Phrase reserved .arguments ts) :
      TypeParameters reserved (token "<" g :: ts ++ [token ">" g'])

/-- Words and annotations without arguments. -/
inductive Modifiers (reserved : List String) : List Token → Prop
  | nil : Modifiers reserved []
  | word {w g : List Char} {ts : List Token} (word : IsWord reserved w) (rest : Modifiers reserved ts) :
      Modifiers reserved (⟨w, g⟩ :: ts)
  | annotated {g : List Char} {us ts : List Token} (name : Name reserved us)
      (rest : Modifiers reserved ts) : Modifiers reserved (token "@" g :: us ++ ts)

/-- Items with commas between them, where an item stands for a value. -/
inductive Listed {α : Type} (item : List Token → α → Prop) : List Token → List α → Prop
  | one {ts : List Token} {a : α} (first : item ts a) : Listed item ts [a]
  | comma {ts us : List Token} {g : List Char} {a : α} {as : List α} (first : item ts a)
      (rest : Listed item us as) : Listed item (ts ++ token "," g :: us) (a :: as)

/-- The words that a method header does not use for names. -/
def methodWords : List String :=
  ({} : ScopeConfig).statementKeywords ++ ["new", "final", "throws", "class", "interface", "enum"]

/-- A parameter, and its type. White space stands between the type and the name. -/
inductive Parameter : List Token → List Token → Prop
  | mk {fs ty : List Token} {w g : List Char} (final : fs = [] ∨ ∃ g, fs = [token "final" g])
      (type : Phrase methodWords .type ty) (apart : ∀ k ∈ ty.getLast?, k.gap ≠ [])
      (name : IsWord methodWords w) : Parameter (fs ++ ty ++ [⟨w, g⟩]) ty

/-- What follows the parameters: nothing, or the exceptions that are thrown. -/
inductive Throws : List Token → Prop
  | nil : Throws []
  | some {g : List Char} {us : List Token} {names : List (List Token)}
      (names : Listed (fun ts name => Name methodWords ts ∧ name = ts) us names) :
      Throws (token "throws" g :: us)

/-- A method header, the name of the method and the types of its parameters. -/
inductive MethodHeader : List Token → List Char → List (List Token) → Prop
  | mk {ms ps rs as xs : List Token} {w g g' g'' : List Char} {types : List (List Token)}
      (modifiers : Modifiers ["new"] ms) (typeParameters : TypeParameters methodWords ps)
      (result : rs = [] ∨ Phrase methodWords .type rs) (name : IsWord methodWords w)
      (parameters : as = [] ∧ types = [] ∨ Listed Parameter as types) (throws : Throws xs) :
      MethodHeader (ms ++ ps ++ rs ++ ⟨w, g⟩ :: token "(" g' :: as ++ token ")" g'' :: xs) w types

/-- The words that a type header uses for itself. -/
def typeWords : List String := ["class", "interface", "enum", "extends", "implements", "permits"]

/-- The keyword of a type, and what its brace opens. -/
inductive TypeKeyword : List Token → ScopeKind → Prop
  | word {s : String} {kind : ScopeKind} {g : List Char}
      (word : (s, kind) ∈ [("class", .classBody), ("interface", .interfaceBody), ("enum", .enumBody)]) :
      TypeKeyword [token s g] kind
  | annotated (g g' : List Char) : TypeKeyword [token "@" g, token "interface" g'] .interfaceBody

/-- Clauses of a type header, each a keyword and types with commas between them. -/
inductive Clauses : List Token → Prop
  | nil : Clauses []
  | clause {ts us : List Token} {s : String} {g : List Char} {types : List (List Token)}
      (before : Clauses ts) (keyword : s = "extends" ∨ s = "implements" ∨ s = "permits")
      (types : Listed (fun ts type => Phrase typeWords .simple ts ∧ type = ts) us types) :
      Clauses (ts ++ token s g :: us)

/-- A type header, what its brace opens, and the name of the type. -/
inductive TypeHeader : List Token → ScopeKind → List Char → Prop
  | mk {ms ks ps cs : List Token} {kind : ScopeKind} {w g : List Char}
      (modifiers : Modifiers typeWords ms) (keyword : TypeKeyword ks kind)
      (name : IsWord ("final" :: typeWords) w) (typeParameters : TypeParameters typeWords ps)
      (clauses : Clauses cs) : TypeHeader (ms ++ ks ++ ⟨w, g⟩ :: ps ++ cs) kind w

end Header

end BraceScopes
