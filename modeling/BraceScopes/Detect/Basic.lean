import BraceScopes.Lex.Index
import BraceScopes.ScopeConfig
/-!
Detectors: each looks at the code before a brace and either says what the brace opens or declines. A
chain asks its detectors in order, and the first answer counts.
-/
namespace BraceScopes

/-- What a brace opens. -/
inductive ScopeKind where
  | classBody
  | interfaceBody
  | enumBody
  | anonClass
  | method
  /-- A block after a bare keyword or a lambda arrow. -/
  | simpleStatement
  /-- A block after a keyword and a group. -/
  | statement
  | array
deriving DecidableEq

namespace ScopeKind

def name : ScopeKind → String
  | .classBody => "Class"
  | .interfaceBody => "Interface"
  | .enumBody => "Enum"
  | .anonClass => "AnonClass"
  | .method => "Method"
  | .simpleStatement => "SimpleStatement"
  | .statement => "Statement"
  | .array => "Array"

def all : List ScopeKind :=
  [.classBody, .interfaceBody, .enumBody, .anonClass, .method, .simpleStatement, .statement, .array]

def ofName? (s : String) : Option ScopeKind := all.find? (·.name == s)

/-- Whether members are declared in the scope. -/
def isClassLike : ScopeKind → Bool
  | .classBody | .interfaceBody | .enumBody | .anonClass => true
  | _ => false

theorem ofName_name (k : ScopeKind) : ofName? k.name = some k := by cases k <;> decide

end ScopeKind

/-- What a detector says about a brace. -/
structure Detection where
  kind : ScopeKind
  name : String
  /-- Where the declaration begins that the brace belongs to. -/
  start : Option Nat
deriving DecidableEq

structure Detector where
  name : String
  detect : ScopeConfig → Lexed → Nat → Option Detection

/-- The first detector of a chain that accepts the brace, by name, and what it says. -/
def firstAccepting? (chain : List Detector) (cfg : ScopeConfig) (ix : Lexed) (brace : Nat) :
    Option (String × Detection) :=
  chain.findSome? fun d => (d.detect cfg ix brace).map fun found => (d.name, found)

def detectWith (chain : List Detector) (cfg : ScopeConfig) (ix : Lexed) (brace : Nat) :
    Option Detection :=
  (firstAccepting? chain cfg ix brace).map (·.2)

end BraceScopes
