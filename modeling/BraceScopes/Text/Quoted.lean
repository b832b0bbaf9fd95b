import BraceScopes.Text.Printable
/-!
Texts in double quotes, with everything visible: what does not show by itself is written as its code
point.
-/
namespace BraceScopes

namespace Quoted

/-- A character as it is written between double quotes. -/
def encodeChar (c : Char) : List Char :=
  match c with
  | '\t' => ['\\', 't']
  | '\r' => ['\\', 'r']
  | '\n' => ['\\', 'n']
  | '"' => ['\\', '"']
  | '\\' => ['\\', '\\']
  | '\x00' => ['\\', '0']
  | c =>
    if isPrintable c && !isGraphemeExtend c then [c]
    else ['\\', 'u', '{'] ++ Nat.toDigits 16 c.toNat ++ ['}']

def encode (s : String) : String := "\"" ++ String.ofList (s.toList.flatMap encodeChar) ++ "\""

end Quoted

end BraceScopes
