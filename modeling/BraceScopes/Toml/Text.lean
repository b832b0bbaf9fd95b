/-!
Characters, blanks, comments and strings of a TOML document. A reader takes the characters that are
left and gives what it read and what is left then, or nothing when the document is malformed.
-/
namespace BraceScopes

namespace Toml

/-- Whether a character may stand in a comment or a string: no control characters but the tab. -/
def isTextChar (c : Char) : Bool := c == '\t' || (0x20 ≤ c.toNat && c.toNat != 0x7F)

def isSpace (c : Char) : Bool := c == ' ' || c == '\t'

def skipSpaces (cs : List Char) : List Char := cs.dropWhile isSpace

/-- Reads a line terminator: a line feed, or a carriage return and a line feed. -/
def newline? : List Char → Option (List Char)
  | '\n' :: cs => some cs
  | '\r' :: '\n' :: cs => some cs
  | _ => none

def skipComment : List Char → List Char
  | '#' :: cs => cs.dropWhile isTextChar
  | cs => cs

/-- Reads what may follow a value or a header on its line: blanks, a comment, and the end of the line or
of the document. -/
def lineEnd? (cs : List Char) : Option (List Char) :=
  match skipComment (skipSpaces cs) with
  | [] => some []
  | rest => newline? rest

def skipBlankLines : List Char → List Char
  | ' ' :: cs => skipBlankLines cs
  | '\t' :: cs => skipBlankLines cs
  | '\n' :: cs => skipBlankLines cs
  | '\r' :: '\n' :: cs => skipBlankLines cs
  | cs => cs

/-- Skips blanks, line terminators and comments, at most `n` lines of them. -/
def skipFillerLines : Nat → List Char → List Char
  | 0, cs => cs
  | n + 1, cs =>
    match skipBlankLines cs with
    | '#' :: rest =>
      match newline? (rest.dropWhile isTextChar) with
      | some rest => skipFillerLines n rest
      | none => '#' :: rest
    | rest => rest

def skipFiller (cs : List Char) : List Char := skipFillerLines (cs.length + 1) cs

def hexDigit? (c : Char) : Option Nat :=
  if c.isDigit then some (c.toNat - '0'.toNat)
  else if 'a' ≤ c ∧ c ≤ 'f' then some (c.toNat - 'a'.toNat + 10)
  else if 'A' ≤ c ∧ c ≤ 'F' then some (c.toNat - 'A'.toNat + 10)
  else none

def hexChar? (digits : List Char) : Option Char := do
  let n ← digits.foldlM (fun n c => (hexDigit? c).map (16 * n + ·)) 0
  if n < 0xD800 ∨ (0xDFFF < n ∧ n < 0x110000) then some (Char.ofNat n) else none

/-- Reads the rest of an escape sequence, after the backslash. -/
def escape? : List Char → Option (Char × List Char)
  | 'b' :: cs => some ('\x08', cs)
  | 'f' :: cs => some ('\x0c', cs)
  | 'n' :: cs => some ('\n', cs)
  | 'r' :: cs => some ('\r', cs)
  | 't' :: cs => some ('\t', cs)
  | '"' :: cs => some ('"', cs)
  | '\\' :: cs => some ('\\', cs)
  | 'u' :: cs => if 4 ≤ cs.length then (hexChar? (cs.take 4)).map fun c => (c, cs.drop 4) else none
  | 'U' :: cs => if 8 ≤ cs.length then (hexChar? (cs.take 8)).map fun c => (c, cs.drop 8) else none
  | _ => none

theorem escape_length {cs rest : List Char} {c : Char} (h : escape? cs = some (c, rest)) :
    rest.length < cs.length := by
  unfold escape? at h
  split at h
  case h_8 | h_9 =>
    split at h
    next =>
      obtain ⟨_, _, h⟩ := Option.map_eq_some_iff.mp h
      cases h
      simp only [List.length_drop, List.length_cons]
      omega
    next => simp at h
  case h_10 => simp at h
  all_goals
    cases h
    simp

theorem newline_length {cs rest : List Char} (h : newline? cs = some rest) :
    rest.length < cs.length := by
  unfold newline? at h
  split at h
  next => cases h; exact Nat.lt_succ_self _
  next => cases h; simp only [List.length_cons]; omega
  next => simp at h

theorem skipBlankLines_length (cs : List Char) : (skipBlankLines cs).length ≤ cs.length := by
  fun_induction skipBlankLines cs <;> simp_all <;> omega

theorem dropWhile_length (p : Char → Bool) (cs : List Char) : (cs.dropWhile p).length ≤ cs.length :=
  (List.dropWhile_sublist p).length_le

/-- The rest of a string in double quotes, after the first quote. -/
def basicBody? (cs : List Char) : Option (List Char × List Char) :=
  match cs with
  | [] => none
  | '"' :: cs => some ([], cs)
  | '\\' :: cs =>
    match _h : escape? cs with
    | some (c, rest) => (basicBody? rest).map fun (body, rest) => (c :: body, rest)
    | none => none
  | c :: cs => if isTextChar c then (basicBody? cs).map fun (body, rest) => (c :: body, rest) else none
termination_by cs.length
decreasing_by
  · have := escape_length _h
    simp only [List.length_cons]
    omega
  · simp

/-- The rest of a string in single quotes, after the first quote. -/
def literalBody? : List Char → Option (List Char × List Char)
  | [] => none
  | '\'' :: cs => some ([], cs)
  | c :: cs => if isTextChar c then (literalBody? cs).map fun (body, rest) => (c :: body, rest) else none

/-- Reads a backslash that ends a line, after the backslash: it takes the white space of that line and
of the lines that follow with it. -/
def continuation? (cs : List Char) : Option (List Char) :=
  (newline? (skipSpaces cs)).map skipBlankLines

theorem continuation_length {cs rest : List Char} (h : continuation? cs = some rest) :
    rest.length < cs.length := by
  obtain ⟨after, ha, rfl⟩ := Option.map_eq_some_iff.mp h
  have := newline_length ha
  have := skipBlankLines_length after
  have : (skipSpaces cs).length ≤ cs.length := dropWhile_length _ _
  omega

/-- Splits quotes off the front of a string of several lines. Three to five quotes end it, and those
before the last three belong to it. -/
inductive Quotes where
  /-- The string ends. -/
  | ending (own : List Char)
  /-- The string goes on. -/
  | inner (own : List Char)
  /-- There are too many quotes. -/
  | wrong

def quotesAt (q : Char) (cs : List Char) : Quotes :=
  let own := cs.takeWhile (· == q)
  if own.length < 3 then .inner own
  else if own.length ≤ 5 then .ending (own.drop 3)
  else .wrong

/-- The rest of a string of several lines, after the quotes that begin it and the line terminator right
after them. Escapes are read where `escapes` says so. -/
def multilineBody? (q : Char) (escapes : Bool) (cs : List Char) : Option (List Char × List Char) :=
  match cs with
  | [] => none
  | c :: rest =>
    if c = q then
      match quotesAt q (c :: rest) with
      | .ending own => some (own, (c :: rest).drop (own.length + 3))
      | .inner _ => (multilineBody? q escapes rest).map fun (body, rest) => (c :: body, rest)
      | .wrong => none
    else if c = '\\' ∧ escapes then
      match _hc : continuation? rest with
      | some rest => multilineBody? q escapes rest
      | none =>
        match _h : escape? rest with
        | some (e, rest) => (multilineBody? q escapes rest).map fun (body, rest) => (e :: body, rest)
        | none => none
    else
      match _hn : newline? (c :: rest) with
      | some rest => (multilineBody? q escapes rest).map fun (body, rest) => ('\n' :: body, rest)
      | none =>
        if isTextChar c then (multilineBody? q escapes rest).map fun (body, rest) => (c :: body, rest)
        else none
termination_by cs.length
decreasing_by
  · simp
  · have := continuation_length _hc
    simp only [List.length_cons]
    omega
  · have := escape_length _h
    simp only [List.length_cons]
    omega
  · have := newline_length _hn
    omega
  · simp

/-- Leaves out the line terminator right after the quotes that begin a string of several lines. -/
def skipFirstNewline (cs : List Char) : List Char := (newline? cs).getD cs

/-- Reads a string in double or single quotes, of one line or of several. -/
def string? (cs : List Char) : Option (String × List Char) :=
  let body := match cs with
    | '"' :: '"' :: '"' :: rest => multilineBody? '"' true (skipFirstNewline rest)
    | '"' :: rest => basicBody? rest
    | '\'' :: '\'' :: '\'' :: rest => multilineBody? '\'' false (skipFirstNewline rest)
    | '\'' :: rest => literalBody? rest
    | _ => none
  body.map fun (body, rest) => (String.ofList body, rest)

def isBareKeyChar (c : Char) : Bool := c.isAlphanum || c == '_' || c == '-'

def keyPart? (cs : List Char) : Option (String × List Char) :=
  match cs with
  | '"' :: rest => (basicBody? rest).map fun (body, rest) => (String.ofList body, rest)
  | '\'' :: rest => (literalBody? rest).map fun (body, rest) => (String.ofList body, rest)
  | _ =>
    match cs.takeWhile isBareKeyChar with
    | [] => none
    | part => some (String.ofList part, cs.dropWhile isBareKeyChar)

/-- Reads a key of at most `n` parts with dots between them, and blanks around each. -/
def keyParts? : Nat → List Char → Option (List String × List Char)
  | 0, _ => none
  | n + 1, cs => do
    let (part, rest) ← keyPart? (skipSpaces cs)
    match skipSpaces rest with
    | '.' :: rest => (keyParts? n rest).map fun (parts, rest) => (part :: parts, rest)
    | rest => some ([part], rest)

/-- Keys and values nest less than this deep. -/
def maxDepth : Nat := 80

def key? (cs : List Char) : Option (List String × List Char) := keyParts? (maxDepth - 1) cs

end Toml

end BraceScopes
