import SinkCheck.Toml.Chars

/-!
# TOML strings

The four forms of a string: basic or literal, on one line or on several. Readers start behind the opening
quotes and go past the closing ones.
-/

namespace SinkCheck

namespace Toml

/-- The character with a given code, which must not be half of a surrogate pair. -/
def scalar? (digits : List Char) : Option Char :=
  let n := number 16 digits
  if digits.all isHexDigit ∧ n.isValidChar then some (Char.ofNat n) else none

def simpleEscape? : Char → Option Char
  | 'b' => some '\x08'
  | 'e' => some '\x1b'
  | 't' => some '\t'
  | 'n' => some '\n'
  | 'f' => some '\x0c'
  | 'r' => some '\r'
  | '"' => some '"'
  | '\\' => some '\\'
  | _ => none

def consTo {α β : Type} (a : Option α) (rest : Option (List α × β)) : Option (List α × β) :=
  match a, rest with
  | some a, some (as, r) => some (a :: as, r)
  | _, _ => none

def basic : List Char → Option (List Char × List Char)
  | [] => none
  | '"' :: rest => some ([], rest)
  | '\\' :: 'x' :: a :: b :: rest => consTo (scalar? [a, b]) (basic rest)
  | '\\' :: 'u' :: a :: b :: c :: d :: rest => consTo (scalar? [a, b, c, d]) (basic rest)
  | '\\' :: 'U' :: a :: b :: c :: d :: e :: f :: g :: h :: rest =>
    consTo (scalar? [a, b, c, d, e, f, g, h]) (basic rest)
  | '\\' :: c :: rest => consTo (simpleEscape? c) (basic rest)
  | c :: rest => if isPlain c && c != '\\' then consTo (some c) (basic rest) else none

def literal : List Char → Option (List Char × List Char)
  | [] => none
  | '\'' :: rest => some ([], rest)
  | c :: rest => if isPlain c then consTo (some c) (literal rest) else none

/-- Inside a multi-line string a backslash at the end of a line eats the blanks up to the next text. -/
inductive Continuation where
  | none
  /-- Only blanks up to the line end. -/
  | toLineEnd
  | toText

/-- The rest of a multi-line basic string. One or two quotes may stand before the closing three. -/
def multiBasic : Continuation → List Char → Option (List Char × List Char)
  | _, [] => Option.none
  | .toLineEnd, '\r' :: '\n' :: rest | .toLineEnd, '\n' :: rest => multiBasic .toText rest
  | .toLineEnd, c :: rest => if isBlank c then multiBasic .toLineEnd rest else Option.none
  | .toText, '\r' :: '\n' :: rest | .toText, '\n' :: rest
  | .toText, ' ' :: rest | .toText, '\t' :: rest => multiBasic .toText rest
  | _, '"' :: '"' :: '"' :: '"' :: '"' :: '"' :: _ => Option.none
  | _, '"' :: '"' :: '"' :: '"' :: '"' :: rest => some (['"', '"'], rest)
  | _, '"' :: '"' :: '"' :: '"' :: rest => some (['"'], rest)
  | _, '"' :: '"' :: '"' :: rest => some ([], rest)
  | _, '\\' :: 'x' :: a :: b :: rest => consTo (scalar? [a, b]) (multiBasic .none rest)
  | _, '\\' :: 'u' :: a :: b :: c :: d :: rest => consTo (scalar? [a, b, c, d]) (multiBasic .none rest)
  | _, '\\' :: 'U' :: a :: b :: c :: d :: e :: f :: g :: h :: rest =>
    consTo (scalar? [a, b, c, d, e, f, g, h]) (multiBasic .none rest)
  | _, '\\' :: c :: rest =>
    if isBlank c || c == '\n' || c == '\r' then multiBasic .toLineEnd (c :: rest)
    else consTo (simpleEscape? c) (multiBasic .none rest)
  | _, '\r' :: '\n' :: rest => consTo (some '\r') (consTo (some '\n') (multiBasic .none rest))
  | _, c :: rest =>
    if c == '\n' || isPlain c && c != '\\' then consTo (some c) (multiBasic .none rest) else Option.none

def multiLiteral : List Char → Option (List Char × List Char)
  | [] => none
  | '\'' :: '\'' :: '\'' :: '\'' :: '\'' :: '\'' :: _ => none
  | '\'' :: '\'' :: '\'' :: '\'' :: '\'' :: rest => some (['\'', '\''], rest)
  | '\'' :: '\'' :: '\'' :: '\'' :: rest => some (['\''], rest)
  | '\'' :: '\'' :: '\'' :: rest => some ([], rest)
  | '\r' :: '\n' :: rest => consTo (some '\r') (consTo (some '\n') (multiLiteral rest))
  | c :: rest => if c == '\n' || isPlain c then consTo (some c) (multiLiteral rest) else none

/-- A line end right after the opening quotes is no part of the string. -/
def dropFirstLineEnd : List Char → List Char
  | '\n' :: rest | '\r' :: '\n' :: rest => rest
  | s => s

end Toml

end SinkCheck
