/-!
# Characters of TOML

Classes of characters, and the values of digits.
-/

namespace SinkCheck

namespace Toml

def isBlank (c : Char) : Bool :=
  c == ' ' || c == '\t'

/-- Tabs are the only control characters in a line of text. -/
def isPlain (c : Char) : Bool :=
  c == '\t' || 32 ≤ c.toNat && c.toNat != 127

def isDigit (c : Char) : Bool :=
  '0' ≤ c && c ≤ '9'

def isHexDigit (c : Char) : Bool :=
  isDigit c || 'a' ≤ c && c ≤ 'f' || 'A' ≤ c && c ≤ 'F'

def digitValue (c : Char) : Nat :=
  if isDigit c then c.toNat - '0'.toNat else c.toLower.toNat - 'a'.toNat + 10

def number (base : Nat) (digits : List Char) : Nat :=
  digits.foldl (fun n c => base * n + digitValue c) 0

def isBinaryDigit (c : Char) : Bool := c == '0' || c == '1'

def isOctalDigit (c : Char) : Bool := '0' ≤ c && c ≤ '7'

end Toml

end SinkCheck
