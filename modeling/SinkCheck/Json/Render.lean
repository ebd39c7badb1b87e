import SinkCheck.Data

/-!
# Writing JSON

The compact form has no blanks; the pretty form puts every item on a line of its own, indented by two
blanks a level. Only quotes, backslashes and characters below the blank are escaped.
-/

namespace SinkCheck

namespace Json

def hexDigit (n : Nat) : Char :=
  (Nat.toDigits 16 n).headD '0'

def escape (c : Char) : List Char :=
  match c with
  | '"' => ['\\', '"']
  | '\\' => ['\\', '\\']
  | '\x08' => ['\\', 'b']
  | '\x0c' => ['\\', 'f']
  | '\n' => ['\\', 'n']
  | '\r' => ['\\', 'r']
  | '\t' => ['\\', 't']
  | c => if c.toNat < 32 then ['\\', 'u', '0', '0', hexDigit (c.toNat / 16), hexDigit (c.toNat % 16)] else [c]

def quote (s : String) : String :=
  String.ofList ('"' :: (s.toList.flatMap escape ++ ['"']))

mutual
def compact : Data → String
  | .null => "null"
  | .bool b => if b then "true" else "false"
  | .nat n => toString n
  | .text s => quote s
  | .list items => "[" ++ ",".intercalate (compactItems items) ++ "]"
  | .table members => "\x7b" ++ ",".intercalate (compactMembers members) ++ "\x7d"
  | .other literal | .broken literal => literal

def compactItems : List Data → List String
  | [] => []
  | d :: ds => compact d :: compactItems ds

def compactMembers : List (String × Data) → List String
  | [] => []
  | (key, d) :: ms => (quote key ++ ":" ++ compact d) :: compactMembers ms
end

def lineBreak (level : Nat) : String :=
  String.ofList ('\n' :: List.replicate (2 * level) ' ')

def enclose (left right : String) (level : Nat) (items : List String) : String :=
  if items.isEmpty then left ++ right
  else left ++ ",".intercalate (items.map (lineBreak (level + 1) ++ ·)) ++ lineBreak level ++ right

mutual
def prettyAt (level : Nat) : Data → String
  | .null => "null"
  | .bool b => if b then "true" else "false"
  | .nat n => toString n
  | .text s => quote s
  | .list items => enclose "[" "]" level (prettyItems (level + 1) items)
  | .table members => enclose "\x7b" "\x7d" level (prettyMembers (level + 1) members)
  | .other literal | .broken literal => literal

def prettyItems (level : Nat) : List Data → List String
  | [] => []
  | d :: ds => prettyAt level d :: prettyItems level ds

def prettyMembers (level : Nat) : List (String × Data) → List String
  | [] => []
  | (key, d) :: ms => (quote key ++ ": " ++ prettyAt level d) :: prettyMembers level ms
end

def pretty (d : Data) : String :=
  prettyAt 0 d

end Json

end SinkCheck
