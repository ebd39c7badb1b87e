import SinkCheck.Toml.Date
import SinkCheck.Toml.Number

/-!
# TOML scalars

Values without quotes or brackets: truth values, numbers and dates, told apart by what follows the sign and
the first digits.
-/

namespace SinkCheck

namespace Toml

def isDelimiter (c : Char) : Bool :=
  c == '\n' || c == '\r' || c == '#' || c == ',' || c == '=' || c == '[' || c == ']' || c == '\x7b' || c == '\x7d'

def startsString (c : Char) : Bool :=
  c == '"' || c == '\''

/-- Blanks belong to a token if more of it follows. -/
def splitToken : List Char → List Char × List Char
  | [] => ([], [])
  | c :: s =>
    let goesOn :=
      if isBlank c then (s.dropWhile isBlank).head?.any fun d => !isDelimiter d && !startsString d
      else !isDelimiter c
    if goesOn then
      let (token, rest) := splitToken s
      (c :: token, rest)
    else ([], c :: s)

def ofNumeric? (token : List Char) : Option Data :=
  match (unsigned token).dropWhile isDigit with
  | [] => decimal? token
  | c :: rest =>
    if c == '-' || c == ':' then if isDate token then some (ofDate token) else none
    else if (c :: rest).contains ' ' then none
    else if (c :: rest).any fun c => c == '.' || c == 'e' || c == 'E' then float? token
    else if c == '_' then decimal? token
    else none

def ofToken? (token : List Char) : Option Data :=
  match token with
  | ['t', 'r', 'u', 'e'] => some (.bool true)
  | ['f', 'a', 'l', 's', 'e'] => some (.bool false)
  | '0' :: 'x' :: s => based? 16 isHexDigit s
  | '0' :: 'o' :: s => based? 8 isOctalDigit s
  | '0' :: 'b' :: s => based? 2 isBinaryDigit s
  | _ =>
    match unsigned token with
    | ['i', 'n', 'f'] | ['n', 'a', 'n'] => some (.other (String.ofList token))
    | _ => ofNumeric? token

def bare? (s : List Char) : Option (Data × List Char) :=
  let (token, rest) := splitToken s
  (ofToken? token).map (·, rest)

end Toml

end SinkCheck
