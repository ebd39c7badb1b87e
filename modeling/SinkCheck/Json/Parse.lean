import SinkCheck.Data

/-!
# Reading JSON

Readers take a leading piece off the text. A string that escapes half of a surrogate pair is well
formed but stands for no text: it is kept as written, and so is an object with such a key.
-/

namespace SinkCheck

namespace Json

def skipBlanks (s : List Char) : List Char :=
  s.dropWhile fun c => c == ' ' || c == '\n' || c == '\t' || c == '\r'

/-! ## Strings -/

/-- A character of a string literal, written plainly or as a 16-bit unit. -/
inductive Piece where
  | char (c : Char)
  | unit (n : Nat)

def hexValue? (c : Char) : Option Nat :=
  if '0' ≤ c ∧ c ≤ '9' then some (c.toNat - '0'.toNat)
  else if 'a' ≤ c ∧ c ≤ 'f' then some (c.toNat - 'a'.toNat + 10)
  else if 'A' ≤ c ∧ c ≤ 'F' then some (c.toNat - 'A'.toNat + 10)
  else none

def hexNumber? (digits : List Char) : Option Nat :=
  (digits.mapM hexValue?).map (·.foldl (16 * · + ·) 0)

def simpleEscape? : Char → Option Char
  | '"' => some '"'
  | '\\' => some '\\'
  | '/' => some '/'
  | 'b' => some '\x08'
  | 'f' => some '\x0c'
  | 'n' => some '\n'
  | 'r' => some '\r'
  | 't' => some '\t'
  | _ => none

def pieces : List Char → Option (List Piece × List Char)
  | [] => none
  | '"' :: rest => some ([], rest)
  | '\\' :: 'u' :: a :: b :: c :: d :: rest =>
    match hexNumber? [a, b, c, d], pieces rest with
    | some n, some (ps, rest) => some (.unit n :: ps, rest)
    | _, _ => none
  | '\\' :: c :: rest =>
    match simpleEscape? c, pieces rest with
    | some c, some (ps, rest) => some (.char c :: ps, rest)
    | _, _ => none
  | c :: rest =>
    if c.toNat < 32 ∨ c = '\\' then none
    else (pieces rest).map fun (ps, rest) => (.char c :: ps, rest)

def isLeading (n : Nat) : Bool :=
  0xD800 ≤ n && n < 0xDC00

def isTrailing (n : Nat) : Bool :=
  0xDC00 ≤ n && n < 0xE000

/-- The text of the pieces, unless a surrogate stands alone. -/
def decode : List Piece → Option (List Char)
  | [] => some []
  | .char c :: ps => (decode ps).map (c :: ·)
  | .unit n :: .unit m :: ps =>
    if isLeading n then
      if isTrailing m then (decode ps).map (Char.ofNat (0x10000 + (n - 0xD800) * 0x400 + (m - 0xDC00)) :: ·)
      else none
    else if isTrailing n then none
    else (decode (.unit m :: ps)).map (Char.ofNat n :: ·)
  | .unit n :: ps => if isLeading n || isTrailing n then none else (decode ps).map (Char.ofNat n :: ·)

def between (s rest : List Char) : String :=
  String.ofList (s.take (s.length - rest.length))

/-! ## Numbers -/

def isDigit (c : Char) : Bool :=
  '0' ≤ c && c ≤ '9'

def digits? (s : List Char) : Option (List Char) :=
  if (s.takeWhile isDigit).isEmpty then none else some (s.dropWhile isDigit)

def integerPart? : List Char → Option (List Char)
  | '0' :: rest => if rest.head?.any isDigit then none else some rest
  | s => digits? s

def fraction? : List Char → Option (List Char)
  | '.' :: rest => digits? rest
  | s => some s

def exponent? : List Char → Option (List Char)
  | c :: rest =>
    if c = 'e' ∨ c = 'E' then
      match rest with
      | '+' :: ds | '-' :: ds => digits? ds
      | ds => digits? ds
    else some (c :: rest)
  | [] => some []

def unsigned? (s : List Char) : Option (List Char) :=
  integerPart? s >>= fraction? >>= exponent?

/-- A number; only one written in digits alone has a value here. -/
def number? (s : List Char) : Option (Data × List Char) :=
  match s with
  | '-' :: t => (unsigned? t).map fun rest => (.other (between s rest), rest)
  | _ =>
    (unsigned? s).map fun rest =>
      let literal := s.take (s.length - rest.length)
      if literal.all isDigit then (.nat (literal.foldl (fun n c => 10 * n + (c.toNat - '0'.toNat)) 0), rest)
      else (.other (String.ofList literal), rest)

/-! ## Values -/

/-- A member of an object; the key is `none` if it stands for no text. -/
abbrev Member? := Option String × Data

def ofMembers (literal : String) (members : List Member?) : Data :=
  match members.mapM fun (key, d) => key.map (·, d) with
  | some ms => .table ms
  | none => .other literal

mutual
/-- A value, with blanks before it skipped. The fuel bounds the depth of the calls. -/
def value : Nat → List Char → Option (Data × List Char)
  | 0, _ => none
  | fuel + 1, s =>
    match skipBlanks s with
    | 'n' :: 'u' :: 'l' :: 'l' :: rest => some (.null, rest)
    | 't' :: 'r' :: 'u' :: 'e' :: rest => some (.bool true, rest)
    | 'f' :: 'a' :: 'l' :: 's' :: 'e' :: rest => some (.bool false, rest)
    | '"' :: rest =>
      (pieces rest).map fun (ps, after) =>
        match decode ps with
        | some cs => (.text (String.ofList cs), after)
        | none => (.other (between ('"' :: rest) after), after)
    | '[' :: rest =>
      match skipBlanks rest with
      | ']' :: after => some (.list [], after)
      | rest => (items fuel rest).map fun (ds, after) => (.list ds, after)
    | '{' :: rest =>
      match skipBlanks rest with
      | '}' :: after => some (.table [], after)
      | body => (members fuel body).map fun (ms, after) => (ofMembers (between ('{' :: rest) after) ms, after)
    | s => number? s

def items : Nat → List Char → Option (List Data × List Char)
  | 0, _ => none
  | fuel + 1, s =>
    match value fuel s with
    | none => none
    | some (d, rest) =>
      match skipBlanks rest with
      | ']' :: after => some ([d], after)
      | ',' :: rest => (items fuel rest).map fun (ds, after) => (d :: ds, after)
      | _ => none

def members : Nat → List Char → Option (List Member? × List Char)
  | 0, _ => none
  | fuel + 1, s =>
    match skipBlanks s with
    | '"' :: rest =>
      match pieces rest with
      | none => none
      | some (ps, rest) =>
        match skipBlanks rest with
        | ':' :: rest =>
          match value fuel rest with
          | none => none
          | some (d, rest) =>
            let m : Member? := ((decode ps).map String.ofList, d)
            match skipBlanks rest with
            | '}' :: after => some ([m], after)
            | ',' :: rest => (members fuel rest).map fun (ms, after) => (m :: ms, after)
            | _ => none
        | _ => none
    | _ => none
end

/-- A whole text as one value. Every second call at least takes a character. -/
def parse (text : String) : Option Data :=
  let s := text.toList
  match value (2 * s.length + 2) s with
  | some (d, rest) => if (skipBlanks rest).isEmpty then some d else none
  | none => none

end Json

end SinkCheck
