import SinkCheck.Toml.Quoted
import SinkCheck.Toml.Scalar
import SinkCheck.Toml.Table

/-!
# Reading TOML

Keys, values and lines of TOML 1.1. Readers take a leading piece off the text; the fuel of the recursive
ones is the length of the text, since every call takes a character.
-/

namespace SinkCheck

namespace Toml

def skipBlanks (s : List Char) : List Char :=
  s.dropWhile isBlank

def skipLines (inComment : Bool) : List Char → Option (List Char)
  | [] => some []
  | '\n' :: rest | '\r' :: '\n' :: rest => skipLines false rest
  | c :: rest =>
    if inComment then if isPlain c then skipLines true rest else none
    else if isBlank c then skipLines false rest
    else if c = '#' then skipLines true rest
    else some (c :: rest)

def lineEnd (s : List Char) : Option (List Char) :=
  let afterComment :=
    match skipBlanks s with
    | '#' :: rest => rest.dropWhile isPlain
    | rest => rest
  match afterComment with
  | [] => some []
  | '\n' :: rest | '\r' :: '\n' :: rest => some rest
  | _ => none

/-! ## Keys -/

def isBareChar (c : Char) : Bool :=
  isDigit c || 'a' ≤ c && c ≤ 'z' || 'A' ≤ c && c ≤ 'Z' || c == '-' || c == '_'

def key? : List Char → Option (String × List Char)
  | '"' :: rest => (basic rest).map fun (cs, rest) => (String.ofList cs, rest)
  | '\'' :: rest => (literal rest).map fun (cs, rest) => (String.ofList cs, rest)
  | s =>
    let name := s.takeWhile isBareChar
    if name.isEmpty then none else some (String.ofList name, s.dropWhile isBareChar)

/-- The parts of a dotted key before the last one, the last one, and the text from the next that is not
blank. The number of parts is limited. -/
def path? : (limit : Nat) → List Char → Option (List String × String × List Char)
  | 0, _ => none
  | limit + 1, s =>
    match key? (skipBlanks s) with
    | none => none
    | some (key, rest) =>
      match skipBlanks rest with
      | '.' :: rest => (path? limit rest).map fun (path, last, rest) => (key :: path, last, rest)
      | rest => some ([], key, rest)

/-! ## Values -/

/-- Arrays and inline tables nest at most this deep, and a dotted key has at most as many parts. -/
def depthLimit : Nat := 80

def quoted (x : Option (List Char × List Char)) : Option (Data × List Char) :=
  x.map fun (cs, rest) => (.text (String.ofList cs), rest)

mutual
def value : Nat → (depth : Nat) → List Char → Option (Data × List Char)
  | 0, _, _ => none
  | fuel + 1, depth, s =>
    match s with
    | '"' :: '"' :: '"' :: rest => quoted (multiBasic .none (dropFirstLineEnd rest))
    | '"' :: rest => quoted (basic rest)
    | '\'' :: '\'' :: '\'' :: rest => quoted (multiLiteral (dropFirstLineEnd rest))
    | '\'' :: rest => quoted (literal rest)
    | '[' :: rest =>
      match depth with
      | 0 => none
      | depth + 1 => (items fuel depth rest).map fun (ds, rest) => (.list ds, rest)
    | '{' :: rest =>
      match depth with
      | 0 => none
      | depth + 1 => (pairs fuel depth [] rest).map fun (ms, rest) => (.table (dataOfMembers ms), rest)
    | s => bare? s

def items : Nat → (depth : Nat) → List Char → Option (List Data × List Char)
  | 0, _, _ => none
  | fuel + 1, depth, s =>
    match skipLines false s with
    | none => none
    | some (']' :: rest) => some ([], rest)
    | some s =>
      match value fuel depth s with
      | none => none
      | some (d, rest) =>
        match skipLines false rest with
        | some (']' :: rest) => some ([d], rest)
        | some (',' :: rest) => (items fuel depth rest).map fun (ds, rest) => (d :: ds, rest)
        | _ => none

def pairs : Nat → (depth : Nat) → Members → List Char → Option (Members × List Char)
  | 0, _, _, _ => none
  | fuel + 1, depth, ms, s =>
    match skipLines false s with
    | none => none
    | some ('}' :: rest) => some (ms, rest)
    | some s =>
      match pair fuel depth ms s with
      | none => none
      | some (ms, rest) =>
        match skipLines false rest with
        | some ('}' :: rest) => some (ms, rest)
        | some (',' :: rest) => pairs fuel depth ms rest
        | _ => none

def pair : Nat → (depth : Nat) → Members → List Char → Option (Members × List Char)
  | 0, _, _, _ => none
  | fuel + 1, depth, ms, s =>
    match path? depthLimit s with
    | none => none
    | some (path, key, rest) =>
      match skipLines false rest with
      | some ('=' :: rest) =>
        match skipLines false rest with
        | none => none
        | some rest =>
          match value fuel depth rest with
          | none => none
          | some (d, rest) => (assign path key d .explicit ms).map (·, rest)
      | _ => none
end

/-! ## Documents -/

/-- A document and the path of the table at work, its last part apart. -/
structure Document where
  root : Members
  open? : Option (List String × String)

def Document.assign (doc : Document) (path : List String) (key : String) (d : Data) : Option Document :=
  let added :=
    match doc.open? with
    | none => Toml.assign path key d .explicit doc.root
    | some (above, last) => alter false (Toml.assign path key d) (above ++ [last]) .explicit doc.root
  added.map ({ doc with root := · })

def statement (fuel : Nat) (doc : Document) : List Char → Option (Document × List Char)
  | '[' :: '[' :: s =>
    match path? depthLimit s with
    | some (path, key, ']' :: ']' :: rest) =>
      (openElement path key doc.root).map fun root => (⟨root, some (path, key)⟩, rest)
    | _ => none
  | '[' :: s =>
    match path? depthLimit s with
    | some (path, key, ']' :: rest) =>
      (openTable path key doc.root).map fun root => (⟨root, some (path, key)⟩, rest)
    | _ => none
  | s =>
    match path? depthLimit s with
    | some (path, key, '=' :: rest) =>
      match value fuel depthLimit (skipBlanks rest) with
      | some (d, rest) => (doc.assign path key d).map (·, rest)
      | none => none
    | _ => none

/-- Every statement ends its line. -/
def statements : Nat → Document → List Char → Option Document
  | 0, _, _ => none
  | fuel + 1, doc, s =>
    match skipLines false s with
    | none => none
    | some [] => some doc
    | some s =>
      match statement (s.length + 1) doc s with
      | none => none
      | some (doc, rest) =>
        match lineEnd rest with
        | none => none
        | some rest => statements fuel doc rest

def dropMark : List Char → List Char
  | '\ufeff' :: s => s
  | s => s

/-- A whole text, which may start with a byte order mark. -/
def parse (text : String) : Option Data :=
  let s := dropMark text.toList
  (statements (s.length + 1) ⟨[], none⟩ s).map fun doc => .table (dataOfMembers doc.root)

end Toml

end SinkCheck
