import SinkCheck.Data
import SinkCheck.Toml.Chars

/-!
# TOML numbers

A token may be written like a number and still have no value: it is too large, or has no digits (`0x`), or
has other text than digits behind an underscore (`1_f`). Such a number is broken data.
-/

namespace SinkCheck

namespace Toml

def unsigned : List Char → List Char
  | '+' :: s | '-' :: s => s
  | s => s

/-- Every underscore stands between two digits. -/
def grouped (isDigit : Char → Bool) : List Char → Bool
  | [] => true
  | '_' :: _ => false
  | c :: '_' :: rest => isDigit c && rest.head?.any isDigit && grouped isDigit rest
  | _ :: rest => grouped isDigit rest

def withoutUnderscores (s : List Char) : List Char :=
  s.filter (· != '_')

/-! ## Integers -/

/-- Integers have a value as long as 128 bits hold them. -/
def ofInteger (n : Int) : Data :=
  if n < -(Nat.pow 2 127 : Nat) ∨ (Nat.pow 2 128 : Nat) ≤ n then .broken (toString n)
  else if 0 ≤ n then .nat n.toNat
  else .other (toString n)

def ofDigits (base : Nat) (isDigit : Char → Bool) (negative : Bool) (digits : List Char) : Data :=
  if digits.isEmpty || !digits.all isDigit then .broken (String.ofList digits)
  else ofInteger (if negative then -(number base digits : Int) else number base digits)

/-- Digits after a mark for their base. -/
def based? (base : Nat) (isDigit : Char → Bool) (s : List Char) : Option Data :=
  if grouped isDigit s && (withoutUnderscores s).all isDigit then
    some (ofDigits base isDigit false (withoutUnderscores s))
  else none

/-- Letters up to `f` pass for digits next to an underscore, and any text elsewhere behind one. -/
def decimal? (token : List Char) : Option Data :=
  let s := unsigned token
  if s.isEmpty || s.head? == some '0' && s.length != 1 || !grouped isHexDigit token then none
  else some (ofDigits 10 isDigit (token.head? == some '-') (withoutUnderscores s))

/-! ## Floats -/

/-- Whether `n · 10 ^ e` is too large for a double: at least half a unit above the largest one. -/
def overflows (n : Nat) (e : Int) : Bool :=
  let magnitude := (Nat.toDigits 10 n).length + e
  let limit := Nat.pow 2 1024 - Nat.pow 2 970
  if n = 0 ∨ magnitude < 300 then false
  else if 320 < magnitude then true
  else if 0 ≤ e then limit ≤ n * Nat.pow 10 e.toNat
  else limit * Nat.pow 10 (-e).toNat ≤ n

/-- Takes digits and underscores off the front, and returns the digits, of which there is at least one. -/
def digits? (s : List Char) : Option (List Char × List Char) :=
  let isPart (c : Char) := isDigit c || c == '_'
  let digits := withoutUnderscores (s.takeWhile isPart)
  if digits.isEmpty then none else some (digits, s.dropWhile isPart)

def fraction? : List Char → Option (List Char × List Char)
  | '.' :: s => digits? s
  | s => some ([], s)

def exponent? : List Char → Option Int
  | [] => some 0
  | c :: s =>
    match digits? (unsigned s) with
    | some (digits, []) =>
      if c != 'e' && c != 'E' then none
      else some (if s.head? == some '-' then -(number 10 digits : Int) else number 10 digits)
    | _ => none

def float? (token : List Char) : Option Data := do
  let s := unsigned token
  let (whole, rest) ← digits? s
  let (fraction, rest) ← fraction? rest
  let exponent ← exponent? rest
  if s.head? == some '0' && whole.length != 1 || !grouped isDigit token then none
  else if overflows (number 10 (whole ++ fraction)) (exponent - fraction.length) then
    some (.broken (String.ofList token))
  else some (.other (String.ofList token))

end Toml

end SinkCheck
