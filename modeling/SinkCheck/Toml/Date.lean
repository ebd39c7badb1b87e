import SinkCheck.Data
import SinkCheck.Toml.Chars

/-!
# TOML dates

Days, times of day, and both with or without an offset. A date is a table with one unnamed member, so a
record can be read from it that has no required field.
-/

namespace SinkCheck

namespace Toml

def twoDigits? (low high : Nat) (a b : Char) : Option Nat :=
  let n := number 10 [a, b]
  if isDigit a ∧ isDigit b ∧ low ≤ n ∧ n ≤ high then some n else none

def daysIn (year month : Nat) : Nat :=
  if month = 2 then if year % 4 = 0 ∧ (year % 100 ≠ 0 ∨ year % 400 = 0) then 29 else 28
  else if month = 4 ∨ month = 6 ∨ month = 9 ∨ month = 11 then 30
  else 31

def date? : List Char → Option (List Char)
  | a :: b :: c :: d :: '-' :: m :: n :: '-' :: x :: y :: rest =>
    let year := number 10 [a, b, c, d]
    match twoDigits? 1 12 m n with
    | some month =>
      if [a, b, c, d].all isDigit ∧ (twoDigits? 1 (daysIn year month) x y).isSome then some rest else none
    | none => none
  | _ => none

def seconds? : List Char → Option (List Char)
  | ':' :: a :: b :: rest =>
    if (twoDigits? 0 60 a b).isNone then none
    else
      match rest with
      | '.' :: t => if (t.takeWhile isDigit).isEmpty then none else some (t.dropWhile isDigit)
      | rest => some rest
  | rest => some rest

/-- Reads a time of day off the front. Seconds may be missing; a leap second is possible. -/
def time? : List Char → Option (List Char)
  | a :: b :: ':' :: c :: d :: rest =>
    if (twoDigits? 0 23 a b).isSome ∧ (twoDigits? 0 59 c d).isSome then seconds? rest else none
  | _ => none

def isOffset : List Char → Bool
  | [] | ['Z'] | ['z'] => true
  | [sign, a, b, ':', c, d] =>
    (sign == '+' || sign == '-') && (twoDigits? 0 23 a b).isSome && (twoDigits? 0 59 c d).isSome
  | _ => false

def isDate (token : List Char) : Bool :=
  match date? token with
  | some [] => true
  | some (c :: t) => (c == 'T' || c == 't' || c == ' ') && (time? t).any isOffset
  | none => time? token == some []

def ofDate (token : List Char) : Data :=
  .table [("", .text (String.ofList token))]

end Toml

end SinkCheck
