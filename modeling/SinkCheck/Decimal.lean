import SinkCheck.Binary

/-!
# Decimal text of floats

The fewest digits that read back as the same word, the nearest such decimal, found by exact
arithmetic: one grid of decimals after another until a point of the grid lies in the interval of
reals that round to the word.
-/

namespace SinkCheck

structure Ratio where
  num : Nat
  den : Nat

namespace Ratio

/-- `n · base ^ e`. -/
def scaled (n base : Nat) (e : Int) : Ratio :=
  if e < 0 then ⟨n, Nat.pow base (-e).toNat⟩ else ⟨n * Nat.pow base e.toNat, 1⟩

def le (a b : Ratio) : Bool :=
  a.num * b.den ≤ b.num * a.den

def lt (a b : Ratio) : Bool :=
  a.num * b.den < b.num * a.den

def quotient (a b : Ratio) : Nat :=
  a.num * b.den / (a.den * b.num)

end Ratio

/-- The reals that round to a word, with the word's own value. The ends belong to it iff `closed`. -/
structure Rounding where
  low : Ratio
  value : Ratio
  high : Ratio
  closed : Bool

namespace Rounding

/-- The gap below a power of two is half the gap above it, the least exponent apart. -/
def of (f : FloatFormat) (x : Magnitude) : Rounding :=
  let m := x.significand
  let least := 1 - (f.bias + f.fractionBits : Nat)
  let low :=
    if m = Nat.pow 2 f.fractionBits ∧ x.exponent > least then Ratio.scaled (4 * m - 1) 2 (x.exponent - 2)
    else Ratio.scaled (2 * m - 1) 2 (x.exponent - 1)
  ⟨low, Ratio.scaled m 2 x.exponent, Ratio.scaled (2 * m + 1) 2 (x.exponent - 1), m % 2 == 0⟩

def contains (r : Rounding) (x : Ratio) : Bool :=
  if r.closed then r.low.le x && x.le r.high else r.low.lt x && x.lt r.high

/-- The exponent `k` with `10 ^ k ≤ value < 10 ^ (k + 1)`, searched upwards from `k`. -/
def decade (r : Rounding) : Nat → Int → Int
  | 0, k => k
  | fuel + 1, k => if (Ratio.scaled 1 10 (k + 1)).le r.value then decade r fuel (k + 1) else k

/-- The multiple of `10 ^ k` in the interval that is nearest to the value; of two as near, the larger. -/
def onGrid? (r : Rounding) (k : Int) : Option Nat :=
  let unit := Ratio.scaled 1 10 k
  let t := r.value.quotient unit
  let below := r.contains (Ratio.scaled t 10 k)
  let above := r.contains (Ratio.scaled (t + 1) 10 k)
  let half := Ratio.scaled (10 * t + 5) 10 (k - 1)
  if below && (!above || r.value.lt half) then some t
  else if above then some (t + 1)
  else none

/-- The first grid with a hit, from `k` downwards. -/
def shortest (r : Rounding) : Nat → Int → Nat × Int
  | 0, k => (r.value.quotient (Ratio.scaled 1 10 k), k)
  | fuel + 1, k =>
    match r.onGrid? k with
    | some t => (t, k)
    | none => shortest r fuel (k - 1)

end Rounding

/-- Which decimal exponents are written out in full, and how a bare integer ends. -/
structure DecimalStyle where
  fullFrom : Int
  fullBelow : Int
  integerTail : String

namespace DecimalStyle

/-- Positional from `10 ^ -4` up to `10 ^ 16`, with at least one place. -/
def debug : DecimalStyle := ⟨-4, 16, ".0"⟩

/-- `digits · 10 ^ k` in positional notation. -/
def positional (s : DecimalStyle) (digits : List Char) (k : Int) : String :=
  if 0 ≤ k then String.ofList (digits ++ List.replicate k.toNat '0') ++ s.integerTail
  else
    let places := (-k).toNat
    let padded := List.replicate (places + 1 - digits.length) '0' ++ digits
    let whole := padded.length - places
    String.ofList (padded.take whole) ++ "." ++ String.ofList (padded.drop whole)

def exponential (digits : List Char) (e : Int) : String :=
  let mantissa :=
    match digits with
    | d :: r :: rest => String.ofList [d] ++ "." ++ String.ofList (r :: rest)
    | ds => String.ofList ds
  mantissa ++ "e" ++ toString e

def write (s : DecimalStyle) (n : Nat) (k : Int) : String :=
  let all := Nat.toDigits 10 n
  let digits := (all.reverse.dropWhile (· == '0')).reverse
  let k := k + (all.length - digits.length : Nat)
  let e := k + digits.length - 1
  if s.fullFrom ≤ e ∧ e < s.fullBelow then s.positional digits k else exponential digits e

end DecimalStyle

namespace FloatFormat

/-- Every finite value of the format lies between `10 ^ -n` and `10 ^ n`. -/
def decimalRange (f : FloatFormat) : Nat :=
  f.bias + f.fractionBits

def text (f : FloatFormat) (bits : Nat) : String :=
  match f.classify bits with
  | .nan => "NaN"
  | .infinite => signed "inf"
  | .finite ⟨0, _⟩ => signed "0.0"
  | .finite x =>
    let r := Rounding.of f x
    let n := f.decimalRange
    let k := r.decade (2 * n) (-n)
    let (t, k) := r.shortest (2 * n) k
    signed (DecimalStyle.debug.write t k)
where
  signed (s : String) : String := if f.negative bits then "-" ++ s else s

end FloatFormat

def Binary32.text (x : Binary32) : String :=
  FloatFormat.single.text x.bits.toNat

def Binary64.text (x : Binary64) : String :=
  FloatFormat.double.text x.bits.toNat

end SinkCheck
