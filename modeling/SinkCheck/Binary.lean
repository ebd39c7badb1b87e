/-!
# Binary floating-point words

Floats are kept as their bits. Equality is the numeric one: not-a-number differs from every value,
itself included, and the two zeros are equal. `Magnitude` is the exact value of a finite word.
-/

namespace SinkCheck

structure Binary32 where
  bits : UInt32
deriving DecidableEq

structure Binary64 where
  bits : UInt64
deriving DecidableEq

/-- Widths of the exponent and fraction fields; a sign bit stands above them. -/
structure FloatFormat where
  exponentBits : Nat
  fractionBits : Nat

namespace FloatFormat

def single : FloatFormat := ⟨8, 23⟩

def double : FloatFormat := ⟨11, 52⟩

def bias (f : FloatFormat) : Nat :=
  Nat.pow 2 (f.exponentBits - 1) - 1

end FloatFormat

/-- The finite value `significand · 2 ^ exponent`. -/
structure Magnitude where
  significand : Nat
  exponent : Int
deriving DecidableEq

inductive FloatClass where
  | nan
  | infinite
  | finite (magnitude : Magnitude)
deriving DecidableEq

namespace FloatFormat

def negative (f : FloatFormat) (bits : Nat) : Bool :=
  bits / Nat.pow 2 (f.exponentBits + f.fractionBits) % 2 == 1

def classify (f : FloatFormat) (bits : Nat) : FloatClass :=
  let exponent := bits / Nat.pow 2 f.fractionBits % Nat.pow 2 f.exponentBits
  let fraction := bits % Nat.pow 2 f.fractionBits
  if exponent = Nat.pow 2 f.exponentBits - 1 then if fraction = 0 then .infinite else .nan
  else if exponent = 0 then .finite ⟨fraction, 1 - (f.bias + f.fractionBits : Nat)⟩
  else .finite ⟨Nat.pow 2 f.fractionBits + fraction, (exponent : Int) - (f.bias + f.fractionBits : Nat)⟩

/-- The bits of a value that the format holds exactly. -/
def encode (f : FloatFormat) (negative : Bool) (c : FloatClass) : Nat :=
  let sign := if negative then Nat.pow 2 (f.exponentBits + f.fractionBits) else 0
  let top := (Nat.pow 2 f.exponentBits - 1) * Nat.pow 2 f.fractionBits
  match c with
  | .infinite => sign + top
  | .nan => sign + top + Nat.pow 2 (f.fractionBits - 1)
  | .finite ⟨0, _⟩ => sign
  | .finite ⟨m, e⟩ =>
    let shift := f.fractionBits - m.log2
    let field := e - shift + (f.bias + f.fractionBits : Nat)
    sign + field.toNat * Nat.pow 2 f.fractionBits + (m * Nat.pow 2 shift - Nat.pow 2 f.fractionBits)

end FloatFormat

namespace Binary32

def isNaN (x : Binary32) : Bool :=
  x.bits &&& 0x7fffffff > 0x7f800000

def same (x y : Binary32) : Bool :=
  !x.isNaN && !y.isNaN && (x == y || (x.bits ||| y.bits) &&& 0x7fffffff == 0)

def widen (x : Binary32) : Binary64 :=
  let n := x.bits.toNat
  ⟨.ofNat (FloatFormat.double.encode (FloatFormat.single.negative n) (FloatFormat.single.classify n))⟩

end Binary32

namespace Binary64

def isNaN (x : Binary64) : Bool :=
  x.bits &&& 0x7fffffffffffffff > 0x7ff0000000000000

def same (x y : Binary64) : Bool :=
  !x.isNaN && !y.isNaN && (x == y || (x.bits ||| y.bits) &&& 0x7fffffffffffffff == 0)

end Binary64

end SinkCheck
