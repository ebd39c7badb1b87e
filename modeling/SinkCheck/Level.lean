/-!
# Levels

The priority of a finding and how much a scan narrates.
-/

namespace SinkCheck

/-- `high` if a watched argument was traced to an untrusted source, `low` if it is merely not constant. -/
inductive Priority where
  | high | low
deriving DecidableEq

namespace Priority

def ofTaint (tainted : Bool) : Priority :=
  if tainted then .high else .low

def name : Priority → String
  | .high => "high"
  | .low => "low"

/-- `high` comes first. -/
def rank : Priority → Nat
  | .high => 0
  | .low => 1

def all : List Priority := [.high, .low]

end Priority

/-- Each level adds to the one before: failures only, then methods and matched calls, then every
instruction. -/
inductive Verbosity where
  | quiet | methods | instructions
deriving DecidableEq

namespace Verbosity

instance : Inhabited Verbosity := ⟨.quiet⟩

def name : Verbosity → String
  | .quiet => "quiet"
  | .methods => "methods"
  | .instructions => "instructions"

def rank : Verbosity → Nat
  | .quiet => 0
  | .methods => 1
  | .instructions => 2

/-- Whether a narrator of level `v` tells what belongs to level `w`. -/
def covers (v w : Verbosity) : Bool :=
  w.rank ≤ v.rank

def all : List Verbosity := [.quiet, .methods, .instructions]

end Verbosity

end SinkCheck
