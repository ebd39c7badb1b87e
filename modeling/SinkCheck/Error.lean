/-!
# Analysis errors

Every failure is scoped to one method: the detector notes it and goes on with the next.
-/

namespace SinkCheck

inductive AnalysisError where
  | pool (index : UInt16) (expected : String)
  | descriptor (text : String)
  | graph (detail : String)
  | dataflow (detail : String)
  /-- The instruction at `position` pops more words than the stack holds. -/
  | underflow (position : Nat)
  | matcher (detail : String)
  | other (text : String)
deriving DecidableEq

def AnalysisError.message : AnalysisError → String
  | .pool index expected => s!"constant pool entry #{index} is not a {expected}"
  | .descriptor text => s!"malformed descriptor `{text}`"
  | .graph detail => s!"control flow graph construction failed: {detail}"
  | .dataflow detail => s!"dataflow analysis failed: {detail}"
  | .underflow position => s!"operand stack underflow at position {position}"
  | .matcher detail => s!"sink matcher failure: {detail}"
  | .other text => text

/-- The error with its cause forgotten: only the wording is left. -/
def AnalysisError.untyped (e : AnalysisError) : AnalysisError :=
  .other e.message

end SinkCheck
