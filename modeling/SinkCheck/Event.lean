import SinkCheck.Instruction.Text
import SinkCheck.Error
import SinkCheck.Level

/-!
# Events

What a scan narrates. Warnings are always told; the other events belong to a verbosity level.
-/

namespace SinkCheck

inductive Event where
  | skippedClass (owner : String)
  | analyzing (owner method descriptor : String)
  | suppressed (position : Nat) (sink : String)
  | reported (position : Nat) (sink : String) (priority : Priority)
  | visited (position : Nat) (instruction : Instruction)
  | unreachable (position : Nat)
  | replayed (position : Nat) (instruction : Instruction) (depth : Nat) (topTainted : Bool)
  | failed (owner method descriptor : String) (error : AnalysisError)
  /-- The replay ended before its target. -/
  | missed (target : Option Nat)
  /-- The replay lost track of the stack. -/
  | lost (target : Option Nat) (error : AnalysisError)
  /-- A position was asked for that lies below the stack. -/
  | tooDeep (target : Option Nat) (depth : Nat)
deriving DecidableEq

inductive Severity where
  | debug | warn
deriving DecidableEq

def Severity.name : Severity → String
  | .debug => "DEBUG"
  | .warn => "WARN"

inductive Detail where
  | text (s : String)
  | nat (n : Nat)
  | bool (b : Bool)
deriving DecidableEq

namespace Event

def severity : Event → Severity
  | .failed .. | .missed .. | .lost .. | .tooDeep .. => .warn
  | _ => .debug

/-- The least verbosity at which the event is told. -/
def level : Event → Verbosity
  | .failed .. | .missed .. | .lost .. | .tooDeep .. => .quiet
  | .skippedClass .. | .analyzing .. | .suppressed .. | .reported .. => .methods
  | .visited .. | .unreachable .. | .replayed .. => .instructions

def message : Event → String
  | .skippedClass .. => "no candidate sink matcher, skipping class"
  | .analyzing .. => "analyzing method"
  | .suppressed .. => "constant argument, suppressed"
  | .reported .. => "reporting sink call"
  | .visited .. => "visit"
  | .unreachable .. => "unreachable call site, skipping"
  | .replayed .. => "replayed"
  | .failed .. => "method analysis failed, skipping method"
  | .missed .. => "replay never reached the target location; assuming tainted"
  | .lost .. => "replay lost stack synchronization; assuming tainted"
  | .tooDeep .. => "requested position lies below the simulated stack; assuming tainted"

def details : Event → List (String × Detail)
  | .skippedClass owner => [("class", .text owner)]
  | .analyzing owner method descriptor =>
    [("class", .text owner), ("method", .text method), ("descriptor", .text descriptor)]
  | .suppressed position sink => [("position", .nat position), ("sink", .text sink)]
  | .reported position sink priority =>
    [("position", .nat position), ("sink", .text sink), ("priority", .text priority.name)]
  | .visited position i => [("position", .nat position), ("instruction", .text i.text)]
  | .unreachable position => [("position", .nat position)]
  | .replayed position i depth topTainted =>
    [("position", .nat position), ("instruction", .text i.text), ("depth", .nat depth),
      ("top_tainted", .bool topTainted)]
  | .failed owner method descriptor error =>
    [("class", .text owner), ("method", .text method), ("descriptor", .text descriptor),
      ("error", .text error.message)]
  | .missed target => aim target
  | .lost target error => aim target ++ [("error", .text error.message)]
  | .tooDeep target depth => aim target ++ [("depth", .nat depth)]
where
  /-- A target outside the code has no position to show. -/
  aim (target : Option Nat) : List (String × Detail) :=
    target.toList.map fun p => ("target", .nat p)

end Event

end SinkCheck
