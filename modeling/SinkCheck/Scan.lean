import SinkCheck.Class
import SinkCheck.Finding
import SinkCheck.Flow
import SinkCheck.SafeValue
import SinkCheck.Sink
import SinkCheck.Taint.Replay

/-!
# Scanning classes

A class is worth a scan if some matcher finds it a candidate. Each method body is then analysed on its
own: the calls are offered to the matchers in scan order, calls with constant arguments are dropped, and
the rest is reported with the priority that the taint replay gives. A method that fails keeps the
findings recorded before the failure.
-/

namespace SinkCheck

structure Settings where
  verbosity : Verbosity := .quiet
  /-- Parameters count as untrusted on entry. -/
  taintParameters : Bool := false
  /-- An argument on top of the stack with a safe producer counts as constant. -/
  safeValueHeuristic : Bool := false
deriving DecidableEq

structure Detector where
  /-- In order of precedence. -/
  matchers : List Matcher
  policy : Policy
  settings : Settings := {}

structure MethodFailure where
  method : String
  descriptor : String
  error : String
deriving DecidableEq

structure ClassReport where
  owner : String
  skipped : Bool := false
  methodsAnalyzed : Nat := 0
  failures : List MethodFailure := []
  findings : Nat := 0
deriving DecidableEq

inductive Output where
  | event (e : Event)
  | finding (f : Finding)
deriving DecidableEq

namespace Output

def event? : Output → Option Event
  | .event e => some e
  | .finding _ => none

def finding? : Output → Option Finding
  | .finding f => some f
  | .event _ => none

end Output

/-- What a visit does at once: pass the class over, begin a method, put something out, or note that the method
failed. -/
inductive Action where
  | skip
  | start
  | put (o : Output)
  | fail (f : MethodFailure)
deriving DecidableEq

def Action.output? : Action → Option Output
  | .put o => some o
  | _ => none

def ClassReport.after (r : ClassReport) : Action → ClassReport
  | .skip => { r with skipped := true }
  | .start => { r with methodsAnalyzed := r.methodsAnalyzed + 1 }
  | .put (.event _) => r
  | .put (.finding _) => { r with findings := r.findings + 1 }
  | .fail f => { r with failures := r.failures ++ [f] }

def Verbosity.tell (v : Verbosity) (e : Event) : Trace Output Unit :=
  if v.covers e.level then .emit (.event e) else pure ()

/-! ## One method -/

structure Analysis where
  owner : String
  pool : Pool
  method : Method
  code : Code
  graph : Graph
  flow : Flow
  locals : List Cell

namespace Analysis

section
variable (a : Analysis) (s : Settings) (policy : Policy) (matchers : List Matcher)

def replay : Replay :=
  ⟨a.code, a.graph, a.pool, policy, a.locals, s.verbosity⟩

/-- Whether every watched word of a call is constant, or safe where the settings allow it. -/
def allConstant (l : Location) : List Nat → Except AnalysisError Bool
  | [] => .ok true
  | d :: ds =>
    if a.flow.isConstantString l.index d then allConstant l ds
    else if s.safeValueHeuristic && d == 0 then
      match isSafeTop a.code a.graph a.pool l with
      | .ok true => allConstant l ds
      | refused => refused
    else .ok false

def report (l : Location) (position : Nat) (called : Member) (point : InjectionPoint) : Trace Output Unit := do
  let (events, verdict) := (a.replay s policy).taintedPositions l.index point.arguments
  .emitAll (events.map .event)
  let priority := Priority.ofTaint verdict.anyTainted
  s.verbosity.tell (.reported position called.qualified priority)
  .emit (.finding (.new point.bugType priority a.owner a.method.name a.method.descriptor position
    (a.code.lineFor position) point.label))

def inspectCall (l : Location) (position : Nat) (kind : InvokeKind) (index : UInt16) : Trace Output Unit := do
  let called ← .ofExcept (a.pool.method index)
  match ← .ofExcept (firstMatch ⟨kind, called, l, position⟩ a.pool matchers) with
  | none => return ()
  | some point =>
    if ← .ofExcept (a.allConstant s l point.arguments) then
      s.verbosity.tell (.suppressed position called.qualified)
    else a.report s policy l position called point

def inspect (l : Location) : Trace Output Unit :=
  match a.code.body[l.index]? with
  | none => pure ()
  | some h => do
    s.verbosity.tell (.visited h.position h.instruction)
    match h.instruction with
    | .invoke kind index =>
      if (a.flow.frameAt l.index).isNone then s.verbosity.tell (.unreachable h.position)
      else a.inspectCall s policy matchers l h.position kind index
    | _ => return ()

def inspectAll : List Location → Trace Output Unit
  | [] => pure ()
  | l :: ls => do
    a.inspect s policy matchers l
    inspectAll ls

end

end Analysis

namespace Detector

section
variable (d : Detector) (c : ClassUnit)

/-- Graph, constants and descriptor of a method body, which must all be had before it is scanned. -/
def prepare (m : Method) (code : Code) : Except AnalysisError Analysis := do
  let graph ← Graph.build code
  let flow ← Flow.analyze code graph c.pool
  let descriptor ← MethodDescriptor.parse m.descriptor
  let locals := Replay.entryLocals m.isStatic descriptor d.settings.taintParameters
  return ⟨c.name, c.pool, m, code, graph, flow, locals⟩

def analyze (candidates : List Matcher) (m : Method) (code : Code) : Trace Output Unit := do
  let a ← .ofExcept (d.prepare c m code)
  a.inspectAll d.settings d.policy candidates a.graph.orderedLocations

/-! ## One class -/

def candidates : List Matcher :=
  d.matchers.filter (·.isCandidate c.pool)

/-- The methods with a body, each with the trace of its analysis. -/
def runs : List (Method × Trace Output Unit) :=
  c.methods.filterMap fun m => m.code.map fun code => (m, d.analyze c (d.candidates c) m code)

/-- What a method puts out, framed by the news that it is analysed and that it failed. -/
def narrate (m : Method) (t : Trace Output Unit) : List Output :=
  let v := d.settings.verbosity
  (v.tell (.analyzing c.name m.name m.descriptor)).output ++ t.output ++
    match t.outcome with
    | .ok () => []
    | .error e => (v.tell (.failed c.name m.name m.descriptor e)).output

def failure? (m : Method) (t : Trace Output Unit) : Option MethodFailure :=
  match t.outcome with
  | .ok () => none
  | .error e => some ⟨m.name, m.descriptor, e.message⟩

def methodActions (m : Method) (t : Trace Output Unit) : List Action :=
  .start :: ((d.narrate c m t).map .put ++ (failure? m t).toList.map .fail)

def actions : List Action :=
  if (d.candidates c).isEmpty then
    (d.settings.verbosity.tell (.skippedClass c.name)).output.map .put ++ [.skip]
  else (d.runs c).flatMap fun (m, t) => d.methodActions c m t

end

end Detector

structure Visit where
  output : List Output
  report : ClassReport

namespace Visit

/-- What comes of the actions on a class. The report counts them as they are done. -/
def ofActions (owner : String) (as : List Action) : Visit :=
  ⟨as.filterMap Action.output?, as.foldl ClassReport.after { owner }⟩

def events (v : Visit) : List Event :=
  v.output.filterMap Output.event?

def findings (v : Visit) : List Finding :=
  v.output.filterMap Output.finding?

end Visit

/-- Findings and reports in the order of the classes. -/
structure Outcome where
  findings : List Finding
  reports : List ClassReport
deriving DecidableEq

namespace Detector

section
variable (d : Detector)

def visit (c : ClassUnit) : Visit :=
  .ofActions c.name (d.actions c)

/-! ## Many classes -/

def scan (cs : List ClassUnit) : Outcome :=
  let visits := cs.map d.visit
  ⟨visits.flatMap Visit.findings, visits.map Visit.report⟩

def events (cs : List ClassUnit) : List Event :=
  cs.flatMap fun c => (d.visit c).events

/-- Records the findings of the classes into a collector as they arrive, one class after the other. -/
def scanInto (cs : List ClassUnit) (shared : Collector) : Collector × List ClassReport :=
  let visits := cs.map d.visit
  ((visits.flatMap Visit.findings).foldl Collector.record shared, visits.map Visit.report)

def standard : Detector :=
  { matchers := [RuleMatcher.jdbc.toMatcher], policy := UntrustedSources.webDefaults.policy }

end

end Detector

end SinkCheck
