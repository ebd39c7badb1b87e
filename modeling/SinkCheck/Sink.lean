import SinkCheck.Descriptor
import SinkCheck.Graph
import SinkCheck.Pool

/-!
# Sinks

A matcher looks at a call and names the stack words that must not carry untrusted data. The matcher of
a rule table knows sinks by owner class, method name and declared parameters.
-/

namespace SinkCheck

structure InjectionPoint where
  bugType : String
  /-- Stack words of the watched arguments at the call, counted from the top. -/
  arguments : List Nat
  label : Option String := none
deriving DecidableEq

structure CallSite where
  kind : InvokeKind
  method : Member
  location : Location
  position : Nat
deriving DecidableEq

structure Matcher where
  name : String
  /-- Whether a class with this pool can hold a sink at all. -/
  isCandidate : Pool → Bool
  classify : CallSite → Pool → Except AnalysisError (Option InjectionPoint)

def firstMatch (call : CallSite) (pool : Pool) : List Matcher → Except AnalysisError (Option InjectionPoint)
  | [] => .ok none
  | m :: ms =>
    match m.classify call pool with
    | .ok none => firstMatch call pool ms
    | found => found

structure SinkRule where
  bugType : String
  owner : String
  methods : List String
  /-- Indexes of the declared parameters that are watched. -/
  parameters : List Nat
deriving DecidableEq

namespace SinkRule

def covers (rule : SinkRule) (m : Member) : Bool :=
  rule.owner == m.owner && rule.methods.contains m.name

/-- The point that a rule sees in a call. An overload with none of the declared parameters is no sink. -/
def point? (rule : SinkRule) (d : MethodDescriptor) (m : Member) : Except AnalysisError (Option InjectionPoint) :=
  if rule.parameters.isEmpty then
    .error (.matcher s!"rule for {m.owner}.{m.name} lists no parameters")
  else
    match rule.parameters.filterMap d.stackOffset with
    | [] => .ok none
    | ps => .ok (some ⟨rule.bugType, ps, some m.qualified⟩)

def firstPoint (d : MethodDescriptor) (m : Member) : List SinkRule → Except AnalysisError (Option InjectionPoint)
  | [] => .ok none
  | rule :: rules =>
    match rule.point? d m with
    | .ok none => firstPoint d m rules
    | found => found

def sqlInjection : String := "SQL_INJECTION"

def database : List SinkRule :=
  [⟨sqlInjection, "java/sql/Statement",
      ["executeQuery", "execute", "executeUpdate", "executeLargeUpdate", "addBatch"], [0]⟩,
    ⟨sqlInjection, "java/sql/Connection", ["prepareStatement", "prepareCall", "nativeSQL"], [0]⟩]

end SinkRule

/-- A table of rules; the first rule that applies to a call wins. -/
structure RuleMatcher where
  name : String
  rules : List SinkRule
deriving DecidableEq

namespace RuleMatcher

def jdbc : RuleMatcher := ⟨"jdbc", SinkRule.database⟩

def withoutBugTypes (m : RuleMatcher) (types : List String) : RuleMatcher :=
  { m with rules := m.rules.filter fun rule => !types.contains rule.bugType }

def isCandidate (m : RuleMatcher) (pool : Pool) : Bool :=
  m.rules.any fun rule => pool.mentions rule.owner

/-- The descriptor is read only for a call that some rule covers. -/
def classify (m : RuleMatcher) (call : Member) : Except AnalysisError (Option InjectionPoint) :=
  match m.rules.filter (·.covers call) with
  | [] => .ok none
  | rules =>
    match MethodDescriptor.parse call.descriptor with
    | .error e => .error e
    | .ok d => SinkRule.firstPoint d call rules

def toMatcher (m : RuleMatcher) : Matcher where
  name := m.name
  isCandidate := m.isCandidate
  classify call _ := m.classify call.method

end RuleMatcher

end SinkCheck
