import SinkCheck.Disk
import SinkCheck.Record
import SinkCheck.Toml.Parse

/-!
# Configuration

A TOML file in the start directory or the nearest one above it sets up the detector. Everything in it may
be left out; given sinks and source methods replace the standard ones.
-/

namespace SinkCheck

structure Config where
  settings : Settings := {}
  /-- Types whose rules are dropped. -/
  disabled : List String := []
  sinks : List SinkRule := []
  sources : UntrustedSources := {}
deriving DecidableEq

inductive ConfigError where
  | unreadable (path : String)
  | malformed (path : String)
  | noMethods (owner : String)
  | noParameters (owner : String)
deriving DecidableEq

def ConfigError.message : ConfigError → String
  | .unreadable path => s!"failed to read config file: {path}"
  | .malformed path => s!"failed to parse config file: {path}"
  | .noMethods owner => s!"sink rule for `{owner}` lists no methods"
  | .noParameters owner => s!"sink rule for `{owner}` lists no parameters"

namespace Config

def fileName : String := "injection-lint.toml"

/-! ## Reading -/

def texts? : Data → Option (List String) :=
  Data.listOf? Data.text?

def scan? (d : Data) : Option (Settings × List String) := do
  let f ← Fields.ofData? .toml ["verbosity", "taint_parameters", "safe_value_heuristic", "disabled"] d
  let settings : Settings := {
    verbosity := ← f.defaulted "verbosity" .quiet (Verbosity.ofData? .toml)
    taintParameters := ← f.defaulted "taint_parameters" false Data.bool?
    safeValueHeuristic := ← f.defaulted "safe_value_heuristic" false Data.bool? }
  return (settings, ← f.defaulted "disabled" [] texts?)

def sources? (d : Data) : Option UntrustedSources := do
  let f ← Fields.ofData? .toml ["methods", "fields", "sanitizers"] d
  return {
    methods := ← f.defaulted "methods" [] texts?
    fields := ← f.defaulted "fields" [] texts?
    sanitizers := ← f.defaulted "sanitizers" [] texts? }

def ofData? (d : Data) : Option Config := do
  let f ← Fields.ofData? .toml ["scan", "sinks", "sources"] d
  let (settings, disabled) ← f.defaulted "scan" ({}, []) scan?
  return {
    settings, disabled
    sinks := ← f.defaulted "sinks" [] (Data.listOf? (SinkRule.ofData? .toml))
    sources := ← f.defaulted "sources" {} sources? }

def parse (text : String) : Option Config :=
  Toml.parse text >>= ofData?

/-! ## Use -/

section
variable (c : Config)

def policy : UntrustedSources :=
  let base := if c.sources.methods.isEmpty then UntrustedSources.webDefaults else { methods := c.sources.methods }
  { base with
    fields := base.fields ++ c.sources.fields
    sanitizers := base.sanitizers ++ c.sources.sanitizers }

def checkRule (rule : SinkRule) : Except ConfigError Unit :=
  if rule.methods.isEmpty then .error (.noMethods rule.owner)
  else if rule.parameters.isEmpty then .error (.noParameters rule.owner)
  else .ok ()

/-- The given rules, each of which must name methods and parameters, or the standard ones. -/
def matcher : Except ConfigError RuleMatcher :=
  if c.sinks.isEmpty then .ok (RuleMatcher.jdbc.withoutBugTypes c.disabled)
  else
    match c.sinks.forM checkRule with
    | .ok () => .ok ((RuleMatcher.mk "configured" c.sinks).withoutBugTypes c.disabled)
    | .error e => .error e

def detector : Except ConfigError Detector :=
  c.matcher.map fun m => ⟨[m.toMatcher], c.policy.policy, c.settings⟩

end

/-! ## Finding the file -/

/-- The file in the directory or the nearest one above that has it. -/
def find? (disk : Disk) (start : Path) : Option Path :=
  (start.ancestors.map (·.child fileName)).find? disk.isFile

def loadFile (disk : Disk) (p : Path) : Except ConfigError Config :=
  match disk.read? p with
  | none => .error (.unreadable p.toString)
  | some text =>
    match parse text with
    | none => .error (.malformed p.toString)
    | some c => .ok c

/-- The configuration with its path: of the explicit file if one is given, else of the file found. -/
def load (disk : Disk) (explicit : Option Path) (start : Path) : Except ConfigError (Option (Path × Config)) :=
  match explicit.or (find? disk start) with
  | none => .ok none
  | some p => (loadFile disk p).map fun c => some (p, c)

end Config

end SinkCheck
