import SinkCheck.Data
import SinkCheck.Scan

/-!
# Records

How the public records are written as data and read back. A record is a table, of which unknown keys are
passed over and known keys must not repeat, or a list of its fields in order. Items left over in a list are
not looked at. A name is a text, or a table with the name as its only key.
-/

namespace SinkCheck

/-- Where the text formats differ on records. -/
structure Dialect where
  /-- What may stand behind a name that is written as a key. -/
  isUnit : Data → Bool
  /-- Whether a record in list form may have items left over. -/
  allowsExtra : Bool

namespace Dialect

def json : Dialect where
  isUnit
    | .null => true
    | _ => false
  allowsExtra := false

def toml : Dialect where
  isUnit
    | .list [] | .table [] => true
    | _ => false
  allowsExtra := true

end Dialect

/-- The fields of a record that are present, and whether they came in list form. -/
structure Fields where
  present : List (String × Data)
  inOrder : Bool

namespace Fields

variable {α : Type}

def ofData? (dialect : Dialect) (names : List String) : Data → Option Fields
  | .table members =>
    let known := members.filter fun m => names.contains m.1
    if (known.map Prod.fst).eraseDups.length ≠ known.length then none
    else if members.all fun m => names.contains m.1 || m.2.intact then some ⟨known, false⟩
    else none
  | .list items =>
    if items.length ≤ names.length || dialect.allowsExtra then some ⟨names.zip items, true⟩ else none
  | _ => none

def get? (f : Fields) (name : String) : Option Data :=
  f.present.lookup name

def required (f : Fields) (name : String) (read : Data → Option α) : Option α :=
  f.get? name >>= read

def defaulted (f : Fields) (name : String) (fallback : α) (read : Data → Option α) : Option α :=
  match f.get? name with
  | some d => read d
  | none => some fallback

/-- A field that may be null, or missing from a table, but not from a list. -/
def optional (f : Fields) (name : String) (read : Data → Option α) : Option (Option α) :=
  match f.get? name with
  | some .null => some none
  | some d => (read d).map some
  | none => if f.inOrder then none else some none

end Fields

/-- One of a list of names. -/
def Data.named? {α : Type} (dialect : Dialect) (all : List α) (name : α → String) (d : Data) : Option α :=
  let written :=
    match d with
    | .text s => some s
    | .table [(key, content)] => if dialect.isUnit content then some key else none
    | _ => none
  written.bind fun s => all.find? (name · == s)

/-- Positions and lines have 32 bits. -/
def Data.position? : Data → Option Nat :=
  Data.natBelow? (Nat.pow 2 32)

/-- Counts and indexes have 64 bits. -/
def Data.count? : Data → Option Nat :=
  Data.natBelow? (Nat.pow 2 64)

def Data.ofNats (ns : List Nat) : Data := .list (ns.map .nat)

def Data.ofTexts (ss : List String) : Data := .list (ss.map .text)

/-! ## The records -/

section
variable (dialect : Dialect)

def Priority.ofData? : Data → Option Priority :=
  Data.named? dialect Priority.all Priority.name

def Verbosity.ofData? : Data → Option Verbosity :=
  Data.named? dialect Verbosity.all Verbosity.name

def SinkRule.ofData? (d : Data) : Option SinkRule := do
  let f ← Fields.ofData? dialect ["bug_type", "class", "methods", "parameters"] d
  return {
    bugType := ← f.required "bug_type" Data.text?
    owner := ← f.required "class" Data.text?
    methods := ← f.required "methods" (Data.listOf? Data.text?)
    parameters := ← f.defaulted "parameters" [0] (Data.listOf? Data.count?) }

def InjectionPoint.ofData? (d : Data) : Option InjectionPoint := do
  let f ← Fields.ofData? dialect ["bug_type", "injectable_arguments", "injectable_method"] d
  return {
    bugType := ← f.required "bug_type" Data.text?
    arguments := ← f.required "injectable_arguments" (Data.listOf? Data.count?)
    label := ← f.optional "injectable_method" Data.text? }

def Settings.ofData? (d : Data) : Option Settings := do
  let f ← Fields.ofData? dialect ["verbosity", "taint_parameters", "safe_value_heuristic"] d
  return {
    verbosity := ← f.required "verbosity" (Verbosity.ofData? dialect)
    taintParameters := ← f.required "taint_parameters" Data.bool?
    safeValueHeuristic := ← f.required "safe_value_heuristic" Data.bool? }

def MethodFailure.ofData? (d : Data) : Option MethodFailure := do
  let f ← Fields.ofData? dialect ["method", "descriptor", "error"] d
  return {
    method := ← f.required "method" Data.text?
    descriptor := ← f.required "descriptor" Data.text?
    error := ← f.required "error" Data.text? }

def ClassReport.ofData? (d : Data) : Option ClassReport := do
  let f ← Fields.ofData? dialect ["class", "skipped", "methods_analyzed", "failures", "findings"] d
  return {
    owner := ← f.required "class" Data.text?
    skipped := ← f.required "skipped" Data.bool?
    methodsAnalyzed := ← f.required "methods_analyzed" Data.count?
    failures := ← f.required "failures" (Data.listOf? (MethodFailure.ofData? dialect))
    findings := ← f.required "findings" Data.count? }

def Finding.ofData? (d : Data) : Option Finding := do
  let f ← Fields.ofData? dialect
    ["id", "bug_type", "priority", "class", "method", "descriptor", "position", "line", "label"] d
  return {
    id := ← f.required "id" Data.text?
    bugType := ← f.required "bug_type" Data.text?
    priority := ← f.required "priority" (Priority.ofData? dialect)
    owner := ← f.required "class" Data.text?
    method := ← f.required "method" Data.text?
    descriptor := ← f.required "descriptor" Data.text?
    position := ← f.required "position" Data.position?
    line := ← f.optional "line" Data.position?
    label := ← f.optional "label" Data.text? }

def Summary.ofData? (d : Data) : Option Summary := do
  let f ← Fields.ofData? dialect ["total", "high", "low"] d
  return {
    total := ← f.required "total" Data.count?
    high := ← f.required "high" Data.count?
    low := ← f.required "low" Data.count? }

end

def Priority.toData (p : Priority) : Data := .text p.name

def Verbosity.toData (v : Verbosity) : Data := .text v.name

def SinkRule.toData (r : SinkRule) : Data := .table [
  ("bug_type", .text r.bugType),
  ("class", .text r.owner),
  ("methods", .ofTexts r.methods),
  ("parameters", .ofNats r.parameters)]

def InjectionPoint.toData (p : InjectionPoint) : Data := .table [
  ("bug_type", .text p.bugType),
  ("injectable_arguments", .ofNats p.arguments),
  ("injectable_method", (p.label.map .text).getD .null)]

def Settings.toData (s : Settings) : Data := .table [
  ("verbosity", s.verbosity.toData),
  ("taint_parameters", .bool s.taintParameters),
  ("safe_value_heuristic", .bool s.safeValueHeuristic)]

def MethodFailure.toData (m : MethodFailure) : Data := .table [
  ("method", .text m.method),
  ("descriptor", .text m.descriptor),
  ("error", .text m.error)]

def ClassReport.toData (r : ClassReport) : Data := .table [
  ("class", .text r.owner),
  ("skipped", .bool r.skipped),
  ("methods_analyzed", .nat r.methodsAnalyzed),
  ("failures", .list (r.failures.map MethodFailure.toData)),
  ("findings", .nat r.findings)]

def Finding.toData (f : Finding) : Data := .ofMembers [
  ("id", some (.text f.id)),
  ("bug_type", some (.text f.bugType)),
  ("priority", some f.priority.toData),
  ("class", some (.text f.owner)),
  ("method", some (.text f.method)),
  ("descriptor", some (.text f.descriptor)),
  ("position", some (.nat f.position)),
  ("line", f.line.map .nat),
  ("label", f.label.map .text)]

def Summary.toData (s : Summary) : Data := .table [
  ("total", .nat s.total),
  ("high", .nat s.high),
  ("low", .nat s.low)]

end SinkCheck
