import SinkCheck.Code
import SinkCheck.Error
import SinkCheck.Instruction.Text

/-!
# Assembling code

A script emits instructions and names positions by labels that may be bound later. Lengths are
taken before targets are filled in, which is sound because a target never changes a length.
-/

namespace SinkCheck

abbrev Label := Nat

inductive Step where
  | emit (i : Instruction)
  | labels (count : Nat)
  | bind (l : Label)
  /-- Emits an instruction whose branch targets are the labels in order, a default first. -/
  | branch (i : Instruction) (targets : List Label)
  | line (number : Nat)
  | handler (start stop entry : Label) (catchType : Option String)
  | maxLocals (count : Nat)

structure Emitted where
  instruction : Instruction
  targets : Option (List Label)

structure Assembler where
  emitted : Array Emitted := #[]
  /-- The instruction each label is bound to. -/
  labels : Array (Option Nat) := #[]
  handlers : Array (Label × Label × Label × Option String) := #[]
  lines : Array (Nat × Nat) := #[]
  maxLocals : Nat := 0

namespace Assembler

def step (a : Assembler) : Step → Assembler
  | .emit i => { a with emitted := a.emitted.push ⟨i, none⟩ }
  | .labels count => { a with labels := a.labels ++ Array.replicate count none }
  | .bind l => { a with labels := a.labels.setIfInBounds l (some a.emitted.size) }
  | .branch i targets => { a with emitted := a.emitted.push ⟨i, some targets⟩ }
  | .line number => { a with lines := a.lines.push (a.emitted.size, number) }
  | .handler start stop entry catchType =>
    { a with handlers := a.handlers.push (start, stop, entry, catchType) }
  | .maxLocals count => { a with maxLocals := count }

def run (script : List Step) : Assembler :=
  script.foldl step {}

/-- Positions of the instructions laid out from `p`, and the position after the last. -/
def layout (p : Nat) : List Instruction → List Nat
  | [] => [p]
  | i :: is => p :: layout (p + i.encodedLength p) is

def positions (a : Assembler) : List Nat :=
  layout 0 (a.emitted.toList.map Emitted.instruction)

/-- The position of a label, which is the code length if it is bound after the last instruction. -/
def resolve (a : Assembler) (ps : List Nat) (l : Label) : Except AnalysisError Nat :=
  match a.labels[l]?.join.bind (ps[·]?) with
  | some p => .ok p
  | none => .error (.other s!"label {l} was never bound")

def retarget (i : Instruction) (targets : List Nat) : Except AnalysisError Instruction :=
  match i, targets with
  | .ifZero c _, t :: _ => .ok (.ifZero c t)
  | .ifCompare kind c _, t :: _ => .ok (.ifCompare kind c t)
  | .ifNull _, t :: _ => .ok (.ifNull t)
  | .ifNonNull _, t :: _ => .ok (.ifNonNull t)
  | .goto _, t :: _ => .ok (.goto t)
  | .jsr _, t :: _ => .ok (.jsr t)
  | .tableSwitch _ low old, t :: ts =>
    if old.length = ts.length then .ok (.tableSwitch t low ts) else refuse
  | .lookupSwitch _ pairs, t :: ts =>
    if pairs.length = ts.length then .ok (.lookupSwitch t ((pairs.map Prod.fst).zip ts)) else refuse
  | _, _ => refuse
where
  refuse : Except AnalysisError Instruction :=
    .error (.other s!"cannot attach {targets.length} branch target(s) to {i.text}")

def patch (a : Assembler) (ps : List Nat) (e : Emitted) : Except AnalysisError Instruction :=
  match e.targets with
  | none => .ok e.instruction
  | some labels => labels.mapM (a.resolve ps) >>= retarget e.instruction

def placeHandler (a : Assembler) (ps : List Nat) :
    Label × Label × Label × Option String → Except AnalysisError Handler
  | (start, stop, entry, catchType) => do
    return ⟨← a.resolve ps start, ← a.resolve ps stop, ← a.resolve ps entry, catchType⟩

def build (a : Assembler) : Except AnalysisError Code := do
  let ps := a.positions
  let instructions ← a.emitted.toList.mapM (a.patch ps)
  let handlers ← a.handlers.toList.mapM (a.placeHandler ps)
  let lines := a.lines.toList.filterMap fun (i, number) => ps[i]?.map (⟨·, number⟩)
  return { maxLocals := a.maxLocals, body := (ps.zipWith Placed.mk instructions).toArray, handlers, lines }

end Assembler

def assemble (script : List Step) : Except AnalysisError Code :=
  (Assembler.run script).build

end SinkCheck
