import SinkCheck.Descriptor
import SinkCheck.Instruction
import SinkCheck.Pool

/-!
# Stack effects

How many words an instruction pops and pushes, and what kind of value it pushes. Constant flow and
taint replay both interpret an effect on frames of their own, so their depths cannot drift apart.
-/

namespace SinkCheck

inductive Literal where
  | null
  | int (value : Int)
  | float (value : Binary64)
  | string (text : String)
  | classRef (name : String)
  /-- A method handle or method type. -/
  | other
deriving DecidableEq

structure Call where
  kind : InvokeKind
  method : Member
  argumentWords : Nat
  resultWords : Nat
deriving DecidableEq

namespace Call

def resolve (pool : Pool) (kind : InvokeKind) (index : UInt16) : Except AnalysisError Call :=
  match pool.method index with
  | .error e => .error e
  | .ok m =>
    match MethodDescriptor.parse m.descriptor with
    | .error e => .error e
    | .ok d => .ok ⟨kind, m, d.argumentWords, d.resultWords⟩

def hasReceiver (c : Call) : Bool :=
  c.kind.hasReceiver

def pops (c : Call) : Nat :=
  c.argumentWords + c.hasReceiver.toNat

end Call

inductive Effect where
  | consume (pops : Nat)
  /-- Pushes a value computed from the popped words. -/
  | derive (pops pushes : Nat)
  /-- Pushes a value that does not depend on the popped words. -/
  | fresh (pops pushes : Nat)
  | constant (literal : Literal) (words : Nat)
  | load (slot words : Nat)
  | store (slot words : Nat)
  /-- Overwrites a local without touching the stack. -/
  | increment (slot : Nat)
  | shuffle (s : Shuffle)
  /-- The top word stays where it is. -/
  | identity
  /-- Pops an array, an index and a value. -/
  | arrayStore (valueWords : Nat)
  | readStatic (field : Member) (words : Nat)
  /-- Pops the object that holds the field. -/
  | readField (field : Member) (words : Nat)
  | invoke (call : Call)
  /-- Pops the exception that leaves the method or enters a handler. -/
  | throw
deriving DecidableEq

def Effect.net : Effect → Nat × Nat
  | .consume pops => (pops, 0)
  | .derive pops pushes | .fresh pops pushes => (pops, pushes)
  | .constant _ words | .load _ words | .readStatic _ words => (0, words)
  | .store _ words => (words, 0)
  | .increment _ => (0, 0)
  | .shuffle s => (s.pattern.1, s.pattern.2.length)
  | .identity => (1, 1)
  | .arrayStore valueWords => (2 + valueWords, 0)
  | .readField _ words => (1, words)
  | .invoke call => (call.pops, call.resultWords)
  | .throw => (1, 0)

namespace Pool

def literal (p : Pool) (index : UInt16) : Except AnalysisError Literal :=
  match p.get? index with
  | some (.string s) => .ok (.string s)
  | some (.integer n) => .ok (.int n)
  | some (.float x) => .ok (.float x.widen)
  | some (.classRef name) => .ok (.classRef name)
  | some (.methodType _) | some (.methodHandle _) => .ok .other
  | _ => .error (.pool index "loadable single-word constant")

def wideLiteral (p : Pool) (index : UInt16) : Except AnalysisError Literal :=
  match p.get? index with
  | some (.long n) => .ok (.int n)
  | some (.double x) => .ok (.float x)
  | _ => .error (.pool index "long or double constant")

def sizedField (p : Pool) (index : UInt16) : Except AnalysisError (Member × Nat) :=
  match p.field index with
  | .error e => .error e
  | .ok m =>
    match FieldType.parse m.descriptor with
    | .error e => .error e
    | .ok t => .ok (m, t.words)

end Pool

def Instruction.effect (pool : Pool) : Instruction → Except AnalysisError Effect
  | .nop | .goto _ | .jsr _ | .ret _ | .leave none => .ok (.consume 0)
  | .nullConst => .ok (.constant .null 1)
  | .intConst n => .ok (.constant (.int n) 1)
  | .longConst n => .ok (.constant (.int n) 2)
  | .floatConst x => .ok (.constant (.float x.widen) 1)
  | .doubleConst x => .ok (.constant (.float x) 2)
  | .ldc index => (pool.literal index).map (.constant · 1)
  | .ldc2 index => (pool.wideLiteral index).map (.constant · 2)
  | .load kind slot => .ok (.load slot kind.words)
  | .store kind slot => .ok (.store slot kind.words)
  | .arrayLoad kind => .ok (.derive 2 kind.words)
  | .arrayStore kind => .ok (.arrayStore kind.words)
  | .shuffle s => .ok (.shuffle s)
  | .binary kind _ => .ok (.derive (2 * kind.words) kind.words)
  | .shift kind _ => .ok (.derive (kind.words + 1) kind.words)
  | .neg kind => .ok (.derive kind.words kind.words)
  | .iinc slot _ => .ok (.increment slot)
  | .convert source result => .ok (.derive source.words result.words)
  | .compare kind => .ok (.derive (2 * kind.words) 1)
  | .ifZero .. | .ifNull _ | .ifNonNull _ | .tableSwitch .. | .lookupSwitch ..
  | .monitorEnter | .monitorExit => .ok (.consume 1)
  | .ifCompare .. => .ok (.consume 2)
  | .leave (some kind) => .ok (.consume kind.words)
  | .getStatic index => (pool.sizedField index).map fun (f, words) => .readStatic f words
  | .putStatic index => (pool.sizedField index).map fun (_, words) => .consume words
  | .getField index => (pool.sizedField index).map fun (f, words) => .readField f words
  | .putField index => (pool.sizedField index).map fun (_, words) => .consume (1 + words)
  | .invoke kind index => (Call.resolve pool kind index).map .invoke
  | .new _ => .ok (.fresh 0 1)
  | .newArray _ | .newObjectArray _ | .arrayLength | .instanceOf _ => .ok (.fresh 1 1)
  | .newMultiArray _ dimensions => .ok (.fresh dimensions 1)
  | .checkCast _ => .ok .identity
  | .throw => .ok .throw

end SinkCheck
