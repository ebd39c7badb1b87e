import SinkCheck.Graph
import SinkCheck.Taint.Policy

/-!
# Safe values

Recognises producers whose value cannot carry untrusted data: a loaded constant, a static field, a
stringification, and an element of a static string table. The recogniser gives up where the producer
depends on the jump taken.
-/

namespace SinkCheck

def stringTable : String := "[Ljava/lang/String;"

section
variable (c : Code) (g : Graph) (pool : Pool)

/-- Whether an array load at the location reads a static string table: the index is produced by the
instruction before it and the array by the one before that. -/
def readsStringTable (l : Location) : Except AnalysisError Bool :=
  let array := (g.unambiguousPrevious c l true).bind fun i => g.unambiguousPrevious c i true
  match array.bind fun a => c.instruction? a.index with
  | some (.getStatic index) => (pool.field index).map fun f => f.descriptor == stringTable
  | _ => .ok false

def isSafeValue (l : Location) : Except AnalysisError Bool :=
  match c.instruction? l.index with
  | some (.ldc _) | some (.getStatic _) => .ok true
  | some (.invoke _ index) => (pool.method index).map fun m => isStringification m.name
  | some (.arrayLoad .reference) => readsStringTable c g pool l
  | _ => .ok false

def isSafeTop (l : Location) : Except AnalysisError Bool :=
  match g.unambiguousPrevious c l true with
  | some producer => isSafeValue c g pool producer
  | none => .ok false

end

end SinkCheck
