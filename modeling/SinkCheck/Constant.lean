import SinkCheck.Code
import SinkCheck.Effect
import SinkCheck.Frame

/-!
# Constant cells

A cell is a literal string or integer, or it is unknown. Cells that disagree join to unknown, which
is also what a slot holds before it is written.
-/

namespace SinkCheck

inductive Constant where
  | string (text : String)
  | integer (value : Int)
  | unknown
deriving DecidableEq

namespace Constant

instance : Inhabited Constant := ⟨.unknown⟩

def isString : Constant → Bool
  | .string _ => true
  | _ => false

def isKnown : Constant → Bool
  | .unknown => false
  | _ => true

def join (a b : Constant) : Constant :=
  if a = b then a else .unknown

def ofLiteral : Literal → Constant
  | .string s => .string s
  | .int n => .integer n
  | _ => .unknown

end Constant

namespace Frame

/-- What an effect does to constants: literals are known, everything computed is not. -/
def transfer (f : Frame Constant) : Effect → Except AnalysisError (Frame Constant)
  | .consume pops => (f.popWords pops).map Prod.snd
  | .derive pops pushes | .fresh pops pushes =>
    (f.popWords pops).map fun (_, f) => f.pushWords .unknown pushes
  | .constant literal words => .ok (f.pushWords (.ofLiteral literal) words)
  | .load slot words => .ok (f.pushAll (f.load slot words))
  | .store slot words => (f.popWords words).map fun (cells, f) => f.store slot cells
  | .increment slot => .ok (f.store slot [.unknown])
  | .shuffle s => f.shuffle s
  | .identity => .ok f
  | .arrayStore valueWords => (f.popWords (2 + valueWords)).map Prod.snd
  | .readStatic _ words => .ok (f.pushWords .unknown words)
  | .readField _ words => f.pop.map fun (_, f) => f.pushWords .unknown words
  | .invoke call => (f.popWords call.pops).map fun (_, f) => f.pushWords .unknown call.resultWords
  | .throw => f.pop.map Prod.snd

def execute (pool : Pool) (h : Placed) (f : Frame Constant) : Except AnalysisError (Frame Constant) :=
  match h.instruction.effect pool with
  | .error e => .error e
  | .ok e => (f.seek h.position).transfer e

end Frame

end SinkCheck
