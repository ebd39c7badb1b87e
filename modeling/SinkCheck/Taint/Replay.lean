import SinkCheck.Effect
import SinkCheck.Event
import SinkCheck.Graph
import SinkCheck.Taint.Cell
import SinkCheck.Taint.Policy
import SinkCheck.Trace

/-!
# Taint replay

One pass over the locations in scan order, from the method entry to a target, with a frame of taint
cells. Frames that leave a block by a jump wait for their target; a block starts with the join of what
waits for it and what falls into it, a handler with the exception alone on the stack.
-/

namespace SinkCheck

/-! ## State -/

structure ReplayState where
  frame : Frame Cell
  /-- The next identity to give out. Identities have no bound: a pass gives out one for an instruction, a handler
  or an edge at most, too few to fill a machine word. -/
  next : Nat
  /-- Frames that wait for a block since a jump to it. -/
  pending : Nat → Option (Frame Cell) := fun _ => none
  /-- The frame that left the last block downwards, and the block below. -/
  falling : Option (Nat × Frame Cell) := none

namespace ReplayState

/-- Identities not in use start above the largest in use. -/
def ofLocals (locals : List Cell) : ReplayState where
  frame := { locals }
  next := (locals.filterMap Cell.object).foldl (fun n id => max n (id + 1)) 0

section
variable (policy : Policy) (s : ReplayState)

def setFrame (f : Frame Cell) : ReplayState :=
  { s with frame := f }

def pushFresh (tainted : Bool) (words : Nat) : ReplayState :=
  { s with frame := s.frame.pushWords (.ofObject s.next tainted) words, next := s.next + 1 }

def taintObject (id : Nat) : ReplayState :=
  { s with frame := s.frame.mapCells (Cell.taintObject id) }

def taintContainer (received : Bool) (container : Option Cell) : ReplayState :=
  match received, container.bind Cell.object with
  | true, some id => s.taintObject id
  | _, _ => s

/-- Whether the call returns its own class, and so hands back its receiver. -/
def isFluent (m : Member) : Bool :=
  (")L" ++ m.owner ++ ";").toList.isSuffixOf m.descriptor.toList

/-- Pushes the result of a call: the receiver again if the call is fluent, else a new object. -/
def pushResult (call : Call) (receiver : Option Cell) (tainted : Bool) : ReplayState :=
  if call.resultWords = 0 then s
  else
    match receiver.bind Cell.object, isFluent call.method with
    | some id, true => s.setFrame (s.frame.pushWords (.ofObject id tainted) call.resultWords)
    | _, _ => s.pushFresh tainted call.resultWords

def finishCall (call : Call) (receiver : Option Cell) (arguments : List Cell) : ReplayState :=
  let argued := arguments.any Cell.tainted
  if isStringification call.method.name then s.pushResult call receiver false
  else
    match policy.classify call.method with
    | .source => s.pushResult call receiver true
    | .sanitizer => s.pushResult call receiver false
    | .propagate =>
      (s.taintContainer argued receiver).pushResult call receiver (argued || receiver.any Cell.tainted)

def invoke (call : Call) : Except AnalysisError ReplayState :=
  (s.frame.popWords call.pops).map fun (cells, f) =>
    let s := s.setFrame f
    if call.hasReceiver then s.finishCall policy call cells.head? cells.tail
    else s.finishCall policy call none cells

def apply : Effect → Except AnalysisError ReplayState
  | .consume pops => (s.frame.popWords pops).map fun (_, f) => s.setFrame f
  | .derive pops pushes =>
    (s.frame.popWords pops).map fun (cells, f) =>
      s.setFrame (f.pushWords ⟨cells.any Cell.tainted, none⟩ pushes)
  | .fresh pops pushes => (s.frame.popWords pops).map fun (_, f) => (s.setFrame f).pushFresh false pushes
  | .constant _ words | .readStatic _ words => .ok (s.setFrame (s.frame.pushWords .clean words))
  | .load slot words => .ok (s.setFrame (s.frame.pushAll (s.frame.load slot words)))
  | .store slot words => (s.frame.popWords words).map fun (cells, f) => s.setFrame (f.store slot cells)
  | .increment _ | .identity => .ok s
  | .shuffle pattern => (s.frame.shuffle pattern).map s.setFrame
  | .arrayStore valueWords =>
    (s.frame.popWords (2 + valueWords)).map fun (cells, f) =>
      (s.setFrame f).taintContainer ((cells.drop 2).any Cell.tainted) cells.head?
  | .readField field words =>
    s.frame.pop.map fun (object, f) =>
      (s.setFrame f).pushFresh (object.tainted || policy.isSourceField field) words
  | .invoke call => s.invoke policy call
  | .throw => s.frame.pop.map fun (_, f) => s.setFrame f

def execute (pool : Pool) (h : Placed) : Except AnalysisError ReplayState :=
  match h.instruction.effect pool with
  | .error e => .error e
  | .ok e => (s.setFrame (s.frame.seek h.position)).apply policy e

end

/-! ## Block bounds -/

section
variable (s : ReplayState)

/-- Lets a frame wait for a block. Of frames of different heights the later one waits alone. -/
def await (target : Nat) (f : Frame Cell) : ReplayState :=
  let waiting :=
    match s.pending target with
    | none => f
    | some earlier =>
      match earlier.merge Cell.join f with
      | .ok (joined, _) => joined
      | .error _ => f
  { s with pending := fun id => if id = target then some waiting else s.pending id }

/-- Sends the frame along one edge. A subroutine call puts its return address on the branch only. -/
def send (returnWords : Nat) (e : Edge) : ReplayState :=
  match e.kind with
  | .switch => s.await e.target s.frame
  | .branch =>
    if returnWords = 0 then s.await e.target s.frame
    else
      { s with next := s.next + 1 }.await e.target
        (s.frame.pushWords (.ofObject s.next false) returnWords)
  | .fallThrough => { s with falling := some (e.target, s.frame) }
  | .exception => s

def leave (edges : List Edge) (last : Option Instruction) : ReplayState :=
  edges.foldl (fun s e => s.send ((last.map Instruction.branchPushWords).getD 0) e)
    { s with falling := none }

def fallen (id : Nat) : Option (Frame Cell) :=
  s.falling.bind fun (target, f) => if target = id then some f else none

def forget (id : Nat) : ReplayState :=
  { s with falling := none, pending := fun i => if i = id then none else s.pending i }

/-- Enters a block. With nothing recorded for it, as for a loop head that is reached only from below,
the running frame goes on. -/
def enter (id : Nat) (isHandler : Bool) : Except AnalysisError ReplayState :=
  let t := s.forget id
  if isHandler then .ok (({ t with frame := { locals := s.frame.locals } } : ReplayState).pushFresh false 1)
  else
    match s.fallen id, s.pending id with
    | some f, some g =>
      match f.merge Cell.join g with
      | .ok (joined, _) => .ok (t.setFrame joined)
      | .error e => .error e
    | some f, none | none, some f => .ok (t.setFrame f)
    | none, none => .ok t

end

end ReplayState

/-! ## Running -/

structure Replay where
  code : Code
  graph : Graph
  pool : Pool
  policy : Policy
  locals : List Cell := []
  verbosity : Verbosity := .quiet

/-- The taint of the asked positions in order. Not `reached`, every position counts as tainted. -/
structure Verdict where
  taint : List Bool
  reached : Bool
deriving DecidableEq

namespace Verdict

def anyTainted (v : Verdict) : Bool :=
  v.taint.any id

def failSafe (positions : Nat) : Verdict :=
  ⟨List.replicate positions true, false⟩

end Verdict

namespace Replay

/-- The locals on entry of a method: every value is an object of its own, `this` is clean, and the
parameters are tainted as asked. -/
def entryLocals (isStatic : Bool) (d : MethodDescriptor) (taintParameters : Bool) : List Cell :=
  if isStatic then arguments 0 d.parameters
  else .ofObject 0 false :: arguments 1 d.parameters
where
  arguments (id : Nat) : List FieldType → List Cell
    | [] => []
    | t :: ts => List.replicate t.words (.ofObject id taintParameters) ++ arguments (id + 1) ts

section
variable (r : Replay)

def cross (current : Option Nat) (id : Nat) (s : ReplayState) : Except AnalysisError ReplayState :=
  if current = some id then .ok s
  else
    let left :=
      match current with
      | none => s
      | some old => s.leave (r.graph.successors old) ((r.graph.blocks[old]?.bind Block.last?).bind r.code.instruction?)
    left.enter id ((r.graph.blocks[id]?.map Block.isHandler).getD false)

def narrate (h : Placed) (s : ReplayState) : Trace Event Unit :=
  if r.verbosity.covers .instructions then
    .emit (.replayed h.position h.instruction s.frame.depth ((s.frame.peek 0).any Cell.tainted))
  else pure ()

/-- Replays locations up to the first at instruction `target`, and gives the frame before it. -/
def walk (target : Nat) : List Location → Option Nat → ReplayState → Trace Event (Option (Frame Cell))
  | [], _, _ => pure none
  | l :: ls, current, s => do
    let s ← .ofExcept (r.cross current l.block s)
    if l.index = target then return some s.frame
    else
      match r.code.body[l.index]? with
      | none => walk target ls (some l.block) s
      | some h =>
        let s ← .ofExcept (s.execute r.policy r.pool h)
        r.narrate h s
        walk target ls (some l.block) s

def runTo (target : Nat) : Trace Event (Option (Frame Cell)) :=
  r.walk target r.graph.orderedLocations none (.ofLocals r.locals)

def depthAt (target : Nat) : Except AnalysisError (Option Nat) :=
  (r.runTo target).outcome.map (·.map Frame.depth)

/-- The taint of the words at `positions` below the top just before an instruction. A replay that
fails or does not get there answers that all are tainted. -/
def taintedPositions (target : Nat) (positions : List Nat) : List Event × Verdict :=
  let run := r.runTo target
  let astray (e : Event) := (run.output ++ [e], Verdict.failSafe positions.length)
  let aim := r.code.position? target
  match run.outcome with
  | .error e => astray (.lost aim e)
  | .ok none => astray (.missed aim)
  | .ok (some f) =>
    match positions.mapM fun d => (f.peek d).map Cell.tainted with
    | some taint => (run.output, ⟨taint, true⟩)
    | none => astray (.tooDeep aim f.depth)

end

end Replay

end SinkCheck
