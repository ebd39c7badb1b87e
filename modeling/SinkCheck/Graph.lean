import SinkCheck.Code
import SinkCheck.Error

/-!
# Control-flow graphs

Blocks are runs of instructions in position order, numbered by their slots. `Graph.build` splits code at
every jump target, after every instruction that ends a block, and at the handler bounds.
-/

namespace SinkCheck

/-- The instructions `start`, ..., `stop - 1`. -/
structure Block where
  id : Nat
  start : Nat
  stop : Nat
  isHandler : Bool := false
deriving DecidableEq

namespace Block

def isEmpty (b : Block) : Bool :=
  b.stop ≤ b.start

def last? (b : Block) : Option Nat :=
  if b.start < b.stop then some (b.stop - 1) else none

def indices (b : Block) : List Nat :=
  List.range' b.start (b.stop - b.start)

end Block

inductive EdgeKind where
  | fallThrough | branch | switch | exception
deriving DecidableEq

structure Edge where
  source : Nat
  target : Nat
  kind : EdgeKind
deriving DecidableEq

structure Location where
  index : Nat
  block : Nat
deriving DecidableEq

structure Graph where
  blocks : Array Block
  edges : List Edge
  numbered : blocks.toList.map Block.id = List.range blocks.size := by rfl
deriving DecidableEq

namespace Graph

/-! ## Building -/

section
variable (c : Code)

def boundary (p : Nat) : Except AnalysisError Nat :=
  match c.indexOf? p with
  | some i => .ok i
  | none => .error (.graph s!"position {p} is not an instruction boundary")

/-- The positions that must be instructions: jump targets, then handler entries and starts. -/
def anchors : List Nat :=
  c.body.toList.flatMap (·.instruction.branchTargets) ++ c.handlers.flatMap fun h => [h.entry, h.start]

def afterEnds : List Nat :=
  (List.range c.size).filter fun i => i ≠ 0 ∧ (c.instruction? (i - 1)).any Instruction.endsBlock

def handlerStops : List Nat :=
  c.handlers.filterMap fun h => c.indexOf? h.stop

/-- The first instructions of the blocks in order, where `marks` are those of the anchors. -/
def leaders (marks : List Nat) : List Nat :=
  let all := 0 :: marks ++ afterEnds c ++ handlerStops c
  (List.range c.size).filter (all.contains ·)

def splitAt (starts : List Nat) : List Block :=
  (starts.zip (starts.tail ++ [c.size])).mapIdx fun id (start, stop) => ⟨id, start, stop, isEntry start⟩
where
  isEntry (start : Nat) : Bool := c.handlers.any fun h => c.indexOf? h.entry == some start

def blockAt (starts : List Nat) (p : Nat) : Nat :=
  starts.idxOf ((c.indexOf? p).getD 0)

/-- The edges leaving a block other than those to handlers. -/
def exits (starts : List Nat) (b : Block) : List Edge :=
  match c.instruction? (b.stop - 1) with
  | none => []
  | some i =>
    let kind := if i.isSwitch then EdgeKind.switch else .branch
    i.branchTargets.map (fun p => ⟨b.id, blockAt c starts p, kind⟩) ++
      if i.fallsThrough then [⟨b.id, b.id + 1, .fallThrough⟩] else []

/-- An edge to the handler from every block whose first instruction it covers. -/
def guards (starts : List Nat) (blocks : List Block) (h : Handler) : List Edge :=
  blocks.filterMap fun b =>
    if (c.position? b.start).any (fun p => h.start ≤ p ∧ p < h.stop) then
      some ⟨b.id, blockAt c starts h.entry, .exception⟩
    else none

theorem numbered_splitAt (starts : List Nat) :
    (splitAt c starts).toArray.toList.map Block.id = List.range (splitAt c starts).toArray.size := by
  apply List.ext_getElem
  · simp
  · simp [splitAt]

def ofStarts (starts : List Nat) : Graph :=
  let blocks := splitAt c starts
  let jumps := blocks.flatMap (exits c starts)
  ⟨blocks.toArray, (jumps ++ c.handlers.flatMap (guards c starts blocks)).eraseDups, numbered_splitAt c starts⟩

def build : Except AnalysisError Graph :=
  match c.body.back? with
  | none => .error (.graph "method has no instructions")
  | some last =>
    match (anchors c).mapM (boundary c) with
    | .error e => .error e
    | .ok marks =>
      if last.instruction.fallsThrough then
        .error (.graph s!"control falls off the end of the code after position {last.position}")
      else .ok (ofStarts c (leaders c marks))

end

theorem numbered_of_find? {blocks : Array Block} (h : blocks.toList.zipIdx.find? (fun p => p.1.id != p.2) = none) :
    blocks.toList.map Block.id = List.range blocks.size := by
  apply List.ext_getElem
  · simp
  · intro slot hslot _
    have hlt : slot < blocks.toList.length := by simpa using hslot
    have hmem : (blocks.toList[slot], slot) ∈ blocks.toList.zipIdx :=
      List.mem_zipIdx_iff_getElem?.mpr (List.getElem?_eq_getElem hlt)
    simpa using List.find?_eq_none.mp h _ hmem

/-- A graph from blocks, whose ids must be their slots, and edges between them. -/
def ofParts (blocks : Array Block) (edges : List Edge) : Except AnalysisError Graph :=
  match h : blocks.toList.zipIdx.find? fun p => p.1.id != p.2 with
  | some (b, slot) => .error (.graph s!"block at slot {slot} carries id {b.id}")
  | none =>
    match edges.find? fun e => !(e.source < blocks.size && e.target < blocks.size) with
    | some e => .error (.graph s!"edge BlockId({e.source}) -> BlockId({e.target}) leaves the graph")
    | none => .ok ⟨blocks, edges, numbered_of_find? h⟩

/-! ## Reading -/

section
variable (g : Graph)

def successors (id : Nat) : List Edge :=
  g.edges.filter (·.source == id)

def predecessor? (id : Nat) (kind : EdgeKind) : Option Nat :=
  (g.edges.find? fun e => e.target == id && e.kind == kind).map Edge.source

def hasJumpPredecessor (id : Nat) : Bool :=
  g.edges.any fun e => e.target == id && e.kind != .fallThrough

/-- Inserts a block in front of those that start later, or together with it under no smaller id. -/
def insertByStart (b : Block) : List Block → List Block
  | [] => [b]
  | c :: cs =>
    if b.start < c.start ∨ b.start = c.start ∧ b.id ≤ c.id then b :: c :: cs else c :: insertByStart b cs

def orderedBlocks : List Block :=
  g.blocks.toList.foldr insertByStart []

def orderedLocations : List Location :=
  g.orderedBlocks.flatMap fun b => b.indices.map (⟨·, b.id⟩)

end

/-! ## Walking back -/

/-- The last index from `start` on and below the given one that satisfies `keep`. -/
def lastBefore (keep : Nat → Bool) (start : Nat) : Nat → Option Nat
  | 0 => none
  | i + 1 => if i < start then none else if keep i then some i else lastBefore keep start i

section
variable (g : Graph) (c : Code) (skipNops stopAtJoins : Bool)

def keeps (i : Nat) : Bool :=
  !(skipNops && c.instruction? i == some .nop)

/-- The instruction before `index` of a block along fall-through edges, through at most `rounds` blocks. -/
def walkBack : (rounds : Nat) → (id index : Nat) → Option Location
  | 0, _, _ => none
  | rounds + 1, id, index =>
    match g.blocks[id]? with
    | none => none
    | some b =>
      match lastBefore (keeps c skipNops) b.start index with
      | some i => some ⟨i, id⟩
      | none =>
        if stopAtJoins && g.hasJumpPredecessor id then none
        else
          match g.predecessor? id .fallThrough with
          | none => none
          | some p =>
            match g.blocks[p]? with
            | none => none
            | some q => walkBack rounds p q.stop

end

/-- One round per block and one more, since the first block is entered in its middle. -/
def rounds (g : Graph) : Nat :=
  g.blocks.size + 1

def previous (g : Graph) (c : Code) (l : Location) (skipNops : Bool) : Option Location :=
  g.walkBack c skipNops false g.rounds l.block l.index

/-- The instruction before the location, if no jump enters a block that the walk leaves. -/
def unambiguousPrevious (g : Graph) (c : Code) (l : Location) (skipNops : Bool) : Option Location :=
  g.walkBack c skipNops true g.rounds l.block l.index

end Graph

end SinkCheck
