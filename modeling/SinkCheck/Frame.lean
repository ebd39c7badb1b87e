import SinkCheck.Error
import SinkCheck.Instruction

/-!
# Frames

An operand stack and local slots over an arbitrary cell type, one cell per word. The default cell
is what a slot holds that was never written. A failed operation yields no frame.
-/

namespace SinkCheck

structure Frame (α : Type) where
  /-- Top first. -/
  stack : List α := []
  locals : List α := []
  /-- The instruction at work, named when the stack underflows. -/
  position : Nat := 0
deriving DecidableEq

namespace Frame

section
variable {α : Type} (f : Frame α)

def depth : Nat :=
  f.stack.length

def seek (position : Nat) : Frame α :=
  { f with position }

def push (a : α) : Frame α :=
  { f with stack := a :: f.stack }

def pushWords (a : α) (n : Nat) : Frame α :=
  { f with stack := List.replicate n a ++ f.stack }

/-- Pushes cells given deepest first. -/
def pushAll (cells : List α) : Frame α :=
  { f with stack := cells.reverse ++ f.stack }

def pop : Except AnalysisError (α × Frame α) :=
  match f.stack with
  | a :: rest => .ok (a, { f with stack := rest })
  | [] => .error (.underflow f.position)

/-- Pops `n` cells, deepest first. -/
def popWords (n : Nat) : Except AnalysisError (List α × Frame α) :=
  if n ≤ f.stack.length then .ok ((f.stack.take n).reverse, { f with stack := f.stack.drop n })
  else .error (.underflow f.position)

def peek (d : Nat) : Option α :=
  f.stack[d]?

def shuffle (s : Shuffle) : Except AnalysisError (Frame α) :=
  match f.popWords s.pattern.1 with
  | .ok (cells, rest) => .ok (rest.pushAll (s.pattern.2.filterMap (cells[·]?)))
  | .error e => .error e

def mapCells (g : α → α) : Frame α :=
  { f with stack := f.stack.map g, locals := f.locals.map g }

end

section
variable {α : Type} [Inhabited α] (f : Frame α)

/-- Extends a slot list to at least `n` slots. -/
def pad (n : Nat) (cells : List α) : List α :=
  cells ++ List.replicate (n - cells.length) default

theorem length_pad (n : Nat) (cells : List α) : (pad n cells).length = max n cells.length := by
  simp [pad]; omega

def slot (i : Nat) : α :=
  f.locals[i]?.getD default

def load (i n : Nat) : List α :=
  (List.range' i n).map f.slot

def store (i : Nat) (cells : List α) : Frame α :=
  let n := i + cells.length
  let locals := pad n f.locals
  { f with locals := locals.take i ++ cells ++ locals.drop n }

/-- Joins another frame in cell by cell, and says whether a cell changed. Missing slots count as
default cells, and adding them is no change. -/
def merge [DecidableEq α] (join : α → α → α) (g : Frame α) : Except AnalysisError (Frame α × Bool) :=
  if f.stack.length = g.stack.length then
    let n := max f.locals.length g.locals.length
    let mine := pad n f.locals
    let stack := List.zipWith join f.stack g.stack
    let locals := List.zipWith join mine (pad n g.locals)
    .ok ({ f with stack, locals }, stack != f.stack || locals != mine)
  else
    .error (.dataflow
      s!"stack height mismatch at position {f.position}: {f.stack.length} vs {g.stack.length}")

end

end Frame

end SinkCheck
