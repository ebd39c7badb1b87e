import SinkCheck.Instruction

/-!
# Method code

Instructions at their byte positions, with the handler and line tables. Positions ascend.
-/

namespace SinkCheck

structure Placed where
  position : Nat
  instruction : Instruction
deriving DecidableEq

/-- Exceptions thrown at positions from `start` up to, not including, `stop` go to `entry`. -/
structure Handler where
  start : Nat
  stop : Nat
  entry : Nat
  /-- `none` catches everything. -/
  catchType : Option String
deriving DecidableEq

structure LineEntry where
  start : Nat
  line : Nat
deriving DecidableEq

structure Code where
  maxLocals : Nat := 0
  body : Array Placed := #[]
  handlers : List Handler := []
  lines : List LineEntry := []
deriving DecidableEq

namespace Code

def size (c : Code) : Nat :=
  c.body.size

def isEmpty (c : Code) : Bool :=
  c.body.isEmpty

def position? (c : Code) (index : Nat) : Option Nat :=
  c.body[index]?.map Placed.position

/-- Narrows the window of `size` instructions from `base` on down to one, by halves. A round leaves the upper
half unless it starts behind the position. -/
def narrow (c : Code) (position : Nat) : (rounds base size : Nat) → Nat
  | 0, base, _ => base
  | rounds + 1, base, size =>
    if size ≤ 1 then base
    else
      let half := size / 2
      let behind := (c.position? (base + half)).any (position < ·)
      narrow c position rounds (if behind then base else base + half) (size - half)

/-- The index of the instruction at the position. In code whose positions do not ascend it can be missed. -/
def indexOf? (c : Code) (position : Nat) : Option Nat :=
  let found := c.narrow position c.size 0 c.size
  if c.position? found = some position then some found else none

def instruction? (c : Code) (index : Nat) : Option Instruction :=
  c.body[index]?.map Placed.instruction

/-- The entry that starts last, the later of two that start together. -/
def closest (position : Nat) (best : Option LineEntry) (e : LineEntry) : Option LineEntry :=
  if e.start ≤ position ∧ best.all (·.start ≤ e.start) then some e else best

def lineFor (c : Code) (position : Nat) : Option Nat :=
  (c.lines.foldl (closest position) none).map LineEntry.line

end Code

end SinkCheck
