import SinkCheck.Binary

/-!
# Instructions

Decoded instructions, typed by their operands. Wide forms are folded into their base instruction and
branch targets are absolute byte positions.
-/

namespace SinkCheck

inductive Kind where
  | int | long | float | double | reference
deriving DecidableEq

def Kind.words : Kind → Nat
  | .long | .double => 2
  | .int | .float | .reference => 1

inductive ArrayKind where
  | int | long | float | double | reference | byte | char | short
deriving DecidableEq

def ArrayKind.words : ArrayKind → Nat
  | .long | .double => 2
  | _ => 1

inductive BinaryOp where
  | add | sub | mul | div | rem | and | or | xor
deriving DecidableEq

inductive ShiftOp where
  | shl | shr | ushr
deriving DecidableEq

inductive Condition where
  | eq | ne | lt | ge | gt | le
deriving DecidableEq

inductive CompareKind where
  | int | reference
deriving DecidableEq

inductive InvokeKind where
  | virtual | special | static | interface | dynamic
deriving DecidableEq

/-- Whether the call pops an object below its arguments. -/
def InvokeKind.hasReceiver : InvokeKind → Bool
  | .static | .dynamic => false
  | _ => true

inductive Shuffle where
  | pop | pop2 | dup | dupX1 | dupX2 | dup2 | dup2X1 | dup2X2 | swap
deriving DecidableEq

/-- Words popped, and which of them are pushed back, word 0 being the deepest. -/
def Shuffle.pattern : Shuffle → Nat × List Nat
  | .pop => (1, [])
  | .pop2 => (2, [])
  | .dup => (1, [0, 0])
  | .dupX1 => (2, [1, 0, 1])
  | .dupX2 => (3, [2, 0, 1, 2])
  | .dup2 => (2, [0, 1, 0, 1])
  | .dup2X1 => (3, [1, 2, 0, 1, 2])
  | .dup2X2 => (4, [2, 3, 0, 1, 2, 3])
  | .swap => (2, [1, 0])

inductive Instruction where
  | nop
  | nullConst
  | intConst (value : Int)
  | longConst (value : Int)
  | floatConst (value : Binary32)
  | doubleConst (value : Binary64)
  | ldc (index : UInt16)
  | ldc2 (index : UInt16)
  | load (kind : Kind) (slot : Nat)
  | store (kind : Kind) (slot : Nat)
  | arrayLoad (kind : ArrayKind)
  | arrayStore (kind : ArrayKind)
  | shuffle (s : Shuffle)
  | binary (kind : Kind) (op : BinaryOp)
  | shift (kind : Kind) (op : ShiftOp)
  | neg (kind : Kind)
  | iinc (slot : Nat) (delta : Int)
  | convert (source result : Kind)
  | compare (kind : Kind)
  | ifZero (c : Condition) (target : Nat)
  | ifCompare (kind : CompareKind) (c : Condition) (target : Nat)
  | ifNull (target : Nat)
  | ifNonNull (target : Nat)
  | goto (target : Nat)
  | jsr (target : Nat)
  | ret (slot : Nat)
  | tableSwitch (fallback : Nat) (low : Int) (targets : List Nat)
  | lookupSwitch (fallback : Nat) (pairs : List (Int × Nat))
  | leave (kind : Option Kind)
  | getStatic (index : UInt16)
  | putStatic (index : UInt16)
  | getField (index : UInt16)
  | putField (index : UInt16)
  | invoke (kind : InvokeKind) (index : UInt16)
  | new (index : UInt16)
  | newArray (kind : ArrayKind)
  | newObjectArray (index : UInt16)
  | arrayLength
  | throw
  | checkCast (index : UInt16)
  | instanceOf (index : UInt16)
  | monitorEnter
  | monitorExit
  | newMultiArray (index : UInt16) (dimensions : Nat)
deriving DecidableEq

namespace Instruction

/-- Every position control may jump to; a switch names its default first. -/
def branchTargets : Instruction → List Nat
  | .ifZero _ t | .ifCompare _ _ t | .ifNull t | .ifNonNull t | .goto t | .jsr t => [t]
  | .tableSwitch fallback _ targets => fallback :: targets
  | .lookupSwitch fallback pairs => fallback :: pairs.map Prod.snd
  | _ => []

def isSwitch : Instruction → Bool
  | .tableSwitch .. | .lookupSwitch .. => true
  | _ => false

/-- Words pushed on the branch edge only: the return address of `jsr`. -/
def branchPushWords : Instruction → Nat
  | .jsr _ => 1
  | _ => 0

def fallsThrough : Instruction → Bool
  | .goto _ | .ret _ | .tableSwitch .. | .lookupSwitch .. | .leave _ | .throw => false
  | _ => true

def endsBlock (i : Instruction) : Bool :=
  !i.fallsThrough || !i.branchTargets.isEmpty

def fitsByte (n : Int) : Bool :=
  -128 ≤ n ∧ n ≤ 127

/-- Size in bytes when the instruction starts at `position`; a switch is padded to a multiple of four. -/
def encodedLength (position : Nat) : Instruction → Nat
  | .intConst v => if -1 ≤ v ∧ v ≤ 5 then 1 else if fitsByte v then 2 else 3
  | .ldc index => if index ≤ 255 then 2 else 3
  | .load _ slot | .store _ slot => if slot ≤ 3 then 1 else if slot ≤ 255 then 2 else 4
  | .ret slot => if slot ≤ 255 then 2 else 4
  | .iinc slot delta => if slot ≤ 255 ∧ fitsByte delta then 3 else 6
  | .newArray _ => 2
  | .ldc2 _ | .ifZero .. | .ifCompare .. | .ifNull _ | .ifNonNull _ | .goto _ | .jsr _
  | .getStatic _ | .putStatic _ | .getField _ | .putField _
  | .new _ | .newObjectArray _ | .checkCast _ | .instanceOf _ => 3
  | .invoke .interface _ | .invoke .dynamic _ => 5
  | .invoke _ _ => 3
  | .newMultiArray .. => 4
  | .tableSwitch _ _ targets => 1 + padding + 12 + 4 * targets.length
  | .lookupSwitch _ pairs => 1 + padding + 8 + 8 * pairs.length
  | _ => 1
where
  padding : Nat := (4 - (position + 1) % 4) % 4

end Instruction

end SinkCheck
