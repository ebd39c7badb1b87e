import SinkCheck.Binary
import SinkCheck.Error

/-!
# Constant pools

Slot 0 is never used and a `long` or `double` takes two slots, so instruction operands index the
pool directly. Indexes are 16 bits wide: the slot count is cut to 16 bits when an entry is added.
-/

namespace SinkCheck

/-- A field or method by name. The class is empty for a dynamic call. -/
structure Member where
  owner : String
  name : String
  descriptor : String
deriving DecidableEq

/-- `class.name`, the form used by source and sink tables. -/
def Member.qualified (m : Member) : String :=
  m.owner ++ "." ++ m.name

inductive Entry where
  | utf8 (text : String)
  | integer (value : Int)
  | float (value : Binary32)
  | long (value : Int)
  | double (value : Binary64)
  | string (text : String)
  | classRef (name : String)
  | field (member : Member)
  | method (member : Member)
  | interfaceMethod (member : Member)
  | methodType (descriptor : String)
  | methodHandle (member : Member)
  | invokeDynamic (name descriptor : String)
deriving DecidableEq

namespace Entry

/-- Equality of entries, floats compared as numbers. -/
def same : Entry → Entry → Bool
  | .float x, .float y => x.same y
  | .double x, .double y => x.same y
  | a, b => a == b

def isWide : Entry → Bool
  | .long _ | .double _ => true
  | _ => false

def mentions (owner : String) : Entry → Bool
  | .classRef name => name == owner
  | .field m | .method m | .interfaceMethod m | .methodHandle m => m.owner == owner
  | _ => false

end Entry

structure Pool where
  slots : Array (Option Entry)
deriving DecidableEq

namespace Pool

def empty : Pool := ⟨#[none]⟩

/-- No entries, and slot 0 is taken only when the first one is added. -/
def unreserved : Pool := ⟨#[]⟩

instance : EmptyCollection Pool := ⟨empty⟩

def size (p : Pool) : Nat :=
  p.slots.size

def isEmpty (p : Pool) : Bool :=
  p.slots.all Option.isNone

def get? (p : Pool) (index : UInt16) : Option Entry :=
  p.slots[index.toNat]?.join

def entries (p : Pool) : List Entry :=
  p.slots.toList.filterMap id

/-- The pool with slot 0 taken. -/
@[inline]
def reserved (p : Pool) : Pool :=
  if p.slots.isEmpty then empty else p

def push (p : Pool) (e : Entry) : UInt16 × Pool :=
  let slots := p.reserved.slots
  let index := UInt16.ofNat slots.size
  let grown := slots.push (some e)
  (index, ⟨if e.isWide then grown.push none else grown⟩)

/-- The index of the first equal entry, which is appended if there is none. -/
def intern (p : Pool) (e : Entry) : UInt16 × Pool :=
  match p.slots.findIdx? (fun slot => slot.any (·.same e)) with
  | some i => (.ofNat i, p)
  | none => p.push e

def ofEntries (es : List Entry) : Pool :=
  es.foldl (fun p e => (p.push e).2) empty

def method (p : Pool) (index : UInt16) : Except AnalysisError Member :=
  match p.get? index with
  | some (.method m) | some (.interfaceMethod m) => .ok m
  | some (.invokeDynamic name descriptor) => .ok ⟨"", name, descriptor⟩
  | _ => .error (.pool index "method reference")

def field (p : Pool) (index : UInt16) : Except AnalysisError Member :=
  match p.get? index with
  | some (.field m) => .ok m
  | _ => .error (.pool index "field reference")

def mentions (p : Pool) (owner : String) : Bool :=
  p.entries.any (·.mentions owner)

end Pool

end SinkCheck
