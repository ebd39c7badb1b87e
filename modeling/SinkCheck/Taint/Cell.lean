import SinkCheck.Frame

/-!
# Taint cells

A word is tainted or clean, and may carry the identity of the object it refers to. Identities serve
only to taint every copy of a container that was written to.
-/

namespace SinkCheck

structure Cell where
  tainted : Bool := false
  object : Option Nat := none
deriving DecidableEq

namespace Cell

instance : Inhabited Cell := ⟨{}⟩

def clean : Cell := {}

def ofObject (id : Nat) (tainted : Bool) : Cell := ⟨tainted, some id⟩

/-- Tainted if either is; the same object only if both agree. -/
def join (a b : Cell) : Cell :=
  ⟨a.tainted || b.tainted, if a.object = b.object then a.object else none⟩

def taintObject (id : Nat) (c : Cell) : Cell :=
  if c.object = some id then { c with tainted := true } else c

end Cell

end SinkCheck
