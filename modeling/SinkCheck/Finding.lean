import SinkCheck.Digest
import SinkCheck.Level

/-! # Findings and where they are collected -/

namespace SinkCheck

structure Finding where
  id : String
  bugType : String
  priority : Priority
  owner : String
  method : String
  descriptor : String
  position : Nat
  line : Option Nat := none
  label : Option String := none
deriving DecidableEq

namespace Finding

/-- What tells one call site from another, as one text. -/
def identity (bugType owner method descriptor : String) (position : Nat) : String :=
  bugType ++ owner ++ method ++ descriptor ++ toString position

def hexWord (w : UInt32) : String :=
  let digits := Nat.toDigits 16 w.toNat
  String.ofList (List.replicate (8 - digits.length) '0' ++ digits)

/-- The first eight bytes of the digest of the identity. -/
def fingerprint (bugType owner method descriptor : String) (position : Nat) : String :=
  let digest := sha256 (identity bugType owner method descriptor position).toUTF8.toList
  String.join ((digest.take 2).map hexWord)

def new (bugType : String) (priority : Priority) (owner method descriptor : String) (position : Nat)
    (line : Option Nat) (label : Option String) : Finding :=
  { id := fingerprint bugType owner method descriptor position
    bugType, priority, owner, method, descriptor, position, line, label }

/-- `[high] SQL_INJECTION com/acme/Dao.find()V:12 @37` -/
def short (f : Finding) : String :=
  let line := (f.line.map fun n => ":" ++ toString n).getD ""
  s!"[{f.priority.name}] {f.bugType} {f.owner}.{f.method}{f.descriptor}{line} @{f.position}"

end Finding

structure Summary where
  total : Nat
  high : Nat
  low : Nat
deriving DecidableEq

def Summary.ofFindings (fs : List Finding) : Summary :=
  let high := fs.countP (·.priority = .high)
  ⟨fs.length, high, fs.length - high⟩

structure Collector where
  findings : Array Finding := #[]
deriving DecidableEq

namespace Collector

def record (c : Collector) (f : Finding) : Collector :=
  ⟨c.findings.push f⟩

def size (c : Collector) : Nat :=
  c.findings.size

def isEmpty (c : Collector) : Bool :=
  c.findings.isEmpty

def toList (c : Collector) : List Finding :=
  c.findings.toList

end Collector

end SinkCheck
