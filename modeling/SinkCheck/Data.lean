/-!
# Data

What a JSON or TOML text says, as far as records are read from it. Numbers are natural numbers; any
other literal is kept as written, to be passed over.
-/

namespace SinkCheck

inductive Data where
  | null
  | bool (b : Bool)
  | nat (n : Nat)
  | text (s : String)
  | list (items : List Data)
  | table (members : List (String × Data))
  | other (literal : String)
  /-- A number without a value, which cannot even be passed over. -/
  | broken (literal : String)

namespace Data

def bool? : Data → Option Bool
  | .bool b => some b
  | _ => none

def natBelow? (limit : Nat) : Data → Option Nat
  | .nat n => if n < limit then some n else none
  | _ => none

def text? : Data → Option String
  | .text s => some s
  | _ => none

def listOf? {α : Type} (read : Data → Option α) : Data → Option (List α)
  | .list items => items.mapM read
  | _ => none

mutual
def intact : Data → Bool
  | .list items => intactItems items
  | .table members => intactMembers members
  | .broken _ => false
  | _ => true

def intactItems : List Data → Bool
  | [] => true
  | d :: ds => d.intact && intactItems ds

def intactMembers : List (String × Data) → Bool
  | [] => true
  | (_, d) :: ms => d.intact && intactMembers ms
end

/-- Members of which absent ones are left out. -/
def ofMembers (members : List (String × Option Data)) : Data :=
  .table (members.filterMap fun (key, value) => value.map (key, ·))

end Data

end SinkCheck
