import SinkCheck.Data

/-!
# TOML tables

A document grows by opening tables and assigning keys. What may be added where depends on how a table
came to be: by a header, on the way to one, or by a dotted key.
-/

namespace SinkCheck

namespace Toml

inductive TableKind where
  | explicit
  /-- Named only on the way to another table. -/
  | implicit
  | dotted
deriving DecidableEq

inductive Node where
  | value (d : Data)
  | table (kind : TableKind) (members : List (String × Node))
  /-- An array of tables, grown by headers. -/
  | tables (elements : List (List (String × Node)))

abbrev Members := List (String × Node)

def replace (key : String) (n : Node) : Members → Members
  | [] => [(key, n)]
  | (k, m) :: ms => if k = key then (k, n) :: ms else (k, m) :: replace key n ms

/-- Changes the table at a path, creating the tables on the way. A dotted key may not pass through a
table that has a header, and every path goes on in the last table of an array. -/
def alter (dotted : Bool) (change : TableKind → Members → Option Members) :
    List String → TableKind → Members → Option Members
  | [], kind, ms => change kind ms
  | key :: path, _, ms =>
    match ms.lookup key with
    | none =>
      let kind := if dotted then .dotted else .implicit
      (alter dotted change path kind []).map fun inner => replace key (.table kind inner) ms
    | some (.table kind inner) =>
      if dotted && kind == .explicit then none
      else (alter dotted change path kind inner).map fun inner => replace key (.table kind inner) ms
    | some (.tables elements) =>
      match elements.getLast? with
      | none => none
      | some last =>
        (alter dotted change path .explicit last).map fun last =>
          replace key (.tables (elements.dropLast ++ [last])) ms
    | some (.value _) => none

/-- Assigns a key in a table. A dotted key ends in a table made by dotted keys, a plain one does not. -/
def assign (path : List String) (key : String) (d : Data) (kind : TableKind) (ms : Members) : Option Members :=
  alter true (fun kind ms =>
    if (kind == .dotted) == path.isEmpty || (ms.lookup key).isSome then none
    else some (replace key (.value d) ms)) path kind ms

def openTable (path : List String) (key : String) (root : Members) : Option Members :=
  alter false (fun _ ms =>
    match ms.lookup key with
    | none => some (replace key (.table .explicit []) ms)
    | some (.table .implicit inner) => some (replace key (.table .explicit inner) ms)
    | some _ => none) path .explicit root

def openElement (path : List String) (key : String) (root : Members) : Option Members :=
  alter false (fun _ ms =>
    match ms.lookup key with
    | none => some (replace key (.tables [[]]) ms)
    | some (.tables elements) => some (replace key (.tables (elements ++ [[]])) ms)
    | some _ => none) path .explicit root

mutual
def Node.toData : Node → Data
  | .value d => d
  | .table _ members => .table (dataOfMembers members)
  | .tables elements => .list (dataOfElements elements)

def dataOfMembers : List (String × Node) → List (String × Data)
  | [] => []
  | (key, n) :: ms => (key, n.toData) :: dataOfMembers ms

def dataOfElements : List (List (String × Node)) → List Data
  | [] => []
  | ms :: es => .table (dataOfMembers ms) :: dataOfElements es
end

end Toml

end SinkCheck
