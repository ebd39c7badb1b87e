import SinkCheck.Json.Render
import SinkCheck.Record

/-! # Reports on a list of findings -/

namespace SinkCheck

/-- Grouping and sorting, as the report takes them from a library. -/
structure Collections where
  /-- Each key with the findings it is the key of. The keys come in no particular order. -/
  groupBy : (Finding → String) → List Finding → List (String × List Finding)
  sort : List String → List String

namespace Collections

def push (key : String) (f : Finding) : List (String × List Finding) → List (String × List Finding)
  | [] => [(key, [f])]
  | (t, fs) :: groups => if t = key then (t, fs ++ [f]) :: groups else (t, fs) :: push key f groups

def standard : Collections where
  groupBy key fs := fs.foldl (fun groups f => push (key f) f groups) []
  sort ts := ts.mergeSort fun t u => decide (t ≤ u)

end Collections

namespace Report

def header (t : String) (count : Nat) : String :=
  s!"{t} ({count} findings)\n"

def line (f : Finding) : String :=
  s!"  {f.id} {f.short}\n"

def group (t : String) (fs : List Finding) : List String :=
  header t fs.length :: fs.map line

/-- One line per finding under a header per type, then the totals. -/
def text (k : Collections) (fs : List Finding) : String :=
  let s := Summary.ofFindings fs
  let byType := k.groupBy Finding.bugType fs
  let types := k.sort (byType.map Prod.fst)
  String.join (["INJECTION REPORT\n", String.ofList (List.replicate 60 '=' ++ ['\n'])] ++
    types.flatMap (fun t => group t ((byType.lookup t).getD [])) ++
    [s!"Total Findings: {s.total}\n", s!"  High: {s.high}\n", s!"  Low:  {s.low}\n"])

def json (fs : List Finding) : String :=
  Json.pretty (.table [
    ("summary", (Summary.ofFindings fs).toData),
    ("findings", .list (fs.map Finding.toData))])

end Report

end SinkCheck
