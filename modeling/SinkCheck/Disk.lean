/-!
# Paths and files

Paths are texts, taken apart at slashes. A disk is a set of directories and files named by the parts of
their path from the top; `.` stays, `..` goes up, and both need a directory to stand in.
-/

namespace SinkCheck

/-! ## Paths -/

structure Path where
  absolute : Bool
  /-- The parts between slashes, last first; empty parts are kept. -/
  parts : List String
deriving DecidableEq

namespace Path

def ofString (s : String) : Path :=
  match s.toList.splitOn '/' with
  | [] :: rest@(_ :: _) => ⟨true, (rest.map String.ofList).reverse⟩
  | all => ⟨false, (all.map String.ofList).reverse⟩

/-- Drops trailing parts that name nothing. A `.` counts only as the very first part. -/
def trim (absolute : Bool) : List String → List String
  | [] => []
  | [s] => if s = "" ∨ absolute ∧ s = "." then [] else [s]
  | s :: t :: rest => if s = "" ∨ s = "." then trim absolute (t :: rest) else s :: t :: rest

theorem length_trim (absolute : Bool) (ps : List String) : (trim absolute ps).length ≤ ps.length := by
  induction ps with
  | nil => simp [trim]
  | cons s ps ih =>
    cases ps with
    | nil => simp only [trim]; split <;> simp
    | cons t rest =>
      simp only [trim]
      split
      · exact Nat.le_trans ih (by simp)
      · exact Nat.le_refl _

/-- The parts of the path and of the directories above it, nearest first. -/
def climb (absolute : Bool) (ps : List String) : List (List String) :=
  ps ::
    match h : trim absolute ps with
    | [] => []
    | _ :: up =>
      have : (trim absolute up).length < ps.length := by
        have h1 := length_trim absolute ps
        have h2 := length_trim absolute up
        rw [h] at h1
        simp only [List.length_cons] at h1
        omega
      climb absolute (trim absolute up)
termination_by ps.length

def ancestors (p : Path) : List Path :=
  (climb p.absolute p.parts).map (⟨p.absolute, ·⟩)

def toString (p : Path) : String :=
  (if p.absolute then "/" else "") ++ "/".intercalate p.parts.reverse

def child (p : Path) (name : String) : Path :=
  match p.parts with
  | "" :: rest => ⟨p.absolute, name :: rest⟩
  | parts => ⟨p.absolute, name :: parts⟩

end Path

/-! ## Disks -/

inductive DiskEntry where
  | directory
  | file (content : ByteArray)

/-- Entries by the names that lead to them from the top, last first; the newest of equal ones counts. -/
structure Disk where
  entries : List (List String × DiskEntry) := []

namespace Disk

variable (disk : Disk)

def get? : List String → Option DiskEntry
  | [] => some .directory
  | names => disk.entries.lookup names

def isDirectory (names : List String) : Bool :=
  match disk.get? names with
  | some .directory => true
  | _ => false

/-- Follows the parts of a path from a place that must be a directory as long as parts remain. -/
def follow (names : List String) : List String → Option (List String)
  | [] => some names
  | part :: parts =>
    if !disk.isDirectory names then none
    else if part = "" ∨ part = "." then follow names parts
    else if part = ".." then follow names.tail parts
    else if (disk.get? (part :: names)).isSome then follow (part :: names) parts
    else none

/-- A path of more bytes leads nowhere. -/
def pathLimit : Nat := 4095

def resolve (p : Path) : Option (List String) :=
  if pathLimit < p.toString.utf8ByteSize then none else disk.follow [] p.parts.reverse

def isFile (p : Path) : Bool :=
  match (disk.resolve p).bind disk.get? with
  | some (.file _) => true
  | _ => false

/-- The text of a file; `none` also if it is not well-formed text. -/
def read? (p : Path) : Option String :=
  match (disk.resolve p).bind disk.get? with
  | some (.file content) => String.fromUTF8? content
  | _ => none

/-- Makes the directories along the parts of a path, and says where they lead. -/
def makeDirectories (disk : Disk) (names : List String) : List String → Disk × List String
  | [] => (disk, names)
  | part :: parts =>
    if part = "" ∨ part = "." then makeDirectories disk names parts
    else if part = ".." then makeDirectories disk names.tail parts
    else
      let place := part :: names
      let disk := if (disk.get? place).isSome then disk else ⟨(place, .directory) :: disk.entries⟩
      makeDirectories disk place parts

def addDirectory (p : Path) : Disk :=
  (makeDirectories disk [] p.parts.reverse).1

def write (p : Path) (content : ByteArray) : Disk :=
  match Path.trim p.absolute p.parts with
  | [] => disk
  | name :: above =>
    let (disk, names) := makeDirectories disk [] above.reverse
    ⟨(name :: names, .file content) :: disk.entries⟩

end Disk

end SinkCheck
