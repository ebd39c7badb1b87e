import SinkCheck.Error

/-!
# Descriptors

Field and method types as the class file writes them: `I`, `[Ljava/lang/String;`, `(IJ)V`. Readers
consume a leading piece of the text and return what is left, so a parameter list is read piece by piece.
-/

namespace SinkCheck

inductive FieldType where
  | byte | char | double | float | int | long | short | boolean
  | object (name : String)
  | array (element : FieldType)
deriving DecidableEq

namespace FieldType

def words : FieldType → Nat
  | .long | .double => 2
  | _ => 1

theorem words_pos (t : FieldType) : 0 < t.words := by
  unfold words
  split <;> decide

def primitive? : Char → Option FieldType
  | 'B' => some .byte
  | 'C' => some .char
  | 'D' => some .double
  | 'F' => some .float
  | 'I' => some .int
  | 'J' => some .long
  | 'S' => some .short
  | 'Z' => some .boolean
  | _ => none

/-- Reads one type off the front. An error carries the piece at which reading stopped: the element
type of an array, not the array. -/
def read : List Char → Except AnalysisError (FieldType × List Char)
  | [] => .error (.descriptor "")
  | c :: rest =>
    match primitive? c with
    | some t => .ok (t, rest)
    | none =>
      if c = '[' then
        match read rest with
        | .ok (t, tail) => .ok (.array t, tail)
        | .error e => .error e
      else if c = 'L' then
        match rest.takeWhile (· ≠ ';'), rest.dropWhile (· ≠ ';') with
        | n :: name, _ :: tail => .ok (.object (String.ofList (n :: name)), tail)
        | _, _ => .error (.descriptor (String.ofList (c :: rest)))
      else .error (.descriptor (String.ofList (c :: rest)))

/-- A whole text as one type; what is left over makes the whole text malformed. -/
def parse (text : String) : Except AnalysisError FieldType :=
  match read text.toList with
  | .ok (t, []) => .ok t
  | .ok (_, _ :: _) => .error (.descriptor text)
  | .error e => .error e

theorem length_of_read {s rest : List Char} {t : FieldType} (h : read s = .ok (t, rest)) :
    rest.length < s.length := by
  induction s generalizing t rest with
  | nil => simp [read] at h
  | cons c s ih =>
    unfold read at h
    split at h
    · cases h; simp
    · split at h
      · split at h
        · rename_i h'
          cases h
          have := ih h'
          simp; omega
        · cases h
      · split at h
        · split at h
          · rename_i hd
            cases h
            have : (s.dropWhile (· ≠ ';')).length ≤ s.length := by
              have := congrArg List.length (List.takeWhile_append_dropWhile (p := (· ≠ ';')) (l := s))
              simp only [List.length_append] at this
              omega
            rw [hd] at this
            simp at this ⊢
            omega
          · cases h
        · cases h

def chars : FieldType → List Char
  | .byte => ['B']
  | .char => ['C']
  | .double => ['D']
  | .float => ['F']
  | .int => ['I']
  | .long => ['J']
  | .short => ['S']
  | .boolean => ['Z']
  | .object name => 'L' :: (name.toList ++ [';'])
  | .array t => '[' :: t.chars

def render (t : FieldType) : String :=
  String.ofList t.chars

end FieldType

structure MethodDescriptor where
  parameters : List FieldType
  /-- `none` for `void`. -/
  result : Option FieldType
deriving DecidableEq

namespace MethodDescriptor

section
variable (text : String)

/-- Reads parameter types up to and including the closing parenthesis of `text`. -/
def readParameters (s : List Char) : Except AnalysisError (List FieldType × List Char) :=
  if s.head? = some ')' then .ok ([], s.tail)
  else if s.isEmpty then .error (.descriptor text)
  else
    match h : FieldType.read s with
    | .error _ => .error (.descriptor text)
    | .ok (t, tail) =>
      have := FieldType.length_of_read h
      match readParameters tail with
      | .ok (ts, rest) => .ok (t :: ts, rest)
      | .error e => .error e
termination_by s.length

def readResult (s : List Char) : Except AnalysisError (Option FieldType) :=
  if s = ['V'] then .ok none
  else
    match FieldType.parse (String.ofList s) with
    | .ok t => .ok (some t)
    | .error _ => .error (.descriptor text)

def parse : Except AnalysisError MethodDescriptor :=
  match text.toList with
  | '(' :: s =>
    match readParameters text s with
    | .error e => .error e
    | .ok (parameters, rest) =>
      match readResult text rest with
      | .error e => .error e
      | .ok result => .ok ⟨parameters, result⟩
  | _ => .error (.descriptor text)

end

def argumentWords (d : MethodDescriptor) : Nat :=
  d.parameters.foldr (·.words + ·) 0

def resultWords (d : MethodDescriptor) : Nat :=
  (d.result.map FieldType.words).getD 0

/-- Depth of the top word of parameter `i` when the call is made: the words of the parameters after it. -/
def stackOffset (d : MethodDescriptor) (i : Nat) : Option Nat :=
  if i < d.parameters.length then some ((d.parameters.drop (i + 1)).foldr (·.words + ·) 0) else none

def chars (d : MethodDescriptor) : List Char :=
  '(' :: (d.parameters.flatMap FieldType.chars ++ ')' :: (d.result.map FieldType.chars).getD ['V'])

def render (d : MethodDescriptor) : String :=
  String.ofList d.chars

end MethodDescriptor

end SinkCheck
