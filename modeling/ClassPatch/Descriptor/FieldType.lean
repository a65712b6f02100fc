import ClassPatch.Error

/-!
# Field types

A field descriptor is a letter for a primitive type, a class name between `L` and `;`, or a
bracket before the descriptor of the elements. `FieldType.read` takes the descriptor at the front
of a text and `FieldType.chars` writes it; reading always consumes something, so a list of
descriptors can be read one after the other.
-/

namespace ClassPatch

/-- The type of a field, parameter or result. -/
inductive FieldType
  | byte
  | char
  | double
  | float
  | int
  | long
  | short
  | boolean
  | object (name : String)
  | array (element : FieldType)
  deriving DecidableEq

namespace FieldType

/-- The descriptor of a type as characters. -/
def chars : FieldType → List Char
  | byte => ['B']
  | char => ['C']
  | double => ['D']
  | float => ['F']
  | int => ['I']
  | long => ['J']
  | short => ['S']
  | boolean => ['Z']
  | object name => 'L' :: name.toList ++ [';']
  | array element => '[' :: element.chars

/-- The descriptor of a type. -/
def descriptor (t : FieldType) : String := String.ofList t.chars

/-- The words that a value takes among the locals or on the stack. -/
def slots : FieldType → Nat
  | long | double => 2
  | _ => 1

/-- The type as the verifier sees it. -/
def verification : FieldType → VerificationType
  | byte | char | short | boolean | int => .integer
  | float => .float
  | long => .long
  | double => .double
  | object name => .object name
  | array element => .object (array element).descriptor

private def complain {α : Type} (fault : DescriptorFault) : Except Error α :=
  .error (.malformed (.descriptor fault))

/-- Reads a class name up to its semicolon. `text` starts at the letter `L`. -/
def readClass (text rest : List Char) : Except Error (FieldType × List Char) :=
  match rest.takeWhile (· ≠ ';'), rest.dropWhile (· ≠ ';') with
  | _, [] => complain (.unterminatedClass (String.ofList text))
  | [], _ => complain (.emptyClass (String.ofList text))
  | name, _ :: rest => .ok (object (String.ofList name), rest)

/-- Reads the descriptor at the front of a text and returns what follows it. -/
def read : List Char → Except Error (FieldType × List Char)
  | [] => complain .empty
  | 'B' :: rest => .ok (byte, rest)
  | 'C' :: rest => .ok (char, rest)
  | 'D' :: rest => .ok (double, rest)
  | 'F' :: rest => .ok (float, rest)
  | 'I' :: rest => .ok (int, rest)
  | 'J' :: rest => .ok (long, rest)
  | 'S' :: rest => .ok (short, rest)
  | 'Z' :: rest => .ok (boolean, rest)
  | 'L' :: rest => readClass ('L' :: rest) rest
  | '[' :: rest =>
    match read rest with
    | .ok (element, rest) => .ok (array element, rest)
    | .error e => .error e
  | c :: rest => complain (.character c (String.ofList (c :: rest)))

/-- The type that a whole text describes. -/
def parse (text : String) : Except Error FieldType :=
  match read text.toList with
  | .ok (t, []) => .ok t
  | .ok (_, _ :: _) => complain (.trailing text)
  | .error e => .error e

/-! ### Reading consumes -/

theorem length_readClass_lt {text rest rest' : List Char} {t : FieldType}
    (h : readClass text rest = .ok (t, rest')) : rest'.length < rest.length := by
  have hle : (rest.dropWhile (· ≠ ';')).length ≤ rest.length :=
    (List.dropWhile_sublist _).length_le
  rw [readClass] at h
  split at h
  · simp [complain] at h
  · simp [complain] at h
  · rename_i hs _
    obtain ⟨-, rfl⟩ := by simpa using h
    rw [hs] at hle
    exact hle

theorem length_read_lt {text rest : List Char} {t : FieldType}
    (h : read text = .ok (t, rest)) : rest.length < text.length := by
  fun_induction read text generalizing t with
  | case1 => simp [complain] at h
  | case10 rest' => exact Nat.lt_succ_of_lt (length_readClass_lt h)
  | case11 rest' element rest'' heq ih =>
    obtain ⟨-, rfl⟩ := by simpa using h
    exact Nat.lt_succ_of_lt (ih heq)
  | case12 => simp at h
  | case13 => simp [complain] at h
  | _ =>
    obtain ⟨-, rfl⟩ := by simpa using h
    simp

end FieldType
end ClassPatch
