import ClassPatch.Text.Shown

/-!
# Labels and verification types

A `Label` names a position in a method body. Verification types are the types that the class
verifier tracks for locals and stack values; the result of a `new` is known by the label in front
of that instruction until its constructor has run.
-/

namespace ClassPatch

/-- A symbolic position in a method body. -/
structure Label where
  id : UInt32
  deriving DecidableEq, Hashable

/-- Labels are ordered by their numbers. -/
instance : Ord Label := ⟨compareOn Label.id⟩

instance : Std.TransOrd Label := inferInstanceAs (Std.TransCmp (compareOn Label.id))

instance : Std.LawfulEqOrd Label where
  eq_of_compare {a b} h := by
    have hid : a.id = b.id := Std.LawfulEqOrd.eq_of_compare h
    cases a
    cases b
    simpa using hid

/-- A label as messages show it. -/
def Label.shown (l : Label) : String := "L" ++ toString l.id.toNat

/-- The type of a local variable or of an operand on the stack. -/
inductive VerificationType
  | top
  | integer
  | float
  | long
  | double
  | null
  | uninitializedThis
  | object (name : String)
  | uninitialized (site : Label)
  deriving DecidableEq

namespace VerificationType

instance : Inhabited VerificationType := ⟨top⟩

/-- `long` and `double` take two words. -/
def isWide : VerificationType → Bool
  | .long | .double => true
  | _ => false

def isReference : VerificationType → Bool
  | .null | .uninitializedThis | .object _ | .uninitialized _ => true
  | _ => false

/-- A type as messages show it. -/
def shown : VerificationType → String
  | .top => "Top"
  | .integer => "Integer"
  | .float => "Float"
  | .long => "Long"
  | .double => "Double"
  | .null => "Null"
  | .uninitializedThis => "UninitializedThis"
  | .object name => "Object(" ++ Text.quote name ++ ")"
  | .uninitialized site => "Uninitialized(Label(" ++ toString site.id.toNat ++ "))"

/-- The words of a list of values: the second word of a wide value holds `top`. -/
def toSlots (types : List VerificationType) : List VerificationType :=
  types.flatMap fun t => if t.isWide then [t, top] else [t]

/-- The values in a list of words: the word after a wide one belongs to it. -/
def ofSlots (slots : List VerificationType) : List VerificationType :=
  (slots.foldl
    (fun (types, upperHalf) t => if upperHalf then (types, false) else (t :: types, t.isWide))
    ([], false)).1.reverse

/-- A list without the `top` types at its end. -/
def dropTrailingTops (types : List VerificationType) : List VerificationType :=
  (types.reverse.dropWhile (· = top)).reverse

end VerificationType
end ClassPatch
