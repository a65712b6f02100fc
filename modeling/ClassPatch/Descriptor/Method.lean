import ClassPatch.Descriptor.FieldType

/-!
# Method descriptors

A method descriptor lists the parameter types between parentheses, and behind them the type of
the result or `V` where there is none.
-/

namespace ClassPatch

/-- The parameters of a method and its result, if it has one. -/
structure MethodDescriptor where
  parameters : List FieldType
  result : Option FieldType
  deriving DecidableEq

namespace MethodDescriptor

/-- Reads parameters up to the closing parenthesis, behind the reversed list `before`. -/
def readParameters (before : List FieldType) (text : List Char) :
    Except Error (List FieldType × List Char) :=
  match text with
  | ')' :: rest => .ok (before.reverse, rest)
  | text =>
    match _h : FieldType.read text with
    | .ok (t, rest) => readParameters (t :: before) rest
    | .error e => .error e
termination_by text.length
decreasing_by exact FieldType.length_read_lt (by assumption)

/-- The result type behind the parameters. -/
def readResult : List Char → Except Error (Option FieldType)
  | ['V'] => .ok none
  | text => some <$> FieldType.parse (String.ofList text)

/-- The descriptor that a whole text spells. -/
def parse (text : String) : Except Error MethodDescriptor :=
  match text.toList with
  | '(' :: rest => do
    let (parameters, rest) ← readParameters [] rest
    return { parameters, result := ← readResult rest }
  | _ => .error (.malformed (.descriptor (.noParameterList text)))

/-- The descriptor as text. -/
def descriptor (d : MethodDescriptor) : String :=
  String.ofList ('(' :: d.parameters.flatMap FieldType.chars ++
    ')' :: (d.result.map FieldType.chars).getD ['V'])

/-- The words that the parameters take, counted in 16 bits. -/
def parameterSlots (d : MethodDescriptor) : UInt16 :=
  d.parameters.foldl (fun count t => count + UInt16.ofNat t.slots) 0

end MethodDescriptor
end ClassPatch
