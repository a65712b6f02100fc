import ClassPatch.Patch.Machine

/-!
# Returning a constant

The code of a method is replaced as a whole: a constant is pushed and returned. Labels stay in
place, because tables of the method refer to them; every other event is removed.
-/

namespace ClassPatch

/-- The constant that a method returns and the kind that it is returned as. -/
structure ConstantResult where
  value : Value
  kind : Option ValueKind
  deriving DecidableEq

namespace ConstantResult

/-- A method that returns a string. -/
def ofString (text : String) : ConstantResult := ⟨.string text, some .reference⟩

/-- The new code. -/
def code (r : ConstantResult) : List Event :=
  [.instr (.push r.value), .instr (.leave r.kind)]

/-- The new code takes the place of the first instruction. The state tells whether it is there. -/
def step (r : ConstantResult) (method : MethodContext) (placed : Bool) (event : Event) :
    PatchM (Bool × List Event) := do
  if event.isLabel then
    return (placed, [event])
  else if placed then
    return (true, [])
  else
    PatchM.note (.replacing method.className method.methodName)
    return (true, r.code)

def machine (r : ConstantResult) (method : MethodContext) : Machine Bool where
  initial := false
  step := r.step method

theorem blind_machine (r : ConstantResult) (method : MethodContext) : (r.machine method).Blind where
  step _ _ := .ite (.pure _) (.ite (.pure _) ((PatchM.Blind.note _).bind fun _ => .pure _))

end ConstantResult
end ClassPatch
