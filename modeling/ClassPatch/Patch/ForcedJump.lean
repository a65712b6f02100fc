import ClassPatch.Patch.Machine

/-!
# Taking a jump always

A check is disabled by taking the jump behind it whatever it finds. The jump is known by its kind
and by a marker: a string that is pushed before it. Its operand is popped instead of tested.
-/

namespace ClassPatch

/-- What may stand between a marker and its jump. -/
inductive Adjacency
  /-- Anything but other constants and jumps. -/
  | lenient
  /-- Nothing. -/
  | strict
  deriving DecidableEq

/-- The jumps of a kind that follow a marker. -/
structure ForcedJump where
  marker : String
  kind : Jump
  adjacency : Adjacency
  deriving DecidableEq

namespace ForcedJump

/-- What takes the place of a jump to `target`. -/
def code (target : Label) : List Event :=
  [.instr (.plain Opcode.pop), .instr (.jump .goto target)]

/-- The state tells whether the marker has been pushed and a jump may use it. -/
def step (j : ForcedJump) (method : MethodContext) (marked : Bool) (event : Event) :
    PatchM (Bool × List Event) := do
  match event with
  | .instr (.push (.string text)) =>
    if text = j.marker then
      PatchM.note (.markerFound j.marker)
      return (true, [event])
    else
      return (false, [event])
  | .instr (.push _) => return (false, [event])
  | .instr (.jump kind target) =>
    if marked && kind = j.kind then
      PatchM.note (.forcing kind target method.className method.methodName)
      return (false, code target)
    else
      return (false, [event])
  | _ => return (marked && j.adjacency = .lenient, [event])

def machine (j : ForcedJump) (method : MethodContext) : Machine Bool where
  initial := false
  step := j.step method

theorem blind_machine (j : ForcedJump) (method : MethodContext) : (j.machine method).Blind where
  step marked e := by
    change PatchM.Blind (j.step method marked e)
    unfold step
    split
    · exact .ite ((PatchM.Blind.note _).bind fun _ => .pure _) (.pure _)
    · exact .pure _
    · exact .ite ((PatchM.Blind.note _).bind fun _ => .pure _) (.pure _)
    · exact .pure _

end ForcedJump
end ClassPatch
