import ClassPatch.ClassFile.Edit
import ClassPatch.Patch.Pipeline
import ClassPatch.Patch.Target

/-!
# Patches

A patch changes methods of one class. It first plans: every method that its pipeline is for is
read and passes through the stages, and the bodies that change are collected. Only if no method is
rejected are they written into the class, so a class is not changed by half because a pattern is
missing.
-/

namespace ClassPatch

/-- A change of the methods of one class. -/
structure Patch where
  /-- Names the patch in notices and configurations. -/
  name : String
  description : String
  target : ClassTarget
  pipeline : Pipeline

/-- A method with its new body. -/
structure MethodEdit where
  index : Nat
  name : String
  body : Body

/-- What a patch is going to do to a class. -/
inductive Plan
  | edit (edits : List MethodEdit)
  | reject (methodName : String) (cause : Mismatch)

/-- What a patch did to a class. -/
inductive Outcome
  /-- The methods of these names were changed. -/
  | patched (methods : List String)
  | unchanged
  | rejected (methodName : String) (cause : Mismatch)
  deriving DecidableEq

/-- The end of an attempt to patch a class. -/
structure Application where
  outcome : Except Error Outcome
  classFile : ClassFile
  log : Log

namespace Patch

/-- The name is that of the class to patch. -/
def isFor (p : Patch) (className : String) : Bool := p.target.isNamed className

/-- The body with the events that the pipeline makes of it, or why it is rejected. -/
def patchBody (p : Patch) (method : MethodContext) (body : Body) : LogM (Except Mismatch Body) :=
  fun log =>
    match (p.pipeline.run method body.events).run ⟨body.labels, log⟩ with
    | .ok events r => .ok (.ok { body with events, labels := r.labels }) r.log
    | .error cause r => .ok (.error cause) r.log

/-- Plans for the methods at the given positions, behind the reversed list `edits`. -/
def planFrom (p : Patch) (c : ClassFile) (edits : List MethodEdit) : List Nat → LogM Plan
  | [] => return .edit edits.reverse
  | index :: rest => do
    let method ← LogM.ofExcept (c.methodContext index)
    if p.pipeline.targets method.methodName then
      match ← LogM.ofExcept (c.methodBody index) with
      | none => planFrom p c edits rest
      | some body =>
        match ← p.patchBody method body with
        | .ok changed =>
          if changed.events == body.events then
            planFrom p c edits rest
          else
            planFrom p c (⟨index, method.methodName, changed⟩ :: edits) rest
        | .error cause =>
          LogM.note (.mismatch p.name method.className method.methodName cause)
          return .reject method.methodName cause
    else
      planFrom p c edits rest

/-- What the patch is going to do. -/
def plan (p : Patch) (c : ClassFile) : LogM Plan :=
  p.planFrom c [] (List.range c.methods.size)

/-- Writes the new bodies into the class. -/
def carryOut (edits : List MethodEdit) : ClassEdit Unit :=
  edits.forM fun edit => ClassFile.setBody edit.index edit.body

/-- Patches a class. -/
def apply (p : Patch) (c : ClassFile) (log : Log) : Application :=
  match (p.plan c).run log with
  | .error e log => ⟨.error e, c, log⟩
  | .ok (.reject methodName cause) log => ⟨.ok (.rejected methodName cause), c, log⟩
  | .ok (.edit []) log => ⟨.ok .unchanged, c, log⟩
  | .ok (.edit edits) log =>
    match (carryOut edits).run c with
    | .ok _ c => ⟨.ok (.patched (edits.map (·.name))), c, log⟩
    | .error e c => ⟨.error e, c, log⟩

end Patch
end ClassPatch
