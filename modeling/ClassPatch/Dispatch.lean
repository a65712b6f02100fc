import ClassPatch.ClassFile.Codec
import ClassPatch.Config

/-!
# Dispatching classes to patches

A class is offered by name and bytes. The first patch that is for it is applied; a class that no
patch is for is not even read. A host does not see why a class cannot be processed, only what
kind of error it is, and keeps the bytes it has.
-/

namespace ClassPatch

/-- What becomes of the bytes of a class. -/
inductive Replacement
  | unchanged
  | replaced (bytes : Bytes)

/-- What a host is told about a class. -/
inductive HostAnswer
  | unchanged
  | replaced (bytes : Bytes)
  | failed (kind : ErrorKind)

def HostAnswer.ofExcept : Except Error Replacement → HostAnswer
  | .ok .unchanged => unchanged
  | .ok (.replaced bytes) => replaced bytes
  | .error e => failed e.kind

/-- The patches in the order in which they are tried. -/
structure Dispatcher where
  patches : List Patch

namespace Dispatcher

/-- The patches that a configuration enables. -/
def ofConfig (config : Config) (registry : Registry) : Except Error Dispatcher := do
  return ⟨← config.enabledPatches registry⟩

/-- The patch for a class. -/
def find? (d : Dispatcher) (className : String) : Option Patch :=
  d.patches.find? fun p => p.isFor className

/-- Some patch is for the class. -/
def isTarget (d : Dispatcher) (className : String) : Bool := (d.find? className).isSome

/-- Applies a patch to the bytes of a class. -/
def patchBytes (p : Patch) (className : String) (bytes : Bytes) : LogM Replacement := do
  LogM.note (.transforming className p.name)
  let c ← LogM.ofExcept (ClassFile.ofBytes bytes)
  let application := p.apply c (← get)
  set application.log
  match ← LogM.ofExcept application.outcome with
  | .patched methods =>
    LogM.note (.patched className methods p.name)
    return .replaced (← LogM.ofExcept application.classFile.toBytes)
  | .unchanged | .rejected _ _ =>
    LogM.note (.unchanged className p.name)
    return .unchanged

/-- Applies the patch for a class. -/
def apply (d : Dispatcher) (className : String) (bytes : Bytes) : LogM Replacement :=
  match d.find? className with
  | none => return .unchanged
  | some p => patchBytes p className bytes

/-- Applies the patch for a class and notes a failure. -/
def transform (d : Dispatcher) (className : String) (bytes : Bytes) : StateM Log HostAnswer :=
  fun log =>
    match (d.apply className bytes).run log with
    | .ok replacement log => (.ofExcept (.ok replacement), log)
    | .error e log => (.ofExcept (.error e), log.push (.failed className e))

/-- Transforms classes independently of each other. -/
def transformAll (d : Dispatcher) (classes : List (String × Bytes)) :
    StateM Log (List HostAnswer) :=
  classes.mapM fun (className, bytes) => d.transform className bytes

end Dispatcher
end ClassPatch
