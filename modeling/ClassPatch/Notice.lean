import ClassPatch.Code.Jump
import ClassPatch.Error

/-!
# Notices

Patching reports what it finds and does. A notice never influences a result; it is collected in
order, and only `Notice.message` fixes its wording.
-/

namespace ClassPatch

/-- Why a method is rejected: what a machine looks for in vain. -/
inductive Mismatch
  /-- Neither a jump to continue with nor a value to test precedes the read of the field. -/
  | noAnchor (field : String)
  /-- What a transform of another kind says. -/
  | other (reason : String)
  deriving DecidableEq

/-- What is missing. -/
def Mismatch.reason : Mismatch → String
  | .noAnchor field => "no loop-continue label or subject slot before getstatic " ++ field
  | .other reason => reason

def Mismatch.message (cause : Mismatch) : String := "pattern not matched: " ++ cause.reason

/-- How a class reaches the patches. -/
inductive ClassEvent
  | load
  | redefine
  deriving DecidableEq

def ClassEvent.shown : ClassEvent → String
  | load => "Load"
  | redefine => "Redefine"

/-- Something worth reporting. -/
inductive Notice
  | replacing (className methodName : String)
  | markerFound (marker : String)
  | forcing (kind : Jump) (target : Label) (className methodName : String)
  | typeFound (className : String)
  | exitFound (target : Label)
  | alreadyGuarded (className methodName : String)
  | exitIgnored (target : Label)
  | guarding (subject : UInt16) (exit : Label) (className methodName : String)
  /-- What a transform of another kind says. -/
  | remark (text : String)
  | mismatch (patch className methodName : String) (cause : Mismatch)
  | transforming (className patch : String)
  | patched (className : String) (methods : List String) (patch : String)
  | unchanged (className patch : String)
  | failed (className : String) (error : Error)
  | alreadyApplied (family : String) (version : UInt32)
  | disabled (patch : String)
  | loading (patch : String)
  | nothingPending
  | matched (event : ClassEvent) (className patch : String)
  | noTargets
  | recorded (family : String) (version : UInt32)

/-- The text of a notice. -/
def Notice.message : Notice → String
  | replacing className methodName =>
    s!"Replacing {className}::{methodName} with a constant return"
  | markerFound marker => "Found ldc " ++ marker
  | forcing kind target className methodName =>
    "Changing " ++ kind.mnemonic ++ " to goto " ++ target.shown ++ s!" in {className}::{methodName}"
  | typeFound className => s!"Found 'ldc class {className}'"
  | exitFound target => "Found the GOTO for the continue: " ++ target.shown
  | alreadyGuarded className methodName => s!"{className}::{methodName} is already guarded"
  | exitIgnored target =>
    "Ignoring the GOTO to " ++ target.shown ++ ", it stays inside the compare"
  | guarding subject target className methodName =>
    s!"Injecting guard on slot {subject} continuing at " ++ target.shown ++
      s!" in {className}::{methodName}"
  | remark text => text
  | mismatch patch className methodName cause =>
    s!"Patch {patch} not applied to {className}::{methodName}: " ++ cause.message
  | transforming className patch => s!"Transforming {className} with patch {patch}"
  | patched className methods patch =>
    s!"Patched {className}::" ++ String.intercalate ", " methods ++ s!" with patch {patch}"
  | unchanged className patch => s!"{className} left unchanged by patch {patch}"
  | failed className error => s!"Failed to transform {className}: " ++ error.report
  | alreadyApplied family version =>
    s!"Skipping {family} patches, patch version {version} already applied"
  | disabled patch => s!"Patch {patch} is disabled"
  | loading patch => s!"Loading patch {patch}"
  | nothingPending => "Info: hot patch agent already loaded"
  | matched event className patch => event.shown ++ s!" {className} matched by patch {patch}"
  | noTargets =>
    "Vulnerable classes were not found. This agent will continue to run and transform the " ++
      "vulnerable class if it is loaded. Note that if you have shaded or otherwise changed the " ++
      "package name for the target classes, then this tool may not find them."
  | recorded family version => s!"Recorded {family} patch version {version}"

/-- Notices in the order in which they were given. -/
abbrev Log := Array Notice

/-- A computation that may fail and gives notices, which are kept when it fails. -/
abbrev LogM (α : Type) := EStateM Error Log α

namespace LogM

def note (notice : Notice) : LogM Unit := modify (·.push notice)

/-- A result that gives no notice. -/
def ofExcept {α : Type} : Except Error α → LogM α
  | .ok x => return x
  | .error e => throw e

end LogM
end ClassPatch
