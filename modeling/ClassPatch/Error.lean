import ClassPatch.Fault

/-!
# Errors

An operation on a class fails because its bytes are malformed or truncated, because it uses
something that cannot be patched, because a limit of the format is reached, or because the
registry or the configuration was asked for what does not exist. `Error.kind` keeps of this only
what a host has to know.
-/

namespace ClassPatch

/-- A limit of the class file format, with the count that exceeds it. -/
inductive Limit
  | utf8Length (count : Nat)
  | poolEntries (count : Nat)
  | poolFull
  | attributeLength (count : Nat)
  | attributes (count : Nat)
  | interfaces (count : Nat)
  | fields (count : Nat)
  | methods (count : Nat)
  | codeLength (count : Nat) (className methodName : String)
  | maxStack (count : Nat)
  | maxLocals (count : Nat)
  | displacement (distance : Int)
  | switchCases (count : Nat)
  | interfaceArguments (count : Nat)
  | handlers (count : Nat)
  | lines (count : Nat)
  | localVariables (count : Nat)
  | frames (count : Nat)
  | frameDelta (delta : Nat)
  | frameLocals (count : Nat)
  | frameStack (count : Nat)
  | uninitializedOffset (offset : Nat)

/-- Valid input that cannot be processed. -/
inductive Unsupported
  | unpairedSurrogate
  | unlabeledNew (className : String)

/-- A configuration that cannot be understood. -/
inductive ConfigFault
  | boolean (token : String)
  | unnamedPatch (token : String)
  | option (token : String)
  | version (text family : String)
  | unknownFamily (family : String)
  | duplicateFamily (family : String)

/-- Why an operation failed. -/
inductive Error
  | malformed (fault : Fault)
  | outOfBounds
  | notSupported (cause : Unsupported)
  | undefinedLabel (label : Label)
  | duplicateLabel (label : Label)
  | limitExceeded (limit : Limit)
  | unknownFamily (family : String)
  | unknownVersion (family : String) (version : UInt32)
  | invalidConfig (fault : ConfigFault)

/-- The classes of error that a host tells apart. -/
inductive ErrorKind
  | malformedBinary
  | unsupported
  | unknownVersion
  | configuration
  deriving DecidableEq

def Limit.message : Limit → String
  | .utf8Length count => s!"Utf8 constant of {count} bytes"
  | .poolEntries count => s!"{count} constant pool entries"
  | .poolFull => "constant pool is full (65535 entries)"
  | .attributeLength count => s!"attribute of {count} bytes"
  | .attributes count => s!"{count} attributes"
  | .interfaces count => s!"{count} interfaces"
  | .fields count => s!"{count} fields"
  | .methods count => s!"{count} methods"
  | .codeLength count className methodName => s!"code length {count} in {className}.{methodName}"
  | .maxStack count => s!"max_stack {count}"
  | .maxLocals count => s!"max_locals {count}"
  | .displacement distance => s!"branch displacement {distance}"
  | .switchCases count => s!"{count} switch cases"
  | .interfaceArguments count => s!"{count} interface call arguments"
  | .handlers count => s!"{count} exception handlers"
  | .lines count => s!"{count} line numbers"
  | .localVariables count => s!"{count} local variables"
  | .frames count => s!"stack map frame count {count}"
  | .frameDelta delta => s!"stack map offset delta {delta}"
  | .frameLocals count => s!"frame locals {count}"
  | .frameStack count => s!"frame stack {count}"
  | .uninitializedOffset offset => s!"uninitialized offset {offset}"

def Unsupported.message : Unsupported → String
  | .unpairedSurrogate => "Utf8 constant with unpaired surrogate"
  | .unlabeledNew className => s!"new {className} without a preceding label"

def ConfigFault.message : ConfigFault → String
  | .boolean token => s!"'{token}' expects true or false"
  | .unnamedPatch token => s!"'{token}' names no patch"
  | .option token => s!"unknown option '{token}'"
  | .version text family => s!"'{text}' is not a version of {family}"
  | .unknownFamily family => s!"unknown patch family '{family}'"
  | .duplicateFamily family => s!"patch family '{family}' is already registered"

namespace Error

def kind : Error → ErrorKind
  | .malformed _ | .outOfBounds => .malformedBinary
  | .notSupported _ | .undefinedLabel _ | .duplicateLabel _ | .limitExceeded _ => .unsupported
  | .unknownFamily _ | .unknownVersion _ _ => .unknownVersion
  | .invalidConfig _ => .configuration

/-- The text of an error. A malformed class is described by its fault alone. -/
def message : Error → String
  | .malformed fault => fault.message
  | .outOfBounds => "Out of Bound read would have occurred!"
  | .notSupported cause => "Not supported - " ++ cause.message
  | .undefinedLabel label => "Label " ++ toString label.id ++ " is referenced but never placed"
  | .duplicateLabel label => "Label " ++ toString label.id ++ " is placed more than once"
  | .limitExceeded limit => "Limit exceeded - " ++ limit.message
  | .unknownFamily family => s!"Unknown patch family '{family}'"
  | .unknownVersion family version => s!"Unknown version {version} for patch family '{family}'"
  | .invalidConfig fault => "Invalid configuration - " ++ fault.message

/-- The text of an error inside a longer line, where a fault is announced as one. -/
def report : Error → String
  | .malformed fault => "Malformed - " ++ fault.message
  | error => error.message

end Error
end ClassPatch
