import ClassPatch.Patch.Machine

/-!
# Guarding the properties of a bean

A loop over the properties of a bean is made to skip those that lead out of the bean. The place
for the guard is found in three steps: a reference is stored, which is the property; the class
that is treated with care is pushed, which opens a window; and a field is read, which closes it.
In between a jump leads on to the next property. The guard is put before the read:

    if (guardedType == type && !(allowedName.equals(p.getName())
        || p.getName().endsWith(allowedSuffix)))
      continue;
    if (p.getPropertyType() != null && (forbidden1.isAssignableFrom(p.getPropertyType())
        || forbidden2.isAssignableFrom(p.getPropertyType())))
      continue;

A jump to a label that is placed inside the window does not leave the comparison and is passed
over. A window in which a forbidden type is pushed has its guard already.
-/

namespace ClassPatch

/-- Which properties are let through. -/
structure PropertyGuard where
  /-- The type of bean whose properties are told apart by name. -/
  guardedType : String
  /-- The field whose read ends the comparison. -/
  triggerField : String
  /-- The slot that holds the type of the bean. -/
  typeSlot : UInt16
  allowedName : String
  allowedSuffix : String
  /-- The types that no property may have. -/
  forbiddenTypes : List String
  deriving DecidableEq

/-- How far the place for a guard has been found. -/
structure GuardSearch where
  /-- The window is open. -/
  inWindow : Bool
  /-- Where the jumps of the window lead. -/
  exits : Array Label
  /-- The labels that the window places. -/
  placed : Array Label
  /-- The slot of the last reference stored before the window. -/
  subject : Option UInt16
  /-- The window pushes a forbidden type. -/
  isGuarded : Bool
  /-- The window is closed for good. -/
  isDone : Bool
  deriving DecidableEq

namespace GuardSearch

def start : GuardSearch where
  inWindow := false
  exits := #[]
  placed := #[]
  subject := none
  isGuarded := false
  isDone := false

/-- No window has been opened yet. -/
def isBefore (s : GuardSearch) : Bool := !s.inWindow && !s.isDone

/-- The first jump that leaves the window. -/
def exit? (s : GuardSearch) : Option Label := s.exits.find? fun l => !s.placed.contains l

/-- The jumps that stay inside the window. -/
def inner (s : GuardSearch) : List Label := s.exits.toList.filter fun l => s.placed.contains l

/-- The search after its window has been closed. -/
def close (s : GuardSearch) : GuardSearch := { s with inWindow := false, isDone := true }

end GuardSearch

namespace PropertyGuard

/-- The class of the objects that describe properties. -/
def descriptorClass : String := "java/beans/PropertyDescriptor"

def call (owner name descriptor : String) : Event :=
  .instr (.invoke .virtual owner name descriptor false)

def getName : Event := call descriptorClass "getName" "()Ljava/lang/String;"

def getPropertyType : Event := call descriptorClass "getPropertyType" "()Ljava/lang/Class;"

def loadReference (slot : UInt16) : Event := .instr (.load .reference slot)

def pushClass (name : String) : Event := .instr (.push (.classRef name))

def jump (kind : Jump) (target : Label) : Event := .instr (.jump kind target)

/-- Skips a bean property of the guarded type unless its name is allowed. -/
def nameCheck (g : PropertyGuard) (subject : UInt16) (exit checks : Label) : List Event :=
  [pushClass g.guardedType, loadReference g.typeSlot, jump (.branch .ifAcmpNe) checks,
   .instr (.push (.string g.allowedName)), loadReference subject, getName,
   call "java/lang/String" "equals" "(Ljava/lang/Object;)Z", jump (.branch .ifNe) checks,
   loadReference subject, getName, .instr (.push (.string g.allowedSuffix)),
   call "java/lang/String" "endsWith" "(Ljava/lang/String;)Z", jump (.branch .ifNe) checks,
   jump .goto exit]

/-- Pushes whether a property has a type or one below it. -/
def typeTest (subject : UInt16) (name : String) : List Event :=
  [pushClass name, loadReference subject, getPropertyType,
   call "java/lang/Class" "isAssignableFrom" "(Ljava/lang/Class;)Z"]

/-- Skips a property of one of the types; the last test falls through to the next code. -/
def typeChecks (subject : UInt16) (exit done : Label) : List String → List Event
  | [] => []
  | [name] => typeTest subject name ++ [jump (.branch .ifEq) done, jump .goto exit]
  | name :: rest =>
    typeTest subject name ++ jump (.branch .ifNe) exit :: typeChecks subject exit done rest

/-- The guard between two labels of its own. -/
def code (g : PropertyGuard) (subject : UInt16) (exit checks done : Label) : List Event :=
  g.nameCheck subject exit checks ++
    [.label checks, loadReference subject, getPropertyType, jump (.branch .ifNull) done] ++
    typeChecks subject exit done g.forbiddenTypes ++ [.label done]

/-- Closes the window at the read of the field and puts the guard before it. -/
def place (g : PropertyGuard) (method : MethodContext) (s : GuardSearch) (event : Event) :
    PatchM (List Event) := do
  if s.isGuarded then
    PatchM.note (.alreadyGuarded method.className method.methodName)
    return [event]
  s.inner.forM fun l => PatchM.note (.exitIgnored l)
  match s.exit?, s.subject with
  | some exit, some subject =>
    PatchM.note (.guarding subject exit method.className method.methodName)
    let checks ← PatchM.fresh
    let done ← PatchM.fresh
    return g.code subject exit checks done ++ [event]
  | _, _ => throw (.noAnchor g.triggerField)

/-- Follows the search over one event. -/
def step (g : PropertyGuard) (method : MethodContext) (s : GuardSearch) (event : Event) :
    PatchM (GuardSearch × List Event) := do
  match event with
  | .label l =>
    return (if s.inWindow then { s with placed := s.placed.push l } else s, [event])
  | .instr (.push (.classRef name)) =>
    if s.isBefore && name = g.guardedType then
      PatchM.note (.typeFound name)
      return ({ s with inWindow := true }, [event])
    else
      return (if s.inWindow && g.forbiddenTypes.contains name then { s with isGuarded := true }
        else s, [event])
  | .instr (.jump .goto target) =>
    if s.inWindow then
      PatchM.note (.exitFound target)
      return ({ s with exits := s.exits.push target }, [event])
    else
      return (s, [event])
  | .instr (.store .reference slot) =>
    return (if s.isBefore then { s with subject := some slot } else s, [event])
  | .instr (.field .getStatic _ name _) =>
    if s.inWindow && name = g.triggerField then
      return (s.close, ← g.place method s event)
    else
      return (s, [event])
  | _ => return (s, [event])

def machine (g : PropertyGuard) (method : MethodContext) : Machine GuardSearch where
  initial := .start
  step := g.step method

theorem blind_place (g : PropertyGuard) (method : MethodContext) (s : GuardSearch) (e : Event) :
    (g.place method s e).Blind := by
  refine .ite ((PatchM.Blind.note _).bind fun _ => .pure _) ?_
  refine (PatchM.Blind.forM (fun _ => .note _) _).bind fun _ => ?_
  split
  · exact (PatchM.Blind.note _).bind fun _ =>
      PatchM.Blind.fresh.bind fun _ => PatchM.Blind.fresh.bind fun _ => .pure _
  · exact .throw _

theorem blind_machine (g : PropertyGuard) (method : MethodContext) : (g.machine method).Blind where
  step s e := by
    change PatchM.Blind (g.step method s e)
    unfold step
    split
    · exact .pure _
    · exact .ite ((PatchM.Blind.note _).bind fun _ => .pure _) (.pure _)
    · exact .ite ((PatchM.Blind.note _).bind fun _ => .pure _) (.pure _)
    · exact .pure _
    · exact .ite ((g.blind_place method s _).bind fun _ => .pure _) (.pure _)
    · exact .pure _

end PropertyGuard
end ClassPatch
