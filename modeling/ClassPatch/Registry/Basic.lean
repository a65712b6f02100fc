import ClassPatch.Patch.Basic
import Std.Data.TreeMap

/-!
# Registries

Patches against one vulnerability form a family, and a family has versions: sets of patches
numbered from zero. Version zero is the empty set, so leaving a family alone is a choice like any
other. A family only grows; a version keeps its number and its patches.
-/

namespace ClassPatch

/-- The patches of one version of a family. -/
structure PatchSet where
  family : String
  version : UInt32
  description : String
  patches : List Patch

/-- The versions of every family. -/
structure Registry where
  families : Std.TreeMap String (Array PatchSet)

namespace Registry

/-- The registry without families. -/
def empty : Registry := ⟨∅⟩

instance : Inhabited Registry := ⟨empty⟩

/-- The version that a family of `count` versions gets next. -/
def nextVersion (count : Nat) : UInt32 := UInt32.ofNat (min count (UInt32.size - 1))

/-- Appends a version to the given ones. -/
def append (r : Registry) (versions : Array PatchSet) (family description : String)
    (patches : List Patch) : Registry :=
  ⟨r.families.insert family
    (versions.push { family, version := nextVersion versions.size, description, patches })⟩

/-- Adds a family; the description is that of its empty version. -/
def addFamily (r : Registry) (family description : String) : Except Error Registry :=
  if family ∈ r.families then
    .error (.invalidConfig (.duplicateFamily family))
  else
    .ok (r.append #[] family description [])

/-- The versions of a family in order. -/
def versions (r : Registry) (family : String) : Except Error (Array PatchSet) :=
  match r.families[family]? with
  | some versions => .ok versions
  | none => .error (.unknownFamily family)

/-- Adds the next version of a family and gives its number. -/
def addVersion (r : Registry) (family description : String) (patches : List Patch) :
    Except Error (Registry × UInt32) := do
  let versions ← r.versions family
  return (r.append versions family description patches, nextVersion versions.size)

/-- The names of the families in order. -/
def familyNames (r : Registry) : List String := r.families.keys

/-- The patches of one version. -/
def patchSet (r : Registry) (family : String) (version : UInt32) : Except Error PatchSet := do
  match (← r.versions family)[version.toNat]? with
  | some set => return set
  | none => throw (.unknownVersion family version)

/-- The highest version of a family. -/
def latestVersion (r : Registry) (family : String) : Except Error UInt32 := do
  return nextVersion ((← r.versions family).size - 1)

/-- The patches of the highest version of a family. -/
def latest (r : Registry) (family : String) : Except Error PatchSet := do
  r.patchSet family (← r.latestVersion family)

end Registry
end ClassPatch
