import ClassPatch.Registry.Basic

/-!
# The families that are always known

`log4j` stops a lookup in naming services, by which a logged text could load classes. `spring`
keeps the binding of request parameters away from class loaders, either by hiding all properties
of classes or by letting through only those that look like names.
-/

namespace ClassPatch.Registry

/-- The lookup returns a fixed text. -/
def noLookup : Patch where
  name := "Log4j2_NoJndiLookup"
  description := "Disable JNDI lookups in log4j2"
  target := .ofName "org.apache.logging.log4j.core.lookup.JndiLookup"
  pipeline := [.mk "lookup" (.constantResult (.ofString "Patched JndiLookup::lookup()"))]

/-- The class that lists the properties of beans. -/
def introspection : ClassTarget := .ofName "org.springframework.beans.CachedIntrospectionResults"

def introspectionPatch : String := "Spring_2022-22965"

/-- The check for class loaders skips every property. -/
def noClassAccess : Patch where
  name := introspectionPatch
  description := "Fix CVE-2022-22965 (Spring4Shell) blocking all class access"
  target := introspection
  pipeline := [.mk "<init>" (.forcedJump ⟨"classLoader", .branch .ifNe, .lenient⟩)]

/-- The guard that keeps the names of classes and hides what leads to a class loader. -/
def nameGuard : PropertyGuard where
  guardedType := "java/lang/Class"
  triggerField := "logger"
  typeSlot := 1
  allowedName := "name"
  allowedSuffix := "Name"
  forbiddenTypes := ["java/lang/ClassLoader", "java/security/ProtectionDomain"]

/-- Only the names of classes can be reached. -/
def onlyClassNames : Patch where
  name := introspectionPatch
  description := "Fix CVE-2022-22965 (Spring4Shell) blocking all class access except class.name"
  target := introspection
  pipeline := [.mk "<init>" (.propertyGuard nameGuard)]

/-- Adds a family with its versions from zero, each with a description. -/
def withFamily (r : Registry) (family : String) (versions : List (String × List Patch)) :
    Registry :=
  ⟨r.families.insert family (versions.zipIdx.map fun ((description, patches), count) =>
    { family, version := nextVersion count, description, patches }).toArray⟩

/-- The registry of all families that are always known. -/
def builtin : Registry :=
  (empty.withFamily "log4j"
    [("Apply no patches related to log4j", []), (noLookup.description, [noLookup])]).withFamily
    "spring"
    [("Apply no patches related to spring", []), (noClassAccess.description, [noClassAccess]),
     (onlyClassNames.description, [onlyClassNames])]

end ClassPatch.Registry
