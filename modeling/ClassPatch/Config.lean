import ClassPatch.Registry.Basic
import ClassPatch.Text.Blank
import ClassPatch.Text.Decimal
import Std.Data.TreeSet

/-!
# Configurations

A configuration says which version of each family to apply, which patches to leave out, and
whether to report. It is written as words between commas or blanks:

    --verbose                       report
    --quiet                         do not report, whatever else is asked for
    --log4jFixerVerbose=true        report, or with `false` do not
    --disable-Name                  leave out the patch of this name
    family=2                        apply this version of a family

Without words it asks for reports. Of several words for the same thing the last one counts, and a
family without a word has its latest version applied.
-/

namespace ClassPatch

/-- What one word of a configuration asks for. -/
inductive Setting
  | reporting (on : Bool)
  | quiet
  | disable (patch : String)
  | version (family : String) (version : UInt32)
  deriving DecidableEq

namespace Setting

/-- Asks for reports in the same way as other agents of the host do. -/
def reportingFlag : String := "--log4jFixerVerbose="

def disableFlag : String := "--disable-"

/-- A word that selects a version: the text before and behind the first equals sign. -/
def splitAssignment (word : List Char) : Option (List Char × List Char) :=
  match word.span (· ≠ '=') with
  | (family, _ :: text) => some (family, text)
  | (_, []) => none

/-- The setting that a version is selected with. -/
def readAssignment (word : List Char) : Except ConfigFault Setting :=
  match splitAssignment word with
  | none => .error (.option (String.ofList word))
  | some (family, text) =>
    if family.isEmpty || family.head? = some '-' then
      .error (.option (String.ofList word))
    else
      match Text.Decimal.readUInt32 text with
      | some n => .ok (version (String.ofList family) n)
      | none => .error (.version (String.ofList text) (String.ofList family))

/-- The setting that a word writes. -/
def read (word : List Char) : Except ConfigFault Setting :=
  if word = "--verbose".toList then .ok (reporting true)
  else if word = "--quiet".toList then .ok quiet
  else
    match reportingFlag.toList.isPrefixOf? word with
    | some value =>
      if value = "true".toList then .ok (reporting true)
      else if value = "false".toList then .ok (reporting false)
      else .error (.boolean (String.ofList word))
    | none =>
      match disableFlag.toList.isPrefixOf? word with
      | some [] => .error (.unnamedPatch (String.ofList word))
      | some name => .ok (disable (String.ofList name))
      | none => readAssignment word

end Setting

/-- What to apply and whether to report. -/
structure Config where
  verbose : Bool
  /-- The names of the patches to leave out. -/
  disabled : Std.TreeSet String
  /-- The selected versions by family. -/
  versions : Std.TreeMap String UInt32

namespace Config

/-- The configuration without words. -/
def default : Config := ⟨true, ∅, ∅⟩

instance : Inhabited Config := ⟨default⟩

/-- The configuration with one more setting; quietness is left to `ofSettings`. -/
def add (config : Config) : Setting → Config
  | .reporting on => { config with verbose := on }
  | .quiet => config
  | .disable patch => { config with disabled := config.disabled.insert patch }
  | .version family n => { config with versions := config.versions.insert family n }

/-- The configuration with the given settings. -/
def ofSettings (settings : List Setting) : Config :=
  let config := settings.foldl add { default with verbose := settings.isEmpty }
  if settings.contains .quiet then { config with verbose := false } else config

/-- The words of a configuration. -/
def words (text : String) : List (List Char) :=
  Text.words (fun c => c == ',' || Text.isBlank c) text.toList

/-- The configuration that a text writes. -/
def read (text : String) : Except Error Config :=
  match (words text).mapM Setting.read with
  | .ok settings => .ok (ofSettings settings)
  | .error fault => .error (.invalidConfig fault)

/-- The word that asks for the same reporting. -/
def reportingWord (config : Config) : String :=
  Setting.reportingFlag ++ if config.verbose then "true" else "false"

def isDisabled (config : Config) (patch : String) : Bool := config.disabled.contains patch

/-- The version of a family to apply: the selected or the latest one. -/
def version (config : Config) (registry : Registry) (family : String) : Except Error UInt32 :=
  match config.versions[family]? with
  | some n => .ok n
  | none => registry.latestVersion family

/-- The sets to apply, one for each family in order. Every selected family must be known. -/
def enabledSets (config : Config) (registry : Registry) : Except Error (List PatchSet) :=
  match config.versions.keys.find? fun family => !registry.families.contains family with
  | some family => .error (.invalidConfig (.unknownFamily family))
  | none => registry.familyNames.mapM fun family => do
    registry.patchSet family (← config.version registry family)

/-- The patches to apply. -/
def enabledPatches (config : Config) (registry : Registry) : Except Error (List Patch) := do
  let sets ← config.enabledSets registry
  return (sets.flatMap (·.patches)).filter fun p => !config.isDisabled p.name

end Config
end ClassPatch
