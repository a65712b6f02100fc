import ClassPatch.Bytes.Word
import ClassPatch.Text.Shown

/-!
# Constants

The entries of a constant pool in the shape in which they are stored: references to other entries
stay indices, text stays bytes, and floating-point numbers stay bit patterns. Equality of
constants is therefore equality of their stored form.
-/

namespace ClassPatch

/-- What a member reference refers to. -/
inductive MemberKind
  | field
  | method
  | interfaceMethod
  deriving DecidableEq

/-- One entry of a constant pool. -/
inductive Constant
  | utf8 (bytes : Bytes)
  | integer (value : Int32)
  | float (bits : UInt32)
  | long (value : Int64)
  | double (bits : UInt64)
  | classRef (name : UInt16)
  | string (text : UInt16)
  | member (kind : MemberKind) (owner signature : UInt16)
  | nameAndType (name descriptor : UInt16)
  | methodHandle (kind : UInt8) (reference : UInt16)
  | methodType (descriptor : UInt16)
  | dynamic (bootstrap signature : UInt16)
  | invokeDynamic (bootstrap signature : UInt16)
  | moduleName (name : UInt16)
  | packageName (name : UInt16)
  deriving DecidableEq

namespace Constant

/-- The tag of an entry. -/
def tag : Constant → UInt8
  | .utf8 _ => 1
  | .integer _ => 3
  | .float _ => 4
  | .long _ => 5
  | .double _ => 6
  | .classRef _ => 7
  | .string _ => 8
  | .member .field _ _ => 9
  | .member .method _ _ => 10
  | .member .interfaceMethod _ _ => 11
  | .nameAndType _ _ => 12
  | .methodHandle _ _ => 15
  | .methodType _ => 16
  | .dynamic _ _ => 17
  | .invokeDynamic _ _ => 18
  | .moduleName _ => 19
  | .packageName _ => 20

/-- What follows the tag. -/
def payload : Constant → Bytes
  | .utf8 bytes => Word.encode (UInt16.ofNat bytes.length) ++ bytes
  | .integer value => Word.encode value
  | .float bits => Word.encode bits
  | .long value => Word.encode value
  | .double bits => Word.encode bits
  | .classRef index | .string index | .methodType index | .moduleName index
  | .packageName index => Word.encode index
  | .member _ first second | .nameAndType first second | .dynamic first second
  | .invokeDynamic first second => Word.encode first ++ Word.encode second
  | .methodHandle kind reference => Word.encode kind ++ Word.encode reference

/-- Constants are ordered by their tag and what follows it. -/
instance : Ord Constant := ⟨compareOn fun c => c.tag :: c.payload⟩

instance : Std.TransOrd Constant :=
  inferInstanceAs (Std.TransCmp (compareOn fun c : Constant => c.tag :: c.payload))

/-- A `long` or `double` takes two indices; the second is unusable. -/
def isWide : Constant → Bool
  | .long _ | .double _ => true
  | _ => false

/-- The number of indices an entry takes. -/
def width (c : Constant) : Nat := if c.isWide then 2 else 1

def isUtf8 : Constant → Bool
  | .utf8 _ => true
  | _ => false

def isClassRef : Constant → Bool
  | .classRef _ => true
  | _ => false

def isNameAndType : Constant → Bool
  | .nameAndType _ _ => true
  | _ => false

def isMember : Constant → Bool
  | .member _ _ _ => true
  | _ => false

/-- An entry with named parts. -/
private def shownParts (title : String) (parts : List (String × Nat)) : String :=
  title ++ " \x7b " ++
    String.intercalate ", " (parts.map fun (name, value) => name ++ ": " ++ toString value) ++
    " \x7d"

/-- An entry with one part. -/
private def shownPart (title part : String) : String := title ++ "(" ++ part ++ ")"

/-- The title of a member reference in messages. -/
def memberTitle : MemberKind → String
  | .field => "FieldRef"
  | .method => "MethodRef"
  | .interfaceMethod => "InterfaceMethodRef"

/-- An entry as messages show it. -/
def shown : Constant → String
  | .utf8 bytes => shownPart "Utf8" (Text.bracket (bytes.map fun b => toString b.toNat))
  | .integer value => shownPart "Integer" (toString value.toInt)
  | .float bits => shownPart "Float" (toString bits.toNat)
  | .long value => shownPart "Long" (toString value.toInt)
  | .double bits => shownPart "Double" (toString bits.toNat)
  | .classRef name => shownPart "Class" (toString name.toNat)
  | .string text => shownPart "String" (toString text.toNat)
  | .member kind owner signature =>
    shownParts (memberTitle kind) [("class", owner.toNat), ("name_and_type", signature.toNat)]
  | .nameAndType name descriptor =>
    shownParts "NameAndType" [("name", name.toNat), ("descriptor", descriptor.toNat)]
  | .methodHandle kind reference =>
    shownParts "MethodHandle" [("kind", kind.toNat), ("reference", reference.toNat)]
  | .methodType descriptor => shownPart "MethodType" (toString descriptor.toNat)
  | .dynamic bootstrap signature =>
    shownParts "Dynamic" [("bootstrap", bootstrap.toNat), ("name_and_type", signature.toNat)]
  | .invokeDynamic bootstrap signature =>
    shownParts "InvokeDynamic" [("bootstrap", bootstrap.toNat), ("name_and_type", signature.toNat)]
  | .moduleName name => shownPart "Module" (toString name.toNat)
  | .packageName name => shownPart "Package" (toString name.toNat)

end Constant
end ClassPatch
