import ClassPatch.Bytes.Word

/-!
# Access flags

The properties of a class, field or method are the bits of one word. What a bit means depends on
whose it is; bits without a meaning are kept.
-/

namespace ClassPatch

/-- The flags of a class, field or method. -/
structure AccessFlags where
  bits : UInt16
  deriving DecidableEq

namespace AccessFlags

/-- All bits of `mask` are set. -/
def contains (flags : AccessFlags) (mask : UInt16) : Bool := flags.bits &&& mask = mask

/-- The flag of members that belong to the class and not to its objects. -/
def static : UInt16 := 0x0008

/-- The flags of a class, lowest bit first. -/
def ofClass : List (String × UInt16) :=
  [("PUBLIC", 0x0001), ("FINAL", 0x0010), ("SUPER", 0x0020), ("INTERFACE", 0x0200),
   ("ABSTRACT", 0x0400), ("SYNTHETIC", 0x1000), ("ANNOTATION", 0x2000), ("ENUM", 0x4000),
   ("MODULE", 0x8000)]

/-- The flags of a field, lowest bit first. -/
def ofField : List (String × UInt16) :=
  [("PUBLIC", 0x0001), ("PRIVATE", 0x0002), ("PROTECTED", 0x0004), ("STATIC", static),
   ("FINAL", 0x0010), ("VOLATILE", 0x0040), ("TRANSIENT", 0x0080), ("SYNTHETIC", 0x1000),
   ("ENUM", 0x4000)]

/-- The flags of a method, lowest bit first. -/
def ofMethod : List (String × UInt16) :=
  [("PUBLIC", 0x0001), ("PRIVATE", 0x0002), ("PROTECTED", 0x0004), ("STATIC", static),
   ("FINAL", 0x0010), ("SYNCHRONIZED", 0x0020), ("BRIDGE", 0x0040), ("VARARGS", 0x0080),
   ("NATIVE", 0x0100), ("ABSTRACT", 0x0400), ("STRICT", 0x0800), ("SYNTHETIC", 0x1000)]

/-- The names that a table gives to the flags that are set, in its order. -/
def names (table : List (String × UInt16)) (flags : AccessFlags) : List String :=
  (table.filter fun (_, bit) => flags.contains bit).map (·.1)

/-- A public class whose super calls are resolved in the usual way. -/
def publicClass : AccessFlags := ⟨0x0021⟩

end AccessFlags
end ClassPatch
