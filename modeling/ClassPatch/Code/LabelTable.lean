import ClassPatch.Code.Body
import ClassPatch.Error
import Std.Data.TreeMap
import Std.Data.TreeSet

/-!
# Labels for offsets

The offsets that something refers to get labels in increasing order, numbered from zero. Each has
to be where an instruction begins or where the code ends.
-/

namespace ClassPatch

/-- The labelled offsets of a method, in increasing order. -/
structure LabelTable where
  offsets : List Nat
  labels : Std.TreeMap Nat Label

namespace LabelTable

/-- Numbers increasing offsets in order. -/
def ofOffsets (offsets : List Nat) : LabelTable where
  offsets
  labels :=
    Std.TreeMap.ofList (offsets.zipIdx.map fun (offset, i) => (offset, Label.mk (UInt32.ofNat i)))

/-- The offsets without repetitions, in increasing order. -/
def sorted (marks : List Nat) : List Nat := (Std.TreeSet.ofList marks).toList

/-- The table of all marked offsets. The least offset that is no boundary is the error. -/
def ofMarks (marks : List Nat) (boundaries : Std.TreeSet Nat) (length : Nat) :
    Except Error LabelTable :=
  let offsets := sorted marks
  match offsets.find? fun offset => offset != length && !boundaries.contains offset with
  | some offset => .error (.malformed (.code (.boundary offset)))
  | none => .ok (ofOffsets offsets)

def get? (table : LabelTable) (offset : Nat) : Option Label := table.labels[offset]?

def get (table : LabelTable) (offset : Nat) : Except Error Label :=
  match table.get? offset with
  | some l => .ok l
  | none => .error (.malformed (.code (.noLabel offset)))

/-- The supply of labels behind those of the table. -/
def supply (table : LabelTable) : LabelSupply := ⟨UInt32.ofNat table.offsets.length⟩

end LabelTable
end ClassPatch
