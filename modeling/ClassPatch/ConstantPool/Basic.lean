import ClassPatch.Text.ModifiedUtf8
import Std.Data.TreeMap

/-!
# Constant pools

A pool is a table of constants numbered from one; index zero and the second index of a wide entry
are unusable. Looking an entry up checks its kind, and text is decoded when it is asked for.

Entries are never moved or removed. Adding a constant reuses an equal entry where there is one and
otherwise appends, so every index that was valid stays valid and keeps its meaning. A pool that
runs full in the middle of a compound addition keeps the parts that went in.
-/

namespace ClassPatch

/-- The constants of one class. `indices` maps each constant to the first index that holds it. -/
structure ConstantPool where
  slots : Array (Option Constant)
  indices : Std.TreeMap Constant UInt16

/-- A member reference with its names. -/
structure MemberRef where
  kind : MemberKind
  owner : String
  name : String
  descriptor : String
  deriving DecidableEq

namespace ConstantPool

/-- The pool without entries. -/
def empty : ConstantPool := ⟨#[none], ∅⟩

instance : Inhabited ConstantPool := ⟨empty⟩

/-- The number of indices, with index zero. -/
def size (pool : ConstantPool) : Nat := pool.slots.size

def isEmpty (pool : ConstantPool) : Bool := pool.size ≤ 1

/-- No pool has more indices. -/
def capacity : Nat := 65535

/-! ### Looking entries up -/

def get? (pool : ConstantPool) (index : UInt16) : Option Constant :=
  (pool.slots[index.toNat]?).join

def get (pool : ConstantPool) (index : UInt16) : Except Error Constant :=
  match pool.get? index with
  | some c => .ok c
  | none => .error (.malformed (.pool (.noEntry index pool.size)))

/-- The complaint about an entry of the wrong kind. -/
def wrongKind {α : Type} (index : UInt16) (wanted : ConstantKind) (found : Constant) :
    Except Error α :=
  .error (.malformed (.pool (.kind index wanted found)))

def text (pool : ConstantPool) (index : UInt16) : Except Error String := do
  match ← pool.get index with
  | .utf8 bytes => Text.ModifiedUtf8.decode bytes
  | found => wrongKind index .utf8 found

def className (pool : ConstantPool) (index : UInt16) : Except Error String := do
  match ← pool.get index with
  | .classRef name => pool.text name
  | found => wrongKind index .classRef found

/-- The name and the descriptor of a signature entry. -/
def nameAndType (pool : ConstantPool) (index : UInt16) : Except Error (String × String) := do
  match ← pool.get index with
  | .nameAndType name descriptor => return (← pool.text name, ← pool.text descriptor)
  | found => wrongKind index .nameAndType found

def memberRef (pool : ConstantPool) (index : UInt16) : Except Error MemberRef := do
  match ← pool.get index with
  | .member kind owner signature =>
    let (name, descriptor) ← pool.nameAndType signature
    return { kind, owner := ← pool.className owner, name, descriptor }
  | found => wrongKind index .member found

/-- The index of the text, if the pool holds it. -/
def findText? (pool : ConstantPool) (text : String) : Option UInt16 :=
  pool.indices[Constant.utf8 (Text.ModifiedUtf8.encode text)]?

end ConstantPool

/-! ### Adding entries -/

/-- A computation that may add to a pool. What it added stays when it fails. -/
abbrev PoolM (α : Type) := EStateM Error ConstantPool α

namespace PoolM

/-- The index of a constant, which is appended if the pool does not hold it yet. -/
def intern (c : Constant) : PoolM UInt16 := do
  let pool ← get
  match pool.indices[c]? with
  | some index => return index
  | none =>
    if pool.size + c.width ≤ ConstantPool.capacity then
      let index := UInt16.ofNat pool.size
      set (ConstantPool.mk
        (if c.isWide then (pool.slots.push (some c)).push none else pool.slots.push (some c))
        (pool.indices.insert c index))
      return index
    else
      throw (.limitExceeded .poolFull)

def text (value : String) : PoolM UInt16 :=
  intern (.utf8 (Text.ModifiedUtf8.encode value))

def classRef (name : String) : PoolM UInt16 := do
  intern (.classRef (← text name))

def string (value : String) : PoolM UInt16 := do
  intern (.string (← text value))

def methodType (descriptor : String) : PoolM UInt16 := do
  intern (.methodType (← text descriptor))

def nameAndType (name descriptor : String) : PoolM UInt16 := do
  let name ← text name
  let descriptor ← text descriptor
  intern (.nameAndType name descriptor)

def member (kind : MemberKind) (owner name descriptor : String) : PoolM UInt16 := do
  let owner ← classRef owner
  let signature ← nameAndType name descriptor
  intern (.member kind owner signature)

/-- Reads the pool without adding to it. -/
def lookUp {α : Type} (f : ConstantPool → Except Error α) : PoolM α := do
  match f (← get) with
  | .ok x => return x
  | .error e => throw e

end PoolM
end ClassPatch
