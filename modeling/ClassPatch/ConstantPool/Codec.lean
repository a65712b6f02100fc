import ClassPatch.Bytes.Cursor
import ClassPatch.ConstantPool.Basic

/-!
# Constant pools as bytes

A pool is stored as the number of its indices and its entries in order, each under a tag; wide
entries count twice. Reading also checks that every reference points at an entry of the right
kind. It does not check the text: that is decoded only where it is used.
-/

namespace ClassPatch

namespace Constant

/-- The stored form of an entry. Text is limited by its 16-bit length. -/
def encode : Constant → Except Error Bytes
  | c@(.utf8 bytes) =>
    if bytes.length ≤ 65535 then .ok (c.tag :: c.payload)
    else .error (.limitExceeded (.utf8Length bytes.length))
  | c => .ok (c.tag :: c.payload)

/-- Reads what follows a tag; the tag's own position is kept for the complaint about it. -/
def readPayload (tag : UInt8) (offset : Nat) : Reader Constant :=
  match tag with
  | 1 => .utf8 <$> Reader.sized16
  | 3 => .integer <$> Reader.word Int32
  | 4 => .float <$> Reader.u32
  | 5 => .long <$> Reader.word Int64
  | 6 => .double <$> Reader.word UInt64
  | 7 => .classRef <$> Reader.u16
  | 8 => .string <$> Reader.u16
  | 9 => .member .field <$> Reader.u16 <*> Reader.u16
  | 10 => .member .method <$> Reader.u16 <*> Reader.u16
  | 11 => .member .interfaceMethod <$> Reader.u16 <*> Reader.u16
  | 12 => .nameAndType <$> Reader.u16 <*> Reader.u16
  | 15 => .methodHandle <$> Reader.u8 <*> Reader.u16
  | 16 => .methodType <$> Reader.u16
  | 17 => .dynamic <$> Reader.u16 <*> Reader.u16
  | 18 => .invokeDynamic <$> Reader.u16 <*> Reader.u16
  | 19 => .moduleName <$> Reader.u16
  | 20 => .packageName <$> Reader.u16
  | tag => Reader.fault (.pool (.tag tag offset))

def read : Reader Constant := do
  let offset ← Reader.position
  let tag ← Reader.u8
  readPayload tag offset

end Constant

namespace ConstantPool

/-- Reads the entries for the `missing` indices behind `slots`. -/
def readSlots (slots : Array (Option Constant)) : Nat → Reader (Array (Option Constant))
  | 0 => return slots
  | missing + 1 => do
    let c ← Constant.read
    if c.isWide then
      match missing with
      | 0 => Reader.fault (.pool (.wideAtEnd slots.size))
      | missing + 1 => readSlots ((slots.push (some c)).push none) missing
    else
      readSlots (slots.push (some c)) missing

/-- Fails unless `index` holds an entry of the wanted kind. -/
def expect (pool : ConstantPool) (index : UInt16) (wanted : ConstantKind) : Except Error Unit := do
  let found ← pool.get index
  let fits := match wanted with
    | .utf8 => found.isUtf8
    | .classRef => found.isClassRef
    | .nameAndType => found.isNameAndType
    | .member => found.isMember
  unless fits do
    throw (.malformed (.pool (.reference index wanted found)))

/-- Fails unless the references of an entry have the right kinds. -/
def check (pool : ConstantPool) : Constant → Except Error Unit
  | .classRef index | .string index | .methodType index | .moduleName index
  | .packageName index => pool.expect index .utf8
  | .member _ owner signature => do
    pool.expect owner .classRef
    pool.expect signature .nameAndType
  | .nameAndType name descriptor => do
    pool.expect name .utf8
    pool.expect descriptor .utf8
  | .methodHandle kind reference => do
    unless 1 ≤ kind && kind ≤ 9 do
      throw (.malformed (.pool (.handleKind kind)))
    pool.expect reference .member
  | .dynamic _ signature | .invokeDynamic _ signature => pool.expect signature .nameAndType
  | .utf8 _ | .integer _ | .float _ | .long _ | .double _ => return ()

/-- The constants with their indices. -/
def entries (pool : ConstantPool) : List (Constant × Nat) :=
  pool.slots.toList.zipIdx.filterMap fun (slot, index) => slot.map (·, index)

/-- The first index of every constant in `slots`. -/
def indexed (slots : Array (Option Constant)) : Std.TreeMap Constant UInt16 :=
  slots.toList.zipIdx.foldl
    (fun indices (slot, index) =>
      match slot with
      | some c => indices.insertIfNew c (UInt16.ofNat index)
      | none => indices) ∅

/-- The pool with the given slots. -/
def ofSlots (slots : Array (Option Constant)) : ConstantPool := ⟨slots, indexed slots⟩

def read : Reader ConstantPool := do
  let count ← Reader.u16
  match count.toNat with
  | 0 => Reader.fault (.pool .noEntries)
  | missing + 1 =>
    let slots ← readSlots #[none] missing
    let pool := ofSlots slots
    match pool.entries.forM fun (c, _) => pool.check c with
    | .ok _ => return pool
    | .error e => throw e

/-- The stored form of a pool. -/
def encode (pool : ConstantPool) : Except Error Bytes := do
  if pool.size ≤ 65535 then
    let entries ← pool.entries.mapM fun (c, _) => c.encode
    return Word.encode (UInt16.ofNat pool.size) ++ entries.flatten
  else
    throw (.limitExceeded (.poolEntries pool.size))

end ConstantPool
end ClassPatch
