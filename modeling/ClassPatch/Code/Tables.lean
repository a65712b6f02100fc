import ClassPatch.Bytes.Cursor
import ClassPatch.Code.Body
import ClassPatch.ConstantPool.Basic

/-!
# Tables beside the code

Behind the instructions a code attribute holds an exception table and attributes of its own. The
rows of the tables refer to byte offsets; only when all of them are known can the offsets become
labels. A table may be spread over several attributes of one name, and bytes behind its last row
are not looked at.
-/

namespace ClassPatch

/-- An exception handler by offsets; `catchType` is zero if it catches everything. -/
structure HandlerRow where
  start : Nat
  stop : Nat
  target : Nat
  catchType : UInt16

/-- A source line by offset. -/
structure LineRow where
  start : Nat
  number : UInt16

/-- A local variable by offsets. -/
structure VariableRow where
  start : Nat
  stop : Nat
  name : UInt16
  descriptor : UInt16
  slot : UInt16

namespace HandlerRow

/-- A row of the exception table of `length` bytes of code. -/
def read (length : Nat) : Reader HandlerRow := do
  let start := (← Reader.u16).toNat
  let stop := (← Reader.u16).toNat
  let target := (← Reader.u16).toNat
  let catchType ← Reader.u16
  if start < stop && stop ≤ length && target < length then
    return { start, stop, target, catchType }
  else
    Reader.fault (.code (.handlerRange start stop target))

end HandlerRow

namespace LineRow

def read : Reader LineRow := do
  let start ← Reader.u16
  return { start := start.toNat, number := ← Reader.u16 }

end LineRow

namespace VariableRow

def read : Reader VariableRow := do
  let start ← Reader.u16
  let length ← Reader.u16
  let name ← Reader.u16
  let descriptor ← Reader.u16
  return { start := start.toNat, stop := start.toNat + length.toNat, name, descriptor,
           slot := ← Reader.u16 }

end VariableRow

/-- Rows behind their count. -/
def readRows {α : Type} (row : Reader α) : Reader (List α) := do
  let count ← Reader.u16
  Reader.times count.toNat row

/-- An attribute of code by what it says. -/
inductive CodeAttribute
  | lines (rows : List LineRow)
  | localVariables (rows : List VariableRow)
  | localVariableTypes (rows : List VariableRow)
  | stackMap (data : Bytes)
  | other (a : Attribute)

namespace CodeAttribute

def lineTable : String := "LineNumberTable"

def variableTable : String := "LocalVariableTable"

def variableTypeTable : String := "LocalVariableTypeTable"

def stackMapTable : String := "StackMapTable"

/-- Reads an attribute of code if it is one of the tables. -/
def ofAttribute (pool : ConstantPool) (a : Attribute) : Except Error CodeAttribute := do
  let name ← pool.text a.name
  if name = lineTable then
    return lines (← (readRows LineRow.read).parse a.payload)
  else if name = variableTable then
    return localVariables (← (readRows VariableRow.read).parse a.payload)
  else if name = variableTypeTable then
    return localVariableTypes (← (readRows VariableRow.read).parse a.payload)
  else if name = stackMapTable then
    return stackMap a.payload
  else
    return other a

def lineRows : CodeAttribute → List LineRow
  | lines rows => rows
  | _ => []

def variableRows : CodeAttribute → List VariableRow
  | localVariables rows => rows
  | _ => []

def variableTypeRows : CodeAttribute → List VariableRow
  | localVariableTypes rows => rows
  | _ => []

def stackMap? : CodeAttribute → Option Bytes
  | stackMap data => some data
  | _ => none

def other? : CodeAttribute → Option Attribute
  | other a => some a
  | _ => none

end CodeAttribute
end ClassPatch
