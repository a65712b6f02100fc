import ClassPatch.Bytes.Cursor
import ClassPatch.Code.Frame
import ClassPatch.ConstantPool.Basic

/-!
# Stack maps

A stack map lists frames at increasing offsets. Each is stored as its difference from the frame
before, the first from the frame on entry: its distance, and whichever of five forms is shortest.
Offsets count from the first byte that the frame before leaves free, so frames cannot coincide.

Uninitialized types refer to offsets. The reader asks for the label of each in reading order, with
a state that the caller may use to number them; the writer turns labels back into offsets.
-/

namespace ClassPatch.StackMap

/-- What the next frame is stored relative to. -/
structure Base where
  start : Nat
  frame : Frame

/-- The base that a frame leaves to the next one. -/
def Base.behind (offset : Nat) (frame : Frame) : Base := ⟨offset + 1, frame⟩

/-! ### Reading -/

/-- A reader that names offsets by labels, keeping a state of its own for that. -/
abbrev MapReader (σ α : Type) := EStateM Error (Cursor × σ) α

variable {σ : Type}

/-- Reads bytes and asks for no label. -/
def bytes {α : Type} (r : Reader α) : MapReader σ α := fun (c, s) =>
  match r c with
  | .ok x c => .ok x (c, s)
  | .error e c => .error e (c, s)

/-- Asks for the label of an offset. -/
def label (labelAt : Nat → StateM σ Label) (offset : Nat) : MapReader σ Label := fun (c, s) =>
  let (l, s) := labelAt offset s
  .ok l (c, s)

def readType (pool : ConstantPool) (labelAt : Nat → StateM σ Label) :
    MapReader σ VerificationType := do
  match ← bytes Reader.u8 with
  | 0 => return .top
  | 1 => return .integer
  | 2 => return .float
  | 3 => return .double
  | 4 => return .long
  | 5 => return .null
  | 6 => return .uninitializedThis
  | 7 =>
    match pool.className (← bytes Reader.u16) with
    | .ok name => return .object name
    | .error e => throw e
  | 8 =>
    let offset ← bytes Reader.u16
    return .uninitialized (← label labelAt offset.toNat)
  | tag => throw (.malformed (.frame (.typeTag tag)))

def readTypes (pool : ConstantPool) (labelAt : Nat → StateM σ Label) (count : Nat) :
    MapReader σ (List VerificationType) :=
  (List.replicate count ()).mapM fun _ => readType pool labelAt

/-- Reads one frame and its distance. -/
def readFrame (pool : ConstantPool) (labelAt : Nat → StateM σ Label) (previous : Frame) :
    MapReader σ (Nat × Frame) := do
  let form ← bytes Reader.u8
  if form ≤ 63 then
    return (form.toNat, { previous with stack := [] })
  else if form ≤ 127 then
    let item ← readType pool labelAt
    return (form.toNat - 64, { previous with stack := [item] })
  else if form < 247 then
    throw (.malformed (.frame (.reserved form)))
  else
    let delta ← bytes Reader.u16
    if form = 247 then
      let item ← readType pool labelAt
      return (delta.toNat, { previous with stack := [item] })
    else if form ≤ 250 then
      let chopped := 251 - form.toNat
      if chopped ≤ previous.locals.length then
        let kept := previous.locals.take (previous.locals.length - chopped)
        return (delta.toNat, { locals := kept, stack := [] })
      else
        throw (.malformed (.frame (.chop chopped previous.locals.length)))
    else if form = 251 then
      return (delta.toNat, { previous with stack := [] })
    else if form ≤ 254 then
      let added ← readTypes pool labelAt (form.toNat - 251)
      return (delta.toNat, { locals := previous.locals ++ added, stack := [] })
    else
      let locals ← readTypes pool labelAt (← bytes Reader.u16).toNat
      let stack ← readTypes pool labelAt (← bytes Reader.u16).toNat
      return (delta.toNat, { locals, stack })

/-- Reads a frame behind `base` and puts it before the frames that were read already. -/
def readNext (pool : ConstantPool) (labelAt : Nat → StateM σ Label)
    (sofar : Base × List (Nat × Frame)) : MapReader σ (Base × List (Nat × Frame)) := do
  let (base, frames) := sofar
  let (delta, frame) ← readFrame pool labelAt base.frame
  let offset := base.start + delta
  return (Base.behind offset frame, (offset, frame) :: frames)

/-- Reads a whole stack map. -/
def read (pool : ConstantPool) (initial : Frame) (labelAt : Nat → StateM σ Label) :
    MapReader σ (List (Nat × Frame)) := do
  let count ← bytes Reader.u16
  let (_, frames) ← (List.replicate count.toNat ()).foldlM
    (fun sofar _ => readNext pool labelAt sofar) (⟨0, initial⟩, [])
  if ← bytes Reader.hasMore then
    throw (.malformed (.frame .trailing))
  return frames.reverse

/-- The frames of a stack map, with the state that its labels leave. -/
def decode (data : Bytes) (pool : ConstantPool) (initial : Frame)
    (labelAt : Nat → StateM σ Label) (state : σ) : Except Error (List (Nat × Frame)) × σ :=
  match read pool initial labelAt (Cursor.ofBytes data, state) with
  | .ok frames (_, state) => (.ok frames, state)
  | .error e (_, state) => (.error e, state)

/-! ### Writing -/

/-- A count or distance in 16 bits. -/
def half (n : Nat) (limit : Nat → Limit) : PoolM Bytes :=
  if n ≤ 65535 then return Word.encode (UInt16.ofNat n) else throw (.limitExceeded (limit n))

def encodeType (offsetOf : Label → Except Error Nat) : VerificationType → PoolM Bytes
  | .top => return [0]
  | .integer => return [1]
  | .float => return [2]
  | .double => return [3]
  | .long => return [4]
  | .null => return [5]
  | .uninitializedThis => return [6]
  | .object name => return 7 :: Word.encode (← PoolM.classRef name)
  | .uninitialized site =>
    match offsetOf site with
    | .ok offset => return 8 :: (← half offset .uninitializedOffset)
    | .error e => throw e

def encodeTypes (offsetOf : Label → Except Error Nat) (types : List VerificationType) :
    PoolM Bytes :=
  return (← types.mapM (encodeType offsetOf)).flatten

/-- The form that spells out all types. -/
def encodeFull (offsetOf : Label → Except Error Nat) (delta : Bytes) (frame : Frame) :
    PoolM Bytes := do
  let localCount ← half frame.locals.length .frameLocals
  let locals ← encodeTypes offsetOf frame.locals
  let stackCount ← half frame.stack.length .frameStack
  let stack ← encodeTypes offsetOf frame.stack
  return 255 :: delta ++ localCount ++ locals ++ stackCount ++ stack

/-- The shortest form of a frame behind `base`. -/
def encodeFrame (offsetOf : Label → Except Error Nat) (base : Base) (offset : Nat)
    (frame : Frame) : PoolM Bytes := do
  if offset < base.start then
    throw (.malformed (.frame (.order offset (base.start - 1))))
  let distance := offset - base.start
  let delta ← half distance .frameDelta
  let before := base.frame.locals
  let added := frame.locals.length - before.length
  let removed := before.length - frame.locals.length
  if frame.locals == before && frame.stack.isEmpty then
    return if distance < 64 then [UInt8.ofNat distance] else 251 :: delta
  else if frame.locals == before && frame.stack.length = 1 then
    let head := if distance < 64 then [UInt8.ofNat (64 + distance)] else 247 :: delta
    return head ++ (← encodeTypes offsetOf frame.stack)
  else if frame.stack.isEmpty && 1 ≤ added && added ≤ 3 && before.isPrefixOf frame.locals then
    let types ← encodeTypes offsetOf (frame.locals.drop before.length)
    return UInt8.ofNat (251 + added) :: delta ++ types
  else if frame.stack.isEmpty && 1 ≤ removed && removed ≤ 3 && frame.locals.isPrefixOf before then
    return UInt8.ofNat (251 - removed) :: delta
  else
    encodeFull offsetOf delta frame

/-- The stored form of frames in increasing order. -/
def encode (frames : List (Nat × Frame)) (initial : Frame)
    (offsetOf : Label → Except Error Nat) : PoolM Bytes := do
  let count ← half frames.length .frames
  let bases := ⟨0, initial⟩ :: frames.map fun (offset, frame) => Base.behind offset frame
  let rows ← (bases.zip frames).mapM fun (base, offset, frame) =>
    encodeFrame offsetOf base offset frame
  return count ++ rows.flatten

end ClassPatch.StackMap
