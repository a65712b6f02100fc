import ClassPatch.Proofs.Code.Agreement
import ClassPatch.Proofs.Halting

/-!
# Displacements that are filled in later

Where a jump goes is not known before all labels have their offsets. So a jump is written with a
blank for its displacement, and a fixup notes where the blank is and which label it is for. In the
end every blank is overwritten, without a test whether it lies in the code.

It does: a fixup notes the length of the code right before its blank is appended, and code only gets
longer. `Buffer.Fills` says what code a buffer becomes when its blanks are filled; appending to the
buffer appends to that code. So the code is the one that is written in one go once the offsets are
known.
-/

namespace ClassPatch

open PoolM

/-- A computation over a pool that may halt. -/
abbrev EncodeM (α : Type) := EStateM Halt ConstantPool α

namespace Unguarded

/-- The offset that is noted for a label. -/
def offsetOf (labels : Std.TreeMap Label Nat) (l : Label) : Except Error Nat :=
  match labels[l]? with
  | some offset => .ok offset
  | none => .error (.undefinedLabel l)

/-- Bytes are written over others from a position on, without a test whether there are as many. -/
def overwrite (code : Bytes) (position : Nat) (bytes : Bytes) : Except Halt Bytes :=
  if position + bytes.length ≤ code.length then
    .ok (code.take position ++ bytes ++ code.drop (position + bytes.length))
  else
    .error .outside

/-- A distance in the width of its field. -/
def displacement (wide : Bool) (distance : Int) : PoolM Bytes :=
  if wide then farDisplacement distance else nearDisplacement distance

/-- A displacement that is left blank. -/
structure Fixup where
  /-- The offset of the instruction, which displacements count from. -/
  origin : Nat
  /-- The offset of the blank. -/
  position : Nat
  target : Label
  wide : Bool

/-- Fills the blank. -/
def Fixup.fill (labels : Std.TreeMap Label Nat) (code : Bytes) (f : Fixup) : EncodeM Bytes := do
  let target ← halting (report (offsetOf labels f.target))
  let bytes ← raise (displacement f.wide (target - f.origin))
  halting (overwrite code f.position bytes)

/-- Code with blanks. -/
structure Buffer where
  code : Bytes
  fixups : List Fixup

namespace Buffer

/-- Appends bytes. -/
def write (b : Buffer) (bytes : Bytes) : Buffer := { b with code := b.code ++ bytes }

/-- Appends a blank for the displacement from `origin` to a label. -/
def blank (b : Buffer) (origin : Nat) (target : Label) (wide : Bool) : Buffer where
  code := b.code ++ List.replicate (if wide then 4 else 2) 0
  fixups := b.fixups ++ [⟨origin, b.code.length, target, wide⟩]

/-- Appends a jump, with 32 bits if `wide`. -/
def jump (b : Buffer) (wide : Bool) (kind : Jump) (target : Label) : EncodeM Buffer :=
  match wide, kind.wideOpcode? with
  | false, _ => return (b.write [kind.opcode]).blank b.code.length target false
  | true, some op => return (b.write [op]).blank b.code.length target true
  | true, none => throw (.failed (.malformed (.code (.notWide kind))))

/-- Appends the opcode of a switch, up to the distance of its default target. -/
def switch (b : Buffer) (op : UInt8) (default : Label) : Buffer :=
  (b.write (op :: List.replicate (switchPadding b.code.length) 0)).blank b.code.length default true

def tableSwitch (b : Buffer) (low high : Int32) (default : Label) (targets : List Label) : Buffer :=
  targets.foldl (fun table target => table.blank b.code.length target true)
    ((b.switch Opcode.tableswitch default).write (Word.encode low ++ Word.encode high))

def lookupSwitch (b : Buffer) (default : Label) (cases : List (Int32 × Label)) : Buffer :=
  cases.foldl
    (fun table (key, target) => (table.write (Word.encode key)).blank b.code.length target true)
    ((b.switch Opcode.lookupswitch default).write (Word.encode (Int32.ofNat cases.length)))

/-- Appends an instruction. -/
def emit (b : Buffer) (wide : Bool) : Instruction Label → EncodeM Buffer
  | .jump kind target => b.jump wide kind target
  | .tableSwitch low high default targets => return b.tableSwitch low high default targets
  | .lookupSwitch default cases =>
    if cases.length > 2147483647 then
      throw (.failed (.limitExceeded (.switchCases cases.length)))
    else
      return b.lookupSwitch default cases
  | i => do
    -- no other instruction has a target
    return b.write (← raise ((i.map fun _ => 0).bytes b.code.length wide))

/-- Fills all blanks, in their order. -/
def resolve (labels : Std.TreeMap Label Nat) (b : Buffer) : EncodeM Bytes :=
  b.fixups.foldlM (fun code f => f.fill labels code) b.code

end Buffer

/-! ### Blanks lie in the code -/

/-- What lies in the code also lies in longer code. -/
theorem overwrite_append {code code' bytes : Bytes} {position : Nat}
    (h : overwrite code position bytes = .ok code') (more : Bytes) :
    overwrite (code ++ more) position bytes = .ok (code' ++ more) := by
  unfold overwrite at h ⊢
  split at h
  · rename_i hle
    obtain rfl := Except.ok.inj h
    rw [if_pos (by rw [List.length_append]; omega), List.take_append_of_le_length (by omega),
      List.drop_append_of_le_length hle]
    simp only [List.append_assoc]
  · cases h

/-- The end of the code is overwritten. -/
theorem overwrite_end (code : Bytes) {old bytes : Bytes} (h : old.length = bytes.length) :
    overwrite (code ++ old) code.length bytes = .ok (code ++ bytes) := by
  rw [overwrite, if_pos (by rw [List.length_append]; omega), List.take_left]
  simp [h]

/-- The distance fits into the field. -/
def Reaches (wide : Bool) (distance : Int) : Prop :=
  if wide then IsFarDistance distance else isNear distance = true

/-- The bytes of a distance that fits. -/
def distanceBytes (wide : Bool) (distance : Int) : Bytes :=
  if wide then Word.encode (Int32.ofInt distance) else Word.encode (Int16.ofInt distance)

theorem length_distanceBytes (wide : Bool) (distance : Int) :
    (distanceBytes wide distance).length = if wide then 4 else 2 := by
  cases wide <;> exact Word.length_encode _

theorem farDisplacement_of_fits {distance : Int} (h : IsFarDistance distance) :
    farDisplacement distance = pure (distanceBytes true distance) := by
  rw [farDisplacement, if_pos (by simpa [IsFarDistance] using h)]
  rfl

theorem nearDisplacement_of_fits {distance : Int} (h : isNear distance = true) :
    nearDisplacement distance = pure (distanceBytes false distance) := by
  rw [nearDisplacement, if_pos h]
  rfl

theorem displacement_of_reaches {wide : Bool} {distance : Int} (h : Reaches wide distance) :
    displacement wide distance = pure (distanceBytes wide distance) := by
  cases wide with
  | false => exact nearDisplacement_of_fits h
  | true => exact farDisplacement_of_fits h

namespace Buffer

variable {labels : Std.TreeMap Label Nat} {b : Buffer} {code : Bytes} {place : Label → Nat}

/-- The code that the buffer becomes when its blanks are filled. -/
structure Fills (labels : Std.TreeMap Label Nat) (b : Buffer) (code : Bytes) : Prop where
  length : b.code.length = code.length
  resolve : ∀ p, b.resolve labels p = .ok code p

theorem fills_empty (labels : Std.TreeMap Label Nat) : Fills labels ⟨[], []⟩ [] :=
  ⟨rfl, fun _ => rfl⟩

theorem fill_append {f : Fixup} {code' : Bytes} {p p' : ConstantPool}
    (h : f.fill labels code p = .ok code' p') (more : Bytes) :
    f.fill labels (code ++ more) p = .ok (code' ++ more) p' := by
  rw [Fixup.fill] at h ⊢
  obtain ⟨target, p₁, htarget, h⟩ := EStateM.bind_eq_ok.mp h
  obtain ⟨bytes, p₂, hbytes, h⟩ := EStateM.bind_eq_ok.mp h
  rw [EStateM.bind_of_ok htarget, EStateM.bind_of_ok hbytes]
  cases hover : overwrite code f.position bytes with
  | error e =>
    rw [hover] at h
    cases h
  | ok code'' =>
    rw [hover] at h
    obtain ⟨rfl, rfl⟩ := EStateM.pure_eq_ok.mp h
    rw [overwrite_append hover]
    rfl

theorem foldlM_fill_append {fixups : List Fixup} {code' : Bytes} {p p' : ConstantPool}
    (h : fixups.foldlM (fun code f => f.fill labels code) code p = .ok code' p') (more : Bytes) :
    fixups.foldlM (fun code f => f.fill labels code) (code ++ more) p = .ok (code' ++ more) p' := by
  induction fixups generalizing code p with
  | nil =>
    obtain ⟨rfl, rfl⟩ := EStateM.pure_eq_ok.mp h
    rfl
  | cons f fixups ih =>
    rw [List.foldlM_cons] at h ⊢
    obtain ⟨next, p₁, hnext, h⟩ := EStateM.bind_eq_ok.mp h
    rw [EStateM.bind_of_ok (fill_append hnext more)]
    exact ih h

/-- What is appended to a buffer is appended to its code. -/
theorem Fills.write (h : b.Fills labels code) (bytes : Bytes) :
    (b.write bytes).Fills labels (code ++ bytes) where
  length := by simp [Buffer.write, h.length]
  resolve p := foldlM_fill_append (h.resolve p) bytes

theorem fill_of_reaches {f : Fixup} {offset : Nat} (hoffset : labels[f.target]? = some offset)
    (hreaches : Reaches f.wide (offset - f.origin)) :
    f.fill labels code =
      halting (overwrite code f.position (distanceBytes f.wide (offset - f.origin))) := by
  have htarget : offsetOf labels f.target = .ok offset := by rw [offsetOf, hoffset]
  rw [Fixup.fill, htarget]
  change (raise (displacement f.wide (offset - f.origin)) >>= _) = _
  rw [displacement_of_reaches hreaches]
  rfl

/-- A blank is filled with the distance to its label. -/
theorem Fills.blank (h : b.Fills labels code) {origin : Nat} {target : Label} {wide : Bool}
    {offset : Nat} (hoffset : labels[target]? = some offset)
    (hreaches : Reaches wide (offset - origin)) :
    (b.blank origin target wide).Fills labels (code ++ distanceBytes wide (offset - origin)) where
  length := by
    simp only [Buffer.blank, List.length_append, List.length_replicate, length_distanceBytes,
      h.length]
  resolve p := by
    have hblank : (List.replicate (if wide then 4 else 2) (0 : UInt8)).length =
        (distanceBytes wide (offset - origin)).length := by
      rw [List.length_replicate, length_distanceBytes]
    rw [Buffer.resolve, Buffer.blank, List.foldlM_append,
      EStateM.bind_of_ok (foldlM_fill_append (h.resolve p) _), List.foldlM_cons]
    have hfill : Fixup.fill labels (code ++ List.replicate (if wide then 4 else 2) 0)
        ⟨origin, b.code.length, target, wide⟩ p =
          .ok (code ++ distanceBytes wide (offset - origin)) p := by
      rw [fill_of_reaches hoffset hreaches, h.length, overwrite_end code hblank]
      rfl
    rw [EStateM.bind_of_ok hfill]
    rfl

/-- A jump is filled as it is written where the offsets are known. -/
theorem Fills.mirrors_jump (h : b.Fills labels code) {wide : Bool} {kind : Jump} {target : Label}
    {offset : Nat} (hoffset : labels[target]? = some offset)
    (hreaches : Reaches wide (offset - b.code.length)) (p : ConstantPool) :
    Mirrors (fun b' row => b'.Fills labels (code ++ row)) (b.jump wide kind target p)
      (Instruction.jumpBytes b.code.length wide kind offset p) := by
  have hfills (op : UInt8) : ((b.write [op]).blank b.code.length target wide).Fills labels
      (code ++ op :: distanceBytes wide (offset - b.code.length)) := by
    rw [List.append_cons]
    exact (h.write [op]).blank hoffset hreaches
  cases wide with
  | false =>
    rw [Instruction.jumpBytes_near, nearDisplacement_of_fits hreaches, pure_bind]
    refine .pure ?_ p
    exact hfills kind.opcode
  | true =>
    cases hop : kind.wideOpcode? with
    | none =>
      rw [Instruction.jumpBytes_not_wide hop]
      simp only [Buffer.jump, hop]
      exact .throw _ p
    | some op =>
      rw [Instruction.jumpBytes_wide hop, farDisplacement_of_fits hreaches, pure_bind]
      simp only [Buffer.jump, hop]
      refine .pure ?_ p
      exact hfills op

/-- Switches are filled as they are written where the offsets are known. -/
theorem Fills.switch (h : b.Fills labels code) (op : UInt8) {default : Label} {offset : Nat}
    (hoffset : labels[default]? = some offset) (hfar : IsFarDistance (offset - b.code.length)) :
    (b.switch op default).Fills labels
      (code ++
        (op :: List.replicate (switchPadding b.code.length) 0 ++ distanceBytes true
          (offset - b.code.length))) := by
  rw [← List.append_assoc]
  exact (h.write _).blank hoffset hfar

/-- Blanks that follow each other are filled with the distances to their labels. -/
theorem Fills.foldl_blank (h : b.Fills labels code) (origin : Nat) {targets : List Label}
    (hplaces : ∀ l ∈ targets, labels[l]? = some (place l))
    (hfar : ∀ l ∈ targets, IsFarDistance (place l - origin)) :
    (targets.foldl (fun table target => table.blank origin target true) b).Fills labels
      (code ++ (targets.map fun l => distanceBytes true (place l - origin)).flatten) := by
  induction targets generalizing b code with
  | nil => simpa using h
  | cons target targets ih =>
    rw [List.forall_mem_cons] at hplaces hfar
    rw [List.foldl_cons, List.map_cons, List.flatten_cons, ← List.append_assoc]
    have hreaches : Reaches true (place target - origin) := hfar.1
    exact ih (h.blank hplaces.1 hreaches) hplaces.2 hfar.2

/-- Keys that are each followed by a blank are followed by the distances to their labels. -/
theorem Fills.foldl_case (h : b.Fills labels code) (origin : Nat) {cases : List (Int32 × Label)}
    (hplaces : ∀ c ∈ cases, labels[c.2]? = some (place c.2))
    (hfar : ∀ c ∈ cases, IsFarDistance (place c.2 - origin)) :
    (cases.foldl
      (fun table (key, target) => (table.write (Word.encode key)).blank origin target true) b).Fills
        labels
      (code ++
        (cases.map fun c => Word.encode c.1 ++ distanceBytes true
          (place c.2 - origin)).flatten) := by
  induction cases generalizing b code with
  | nil => simpa using h
  | cons c cases ih =>
    rw [List.forall_mem_cons] at hplaces hfar
    rw [List.foldl_cons, List.map_cons, List.flatten_cons, ← List.append_assoc, ← List.append_assoc]
    have hreaches : Reaches true (place c.2 - origin) := hfar.1
    exact ih ((h.write _).blank hplaces.1 hreaches) hplaces.2 hfar.2

theorem Fills.mirrors_tableSwitch (h : b.Fills labels code) (low high : Int32) {default : Label}
    {targets : List Label} (hplaces : ∀ l ∈ default :: targets, labels[l]? = some (place l))
    (hfar : ∀ l ∈ default :: targets, IsFarDistance (place l - b.code.length)) (p : ConstantPool) :
    Mirrors (fun b' row => b'.Fills labels (code ++ row))
      ((pure (b.tableSwitch low high default targets) : EncodeM _) p)
      (Instruction.tableSwitchBytes b.code.length low high (place default)
        (targets.map place) p) := by
  rw [List.forall_mem_cons] at hplaces hfar
  have htargets : (targets.map place).mapM (Instruction.caseBytes b.code.length) =
      pure (targets.map fun l => distanceBytes true (place l - b.code.length)) := by
    rw [List.mapM_map]
    exact EStateM.mapM_eq_map fun l hl => farDisplacement_of_fits (hfar.2 l hl)
  have hfills := ((h.switch Opcode.tableswitch hplaces.1 hfar.1).write
    (Word.encode low ++ Word.encode high)).foldl_blank b.code.length hplaces.2 hfar.2
  rw [Instruction.tableSwitchBytes, Instruction.caseBytes, farDisplacement_of_fits hfar.1,
    pure_bind, htargets, pure_bind]
  refine .pure ?_ p
  rw [Buffer.tableSwitch]
  simpa only [List.append_assoc] using hfills

theorem Fills.mirrors_lookupSwitch (h : b.Fills labels code) (wide : Bool) {default : Label}
    {cases : List (Int32 × Label)}
    (hplaces : ∀ l ∈ default :: cases.map (·.2), labels[l]? = some (place l))
    (hfar : ∀ l ∈ default :: cases.map (·.2), IsFarDistance (place l - b.code.length))
    (p : ConstantPool) :
    Mirrors (fun b' row => b'.Fills labels (code ++ row))
      (b.emit wide (.lookupSwitch default cases) p)
      (Instruction.lookupSwitchBytes b.code.length (place default)
        (cases.map fun (key, target) => (key, place target)) p) := by
  rw [List.forall_mem_cons, List.forall_mem_map] at hplaces hfar
  rw [Instruction.lookupSwitchBytes, Instruction.caseBytes, farDisplacement_of_fits hfar.1,
    pure_bind]
  simp only [List.length_map, Buffer.emit]
  split
  · exact .throw _ p
  · have hcases : (cases.map fun c => (c.1, place c.2)).mapM (fun c => do
          return Word.encode c.1 ++ (← Instruction.caseBytes b.code.length c.2)) =
        (pure (cases.map fun c => Word.encode c.1 ++ distanceBytes true
          (place c.2 - b.code.length)) : PoolM _) := by
      rw [List.mapM_map]
      refine EStateM.mapM_eq_map fun c hc => ?_
      dsimp only [Function.comp]
      rw [Instruction.caseBytes, farDisplacement_of_fits (hfar.2 c hc), pure_bind]
    have hfills := ((h.switch Opcode.lookupswitch hplaces.1 hfar.1).write
      (Word.encode (Int32.ofNat cases.length))).foldl_case b.code.length hplaces.2 hfar.2
    rw [hcases, pure_bind]
    refine .pure ?_ p
    rw [Buffer.lookupSwitch]
    simpa only [List.append_assoc] using hfills

/-- An instruction whose blanks are filled in later is the one that is written where the offsets of
its targets are known, if their distances fit. -/
theorem Fills.mirrors_emit (h : b.Fills labels code) {wide : Bool} {i : Instruction Label}
    (hnear : ∀ kind l, i = .jump kind l → wide = false →
      isNear (place l - b.code.length) = true)
    (hplaces : ∀ l ∈ i.targets, labels[l]? = some (place l))
    (hfar : ∀ l ∈ i.targets, IsFarDistance (place l - b.code.length)) (p : ConstantPool) :
    Mirrors (fun b' row => b'.Fills labels (code ++ row)) (b.emit wide i p)
      ((i.map place).bytes b.code.length wide p) := by
  have hwrite {x : PoolM Bytes} : Mirrors (fun b' row => b'.Fills labels (code ++ row))
      ((do return b.write (← raise x) : EncodeM Buffer) p) (x p) :=
    (Mirrors.raise x p).map_left fun row _ heq => heq ▸ h.write row
  cases i with
  | jump kind l =>
    refine h.mirrors_jump (hplaces l (List.mem_singleton_self l)) ?_ p
    cases wide with
    | false => exact hnear kind l rfl rfl
    | true => exact hfar l (List.mem_singleton_self l)
  | tableSwitch low high default targets => exact h.mirrors_tableSwitch low high hplaces hfar p
  | lookupSwitch default cases => exact h.mirrors_lookupSwitch wide hplaces hfar p
  | _ => exact hwrite

end Buffer
end Unguarded
end ClassPatch
