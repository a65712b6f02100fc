import ClassPatch.Error

/-!
# Reading bytes

A `Cursor` is a position in a byte string, and a `Reader` a computation that moves it and may
fail. The cursor is kept when a reader fails, so what a failed read has consumed stays visible: a
read of fixed width consumes nothing, a length-prefixed one at most its prefix.

No reader except `seek` moves the cursor back. `Forward` states this, and its lemmas follow the
structure of a reader; the loop that reads instructions ends because of them.
-/

namespace ClassPatch

/-- A position in a byte string. -/
structure Cursor where
  data : Array UInt8
  pos : Nat

namespace Cursor

/-- The start of a byte string. -/
def ofBytes (bytes : Bytes) : Cursor := ⟨bytes.toArray, 0⟩

/-- The number of bytes ahead. -/
def remaining (c : Cursor) : Nat := c.data.size - c.pos

def hasMore (c : Cursor) : Bool := c.pos < c.data.size

/-- The bytes ahead. -/
def rest (c : Cursor) : Bytes := c.data.toList.drop c.pos

@[simp] theorem pos_ofBytes (bytes : Bytes) : (ofBytes bytes).pos = 0 := rfl

@[simp] theorem rest_ofBytes (bytes : Bytes) : (ofBytes bytes).rest = bytes := by
  simp [ofBytes, rest]

@[simp] theorem length_rest (c : Cursor) : c.rest.length = c.remaining := by
  simp [rest, remaining]

end Cursor

/-- A computation that reads at a cursor. -/
abbrev Reader (α : Type) := EStateM Error Cursor α

namespace Reader

variable {α β : Type}

/-- The outcome of a reader on a byte string of its own. -/
def parse (r : Reader α) (bytes : Bytes) : Except Error α :=
  match r.run (Cursor.ofBytes bytes) with
  | .ok x _ => .ok x
  | .error e _ => .error e

def fault (fault : Fault) : Reader α := throw (.malformed fault)

def position : Reader Nat := fun c => .ok c.pos c

def remaining : Reader Nat := fun c => .ok c.remaining c

def hasMore : Reader Bool := fun c => .ok c.hasMore c

/-- Moves to a position, at most to the end of the data. -/
def seek (pos : Nat) : Reader Unit := fun c =>
  if pos ≤ c.data.size then .ok () { c with pos } else .error .outOfBounds c

/-- The position `count` bytes ahead, which must not lie behind the data. -/
def endOf (count : Nat) : Reader Nat := fun c =>
  if c.pos + count ≤ c.data.size then .ok (c.pos + count) c else .error .outOfBounds c

def skip (count : Nat) : Reader Unit := do seek (← endOf count)

/-- Skips to the next multiple of `alignment`, counted from `base`. -/
def align (base alignment : Nat) : Reader Unit := do
  let pos ← position
  if base ≤ pos then
    skip ((alignment - (pos - base) % alignment) % alignment)
  else
    throw .outOfBounds

/-- Fails unless `count` bytes are ahead. -/
def ensure (count : Nat) : Reader Unit := do
  if (← remaining) < count then throw .outOfBounds

/-- The byte at the cursor, which stays where it is. -/
def peek : Reader UInt8 := fun c =>
  match c.data[c.pos]? with
  | some b => .ok b c
  | none => .error .outOfBounds c

/-- The next `count` bytes. -/
def take (count : Nat) : Reader Bytes := fun c =>
  if c.pos + count ≤ c.data.size then
    .ok (c.data.extract c.pos (c.pos + count)).toList { c with pos := c.pos + count }
  else
    .error .outOfBounds c

/-- The next big-endian word. -/
def word (α : Type) [Word α] : Reader α := return Word.decode α (← take (Word.width α))

def u8 : Reader UInt8 := word UInt8

def u16 : Reader UInt16 := word UInt16

def u32 : Reader UInt32 := word UInt32

def i32 : Reader Int32 := word Int32

/-- Bytes behind a 16-bit length. -/
def sized16 : Reader Bytes := do take (← u16).toNat

/-- Bytes behind a 32-bit length. -/
def sized32 : Reader Bytes := do take (← u32).toNat

/-- `count` values of one kind in a row. -/
@[inline] def times (count : Nat) (r : Reader α) : Reader (List α) :=
  (List.replicate count ()).mapM fun _ => r

/-- 16-bit words behind a 16-bit count. -/
def u16List : Reader (List UInt16) := do
  let count ← u16
  ensure (count.toNat * 2)
  times count.toNat u16

/-! ### Readers that never move back -/

/-- The cursor that an outcome leaves. -/
def after : EStateM.Result Error Cursor α → Cursor
  | .ok _ c => c
  | .error _ c => c

/-- Whatever its outcome, the reader leaves the data alone and the position no smaller. -/
def Forward (r : Reader α) : Prop :=
  ∀ c, (after (r c)).data = c.data ∧ c.pos ≤ (after (r c)).pos

theorem forward_pure (x : α) : Forward (pure x) := fun _ => ⟨rfl, Nat.le_refl _⟩

theorem forward_throw (e : Error) : Forward (throw e : Reader α) := fun _ => ⟨rfl, Nat.le_refl _⟩

theorem forward_fault (f : Fault) : Forward (fault f : Reader α) := forward_throw _

theorem forward_bind {r : Reader α} {f : α → Reader β} (hr : Forward r)
    (hf : ∀ x, Forward (f x)) : Forward (r >>= f) := by
  intro c
  have h := hr c
  simp only [bind, EStateM.bind]
  cases hc : r c with
  | error e c' => simpa [hc, after] using h
  | ok x c' =>
    rw [hc] at h
    exact ⟨(hf x c').1.trans h.1, Nat.le_trans h.2 (hf x c').2⟩

theorem forward_ite {p : Prop} [Decidable p] {r s : Reader α} (hr : Forward r)
    (hs : Forward s) : Forward (if p then r else s) := by
  split <;> assumption

theorem forward_take (count : Nat) : Forward (take count) := by
  intro c
  unfold take
  split
  · exact ⟨rfl, Nat.le_add_right _ _⟩
  · exact ⟨rfl, Nat.le_refl _⟩

theorem forward_word (α : Type) [Word α] : Forward (word α) :=
  forward_bind (forward_take _) fun _ => forward_pure _

end Reader
end ClassPatch
