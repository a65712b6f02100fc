import ClassPatch.Proofs.Bytes.MachineReader

/-!
# The cursor stays in its data

A `Call` is one operation of a reader of bytes, with machine words for its arguments. Calls follow
each other whether they succeed or fail, and whatever they are, the cursor stays in the data. The
step is `Call.keeps`: an outcome is a position of the same data, or a failure for lack of bytes,
which has consumed the complete length in front of a sequence or nothing. The run is by induction on
the calls.

On machine words the same calls have the same outcomes, so none of them halts.
-/

namespace ClassPatch

namespace Reader

variable {α β : Type}

/-- What a reader at a position of its data leaves: another position of it, or a failure behind
`lost` bytes. -/
inductive Keeps (c : Cursor) (lost : Nat) : EStateM.Result Error Cursor α → Prop
  | ok (x : α) {pos : Nat} (h : pos ≤ c.data.size) : Keeps c lost (.ok x { c with pos })
  | outOfBounds (h : c.pos + lost ≤ c.data.size) :
      Keeps c lost (.error .outOfBounds { c with pos := c.pos + lost })

/-- The reader stays where it is. -/
def Looks (r : Reader α) : Prop := ∀ c, (∃ x, r c = .ok x c) ∨ r c = .error .outOfBounds c

/-- The reader stays in the data, and where it is if it fails. -/
def Careful (r : Reader α) : Prop := ∀ c, c.pos ≤ c.data.size → Keeps c 0 (r c)

section Rules

variable {r : Reader α} {f : α → Reader β}

theorem Careful.of_looks (hr : Looks r) : Careful r := by
  intro c hc
  rcases hr c with ⟨x, hx⟩ | hfail
  · rw [hx]
    exact .ok x hc
  · rw [hfail]
    exact .outOfBounds hc

/-- Looking ahead before moving. -/
theorem Careful.bind_of_looks (hr : Looks r) (hf : ∀ x, Careful (f x)) : Careful (r >>= f) := by
  intro c hc
  rcases hr c with ⟨x, hx⟩ | hfail
  · rw [EStateM.bind_of_ok hx]
    exact hf x c hc
  · rw [EStateM.bind_of_error hfail]
    exact .outOfBounds hc

theorem Keeps.bind_pure {c : Cursor} {lost : Nat} (hr : Keeps c lost (r c)) (g : α → β) :
    Keeps c lost ((r >>= fun x => pure (g x)) c) := by
  simp only [Bind.bind, EStateM.bind]
  generalize r c = outcome at hr ⊢
  cases hr with
  | ok x h => exact .ok (g x) h
  | outOfBounds h => exact .outOfBounds h

theorem Careful.bind_pure (hr : Careful r) (g : α → β) : Careful (r >>= fun x => pure (g x)) :=
  fun c hc => (hr c hc).bind_pure g

theorem Careful.throw : Careful (throw .outOfBounds : Reader α) := fun _ hc => .outOfBounds hc

end Rules

/-! ### Readers that look -/

theorem looks_position : Looks position := fun c => .inl ⟨c.pos, rfl⟩

theorem looks_remaining : Looks remaining := fun c => .inl ⟨c.remaining, rfl⟩

theorem looks_hasMore : Looks hasMore := fun c => .inl ⟨c.hasMore, rfl⟩

theorem looks_endOf (count : Nat) : Looks (endOf count) := by
  intro c
  by_cases h : c.pos + count ≤ c.data.size
  · exact .inl ⟨_, if_pos h⟩
  · exact .inr (if_neg h)

theorem looks_peek : Looks peek := by
  intro c
  rw [peek]
  cases c.data[c.pos]? with
  | some b => exact .inl ⟨b, rfl⟩
  | none => exact .inr rfl

theorem ensure_of_le {c : Cursor} {count : Nat} (h : count ≤ c.remaining) :
    ensure count c = .ok () c := by
  have hcount : ¬c.remaining < count := Nat.not_lt.mpr h
  rw [ensure, EStateM.bind_of_ok (show remaining c = .ok c.remaining c from rfl), if_neg hcount]
  rfl

theorem ensure_of_lt {c : Cursor} {count : Nat} (h : c.remaining < count) :
    ensure count c = .error .outOfBounds c := by
  rw [ensure, EStateM.bind_of_ok (show remaining c = .ok c.remaining c from rfl), if_pos h]
  rfl

theorem looks_ensure (count : Nat) : Looks (ensure count) := by
  intro c
  rcases Nat.lt_or_ge c.remaining count with h | h
  · exact .inr (ensure_of_lt h)
  · exact .inl ⟨(), ensure_of_le h⟩

/-! ### Readers that move -/

theorem careful_seek (pos : Nat) : Careful (seek pos) := by
  intro c hc
  rw [seek]
  split
  · exact .ok () ‹_›
  · exact .outOfBounds hc

theorem careful_skip (count : Nat) : Careful (skip count) :=
  .bind_of_looks (looks_endOf count) careful_seek

theorem careful_align (base alignment : Nat) : Careful (align base alignment) := by
  refine .bind_of_looks looks_position fun pos => ?_
  split
  · exact careful_skip _
  · exact .throw

theorem careful_take (count : Nat) : Careful (take count) := by
  intro c hc
  rw [take]
  split
  · exact .ok _ ‹_›
  · exact .outOfBounds hc

theorem careful_word (α : Type) [Word α] : Careful (word α) :=
  (careful_take _).bind_pure _

/-! ### Readers behind a length -/

theorem exists_word {c : Cursor} (α : Type) [Word α] (h : c.pos + Word.width α ≤ c.data.size) :
    ∃ x, word α c = .ok x { c with pos := c.pos + Word.width α } :=
  ⟨_, EStateM.bind_of_ok (if_pos h)⟩

theorem word_of_lt {c : Cursor} (α : Type) [Word α] (h : c.data.size < c.pos + Word.width α) :
    word α c = .error .outOfBounds c :=
  EStateM.bind_of_error (if_neg (Nat.not_le.mpr h))

/-- A length has been taken if it is complete. -/
theorem keeps_word_bind {f : α → Reader β} [Word α] (hf : ∀ x, Careful (f x)) {c : Cursor}
    (hc : c.pos ≤ c.data.size) :
    Keeps c (if Word.width α ≤ c.remaining then Word.width α else 0) ((word α >>= f) c) := by
  by_cases hroom : c.pos + Word.width α ≤ c.data.size
  · obtain ⟨x, hx⟩ := exists_word α hroom
    have hcomplete : Word.width α ≤ c.remaining := Nat.le_sub_of_add_le' hroom
    have hkeeps := hf x { c with pos := c.pos + Word.width α } hroom
    rw [if_pos hcomplete, EStateM.bind_of_ok hx]
    generalize f x _ = outcome at hkeeps ⊢
    cases hkeeps with
    | ok y h => exact .ok y h
    | outOfBounds h => exact .outOfBounds h
  · have hshort : ¬Word.width α ≤ c.remaining := fun h =>
      hroom (Nat.add_le_of_le_sub' hc h)
    rw [if_neg hshort, EStateM.bind_of_error (word_of_lt α (Nat.not_le.mp hroom))]
    exact .outOfBounds hc

/-- Words that are ahead are all read. -/
theorem exists_times_word {c : Cursor} (α : Type) [Word α] (count : Nat)
    (h : c.pos + count * Word.width α ≤ c.data.size) :
    ∃ xs, times count (word α) c = .ok xs { c with pos := c.pos + count * Word.width α } := by
  induction count generalizing c with
  | zero => exact ⟨[], by simp [times, Pure.pure, EStateM.pure]⟩
  | succ count ih =>
    rw [Nat.succ_mul, Nat.add_comm (count * _), ← Nat.add_assoc] at h ⊢
    obtain ⟨x, hx⟩ := exists_word α (Nat.le_trans (Nat.le_add_right ..) h)
    obtain ⟨xs, hxs⟩ := @ih { c with pos := c.pos + Word.width α } h
    refine ⟨x :: xs, ?_⟩
    simp only [times, List.replicate_succ, List.mapM_cons] at hxs ⊢
    rw [EStateM.bind_of_ok hx, EStateM.bind_of_ok hxs]
    rfl

theorem careful_words (count : Nat) :
    Careful (ensure (count * 2) >>= fun _ => times count u16) := by
  intro c hc
  rcases Nat.lt_or_ge c.remaining (count * 2) with h | h
  · rw [EStateM.bind_of_error (ensure_of_lt h)]
    exact .outOfBounds hc
  · have hroom : c.pos + count * Word.width UInt16 ≤ c.data.size := Nat.add_le_of_le_sub' hc h
    obtain ⟨xs, hxs⟩ := exists_times_word UInt16 count hroom
    rw [EStateM.bind_of_ok (ensure_of_le h), u16, hxs]
    exact .ok xs hroom

theorem keeps_sized16 {c : Cursor} (hc : c.pos ≤ c.data.size) :
    Keeps c (if 2 ≤ c.remaining then 2 else 0) (sized16 c) :=
  keeps_word_bind (α := UInt16) (fun _ => careful_take _) hc

theorem keeps_sized32 {c : Cursor} (hc : c.pos ≤ c.data.size) :
    Keeps c (if 4 ≤ c.remaining then 4 else 0) (sized32 c) :=
  keeps_word_bind (α := UInt32) (fun _ => careful_take _) hc

theorem keeps_u16List {c : Cursor} (hc : c.pos ≤ c.data.size) :
    Keeps c (if 2 ≤ c.remaining then 2 else 0) (u16List c) :=
  keeps_word_bind (α := UInt16) (fun _ => careful_words _) hc

end Reader

/-! ### Calls -/

/-- The kinds of numbers that are read at a fixed width. -/
inductive WordKind
  | u8 | i8 | u16 | i16 | u32 | i32 | u64 | i64

/-- The numbers of a kind. -/
def WordKind.Value : WordKind → Type
  | u8 => UInt8
  | i8 => Int8
  | u16 => UInt16
  | i16 => Int16
  | u32 => UInt32
  | i32 => Int32
  | u64 => UInt64
  | i64 => Int64

instance : (kind : WordKind) → Word kind.Value
  | .u8 => inferInstanceAs (Word UInt8)
  | .i8 => inferInstanceAs (Word Int8)
  | .u16 => inferInstanceAs (Word UInt16)
  | .i16 => inferInstanceAs (Word Int16)
  | .u32 => inferInstanceAs (Word UInt32)
  | .i32 => inferInstanceAs (Word Int32)
  | .u64 => inferInstanceAs (Word UInt64)
  | .i64 => inferInstanceAs (Word Int64)

theorem WordKind.width_le (kind : WordKind) : Word.width kind.Value ≤ 8 := by
  cases kind <;> decide

/-- One operation of a reader. -/
inductive Call
  | position
  | remaining
  | hasMore
  | seek (pos : UInt64)
  | endOf (count : UInt64)
  | skip (count : UInt64)
  | align (base alignment : UInt64) (h : alignment ≠ 0)
  | ensure (count : UInt64)
  | peek
  | take (count : UInt64)
  | word (kind : WordKind)
  | sized16
  | sized32
  | u16List

/-- What an operation answers. -/
inductive Answer
  | done
  | number (n : Nat)
  | flag (b : Bool)
  | byte (b : UInt8)
  | bytes (bytes : Bytes)
  | word (kind : WordKind) (x : kind.Value)
  | words (xs : List UInt16)

namespace Call

/-- The operation on natural numbers. -/
def reader : Call → Reader Answer
  | position => do return .number (← Reader.position)
  | remaining => do return .number (← Reader.remaining)
  | hasMore => do return .flag (← Reader.hasMore)
  | seek pos => do Reader.seek pos.toNat; return .done
  | endOf count => do return .number (← Reader.endOf count.toNat)
  | skip count => do Reader.skip count.toNat; return .done
  | align base alignment _ => do Reader.align base.toNat alignment.toNat; return .done
  | ensure count => do Reader.ensure count.toNat; return .done
  | peek => do return .byte (← Reader.peek)
  | take count => do return .bytes (← Reader.take count.toNat)
  | word kind => do return .word kind (← Reader.word kind.Value)
  | sized16 => do return .bytes (← Reader.sized16)
  | sized32 => do return .bytes (← Reader.sized32)
  | u16List => do return .words (← Reader.u16List)

/-- The operation on machine words. -/
def machineReader : Call → MachineReader Answer
  | position => do return .number (← MachineReader.position).toNat
  | remaining => do return .number (← MachineReader.remaining).toNat
  | hasMore => do return .flag (← MachineReader.hasMore)
  | seek pos => do MachineReader.seek pos; return .done
  | endOf count => do return .number (← MachineReader.endOf count).toNat
  | skip count => do MachineReader.skip count; return .done
  | align base alignment _ => do MachineReader.align base alignment; return .done
  | ensure count => do MachineReader.ensure count; return .done
  | peek => do return .byte (← MachineReader.peek)
  | take count => do return .bytes (← MachineReader.take count)
  | word kind => do return .word kind (← MachineReader.word kind.Value)
  | sized16 => do return .bytes (← MachineReader.sized16)
  | sized32 => do return .bytes (← MachineReader.sized32)
  | u16List => do return .words (← MachineReader.u16List)

/-- The width of the length in front of what the operation takes, if there is one. -/
def lengthWidth : Call → Nat
  | sized16 | u16List => 2
  | sized32 => 4
  | _ => 0

/-- The bytes that the operation has consumed if it fails: its length, if that is complete. -/
def lost (call : Call) (c : Cursor) : Nat :=
  if call.lengthWidth ≤ c.remaining then call.lengthWidth else 0

theorem follows (call : Call) : MachineReader.Follows Eq call.machineReader call.reader := by
  cases call with
  | position =>
    exact MachineReader.follows_position.bind fun _ _ h => .pure (congrArg Answer.number h)
  | remaining =>
    exact MachineReader.follows_remaining.bind fun _ _ h => .pure (congrArg Answer.number h)
  | hasMore => exact MachineReader.follows_hasMore.bind fun _ _ h => .pure (congrArg Answer.flag h)
  | seek pos => exact (MachineReader.follows_seek pos).bind fun _ _ _ => .pure rfl
  | endOf count =>
    exact (MachineReader.follows_endOf count).bind fun _ _ h => .pure (congrArg Answer.number h)
  | skip count => exact (MachineReader.follows_skip count).bind fun _ _ _ => .pure rfl
  | align base alignment h => exact (MachineReader.follows_align base h).bind fun _ _ _ => .pure rfl
  | ensure count => exact (MachineReader.follows_ensure count).bind fun _ _ _ => .pure rfl
  | peek => exact MachineReader.follows_peek.bind fun _ _ h => .pure (congrArg Answer.byte h)
  | take count =>
    exact (MachineReader.follows_take count).bind fun _ _ h => .pure (congrArg Answer.bytes h)
  | word kind =>
    have hwidth : Word.width kind.Value < UInt64.size :=
      Nat.lt_of_le_of_lt kind.width_le (by decide)
    exact (MachineReader.follows_word _ hwidth).bind fun _ _ h =>
      .pure (congrArg (Answer.word kind) h)
  | sized16 => exact MachineReader.follows_sized16.bind fun _ _ h => .pure (congrArg Answer.bytes h)
  | sized32 => exact MachineReader.follows_sized32.bind fun _ _ h => .pure (congrArg Answer.bytes h)
  | u16List => exact MachineReader.follows_u16List.bind fun _ _ h => .pure (congrArg Answer.words h)

/-- An operation that reads no length consumes nothing if it fails. -/
theorem careful (call : Call) (h : call.lengthWidth = 0) : Reader.Careful call.reader := by
  cases call with
  | position => exact (Reader.Careful.of_looks Reader.looks_position).bind_pure _
  | remaining => exact (Reader.Careful.of_looks Reader.looks_remaining).bind_pure _
  | hasMore => exact (Reader.Careful.of_looks Reader.looks_hasMore).bind_pure _
  | seek pos => exact (Reader.careful_seek _).bind_pure _
  | endOf count => exact (Reader.Careful.of_looks (Reader.looks_endOf _)).bind_pure _
  | skip count => exact (Reader.careful_skip _).bind_pure _
  | align base alignment => exact (Reader.careful_align _ _).bind_pure _
  | ensure count => exact (Reader.Careful.of_looks (Reader.looks_ensure _)).bind_pure _
  | peek => exact (Reader.Careful.of_looks Reader.looks_peek).bind_pure _
  | take count => exact (Reader.careful_take _).bind_pure _
  | word kind => exact (Reader.careful_word _).bind_pure _
  | sized16 | sized32 | u16List => cases h

theorem lost_of_lengthWidth {call : Call} (h : call.lengthWidth = 0) (c : Cursor) :
    call.lost c = 0 := by
  rw [lost, h, ite_self]

/-- What one operation keeps. -/
theorem keeps (call : Call) {c : Cursor} (hc : c.pos ≤ c.data.size) :
    Reader.Keeps c (call.lost c) (call.reader c) := by
  cases call with
  | sized16 => exact (Reader.keeps_sized16 hc).bind_pure _
  | sized32 => exact (Reader.keeps_sized32 hc).bind_pure _
  | u16List => exact (Reader.keeps_u16List hc).bind_pure _
  | _ =>
    rw [lost_of_lengthWidth rfl]
    exact careful _ rfl c hc

end Call

/-! ### Runs -/

/-- The cursor behind operations that succeed or fail one after the other. -/
def Cursor.run (c : Cursor) (calls : List Call) : Cursor :=
  calls.foldl (fun c call => Reader.after (call.reader c)) c

/-- The start of a byte string. -/
def MachineCursor.ofBytes (bytes : Bytes) : MachineCursor := ⟨bytes.toArray, 0⟩

/-- The machine cursor that an outcome leaves. -/
def MachineReader.after {α : Type} : EStateM.Result Halt MachineCursor α → MachineCursor
  | .ok _ c => c
  | .error _ c => c

/-- The machine cursor behind operations that succeed, fail or halt one after the other. -/
def MachineCursor.run (c : MachineCursor) (calls : List Call) : MachineCursor :=
  calls.foldl (fun c call => MachineReader.after (call.machineReader c)) c

theorem Reader.Keeps.inside {α : Type} {c : Cursor} {lost : Nat}
    {outcome : EStateM.Result Error Cursor α} (h : Reader.Keeps c lost outcome) :
    (Reader.after outcome).data = c.data ∧ (Reader.after outcome).pos ≤ c.data.size := by
  cases h with
  | ok x h => exact ⟨rfl, h⟩
  | outOfBounds h => exact ⟨rfl, h⟩

theorem MachineReader.Agree.stands {α β : Type} {R : α → β → Prop}
    {outcome : EStateM.Result Halt MachineCursor α} {outcome' : EStateM.Result Error Cursor β}
    (h : MachineReader.Agree R outcome outcome') :
    (MachineReader.after outcome).Stands (Reader.after outcome') := by
  cases h with
  | ok _ h => exact h
  | failed _ h => exact h

theorem Cursor.inside_run (calls : List Call) {c : Cursor} (hc : c.pos ≤ c.data.size) :
    (c.run calls).data = c.data ∧ (c.run calls).pos ≤ c.data.size := by
  induction calls generalizing c with
  | nil => exact ⟨rfl, hc⟩
  | cons call calls ih =>
    obtain ⟨hdata, hpos⟩ := (call.keeps hc).inside
    have hrest := ih (hdata.symm ▸ hpos)
    rwa [hdata] at hrest

theorem MachineCursor.Stands.run (calls : List Call) {m : MachineCursor} {c : Cursor}
    (h : m.Stands c) : (m.run calls).Stands (c.run calls) := by
  induction calls generalizing m c with
  | nil => exact h
  | cons call calls ih => exact ih (call.follows m c h).stands

/-- Whatever operations have succeeded or failed on a byte string, the position is one of the string
and the bytes ahead are counted from it. The next operation fails only for lack of bytes, where it
is or behind a complete length. On machine words it has the same outcome. -/
theorem Cursor.valid_run (bytes : Bytes) (calls : List Call) :
    let c := (ofBytes bytes).run calls
    c.data = bytes.toArray ∧ c.pos ≤ bytes.length ∧ c.remaining + c.pos = bytes.length ∧
      (c.hasMore = true ↔ c.remaining ≠ 0) ∧
      (∀ (call : Call) e c', call.reader c = .error e c' →
        e = .outOfBounds ∧ c' = { c with pos := c.pos + call.lost c }) ∧
      (bytes.length < UInt64.size → ∀ call : Call,
        MachineReader.Agree Eq (call.machineReader ((MachineCursor.ofBytes bytes).run calls))
          (call.reader c)) := by
  intro c
  obtain ⟨hdata, hpos⟩ := inside_run calls (c := ofBytes bytes) (Nat.zero_le _)
  have hsize : c.data.size = bytes.length := congrArg Array.size hdata
  have hinside : c.pos ≤ c.data.size := hsize.symm ▸ hpos
  refine ⟨hdata, hpos, ?_, ?_, ?_, ?_⟩
  · rw [remaining, Nat.sub_add_cancel hinside, hsize]
  · rw [hasMore, decide_eq_true_iff, remaining, Nat.sub_ne_zero_iff_lt]
  · intro call e c' herror
    have hkeeps := call.keeps hinside
    rw [herror] at hkeeps
    cases hkeeps
    exact ⟨rfl, rfl⟩
  · intro hfits call
    have hstart : (MachineCursor.ofBytes bytes).Stands (ofBytes bytes) :=
      ⟨rfl, rfl, Nat.zero_le _, hfits⟩
    exact call.follows _ _ (hstart.run calls)

/-- A jump to the end of the address space and an alignment with nothing to skip, then a length that
asks for more bytes than there are: the length is consumed. -/
theorem Cursor.valid_run_truncated :
    let calls := [.skip 18446744073709551615, .align 0 4 (by decide), .peek]
    let c := (ofBytes [0, 5, 170]).run calls
    ([0, 5, 170] : Bytes).length < UInt64.size ∧
      (∃ c', Call.sized16.reader c = .error .outOfBounds c' ∧ c' = { c with pos := 2 }) ∧
      MachineReader.Agree Eq
        (Call.sized16.machineReader ((MachineCursor.ofBytes [0, 5, 170]).run calls))
        (Call.sized16.reader c) := by
  intro calls c
  have hfits : ([0, 5, 170] : Bytes).length < UInt64.size := by decide
  obtain ⟨-, -, -, -, herror, hmachine⟩ := valid_run [0, 5, 170] calls
  have hfails : Call.sized16.reader c = .error .outOfBounds ⟨#[0, 5, 170], 2⟩ := by cbv
  exact ⟨hfits, ⟨_, hfails, (herror .sized16 _ _ hfails).2⟩, hmachine hfits .sized16⟩

end ClassPatch
