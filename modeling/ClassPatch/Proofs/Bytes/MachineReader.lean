import ClassPatch.Proofs.Bytes.Reading
import ClassPatch.Proofs.Halting

/-!
# Reading with machine words

The position of a `MachineCursor` is a 64-bit word. Its readers compute with such words, and what
they do is spelled out: a sum or difference that may not exist is asked for, other arithmetic halts
where its result is no word, and a slice halts unless it lies in the data.

`MachineReader.Follows R m r` says that `m` does on machine words what `r` does on natural numbers,
with results in the relation `R`. It therefore halts only with an error that `r` reports. The rules
follow the structure of a reader; what carries them is `MachineCursor.Stands`, that both cursors are
at the same place of the same data.
-/

namespace ClassPatch

/-- A position in a byte string, as a machine word. -/
structure MachineCursor where
  data : Array UInt8
  pos : UInt64

/-- A computation that reads at a machine cursor. -/
abbrev MachineReader (α : Type) := EStateM Halt MachineCursor α

namespace MachineReader

variable {α β γ δ : Type}

/-! ### Arithmetic on machine words -/

/-- The sum, if it is a word. -/
def checkedAdd (a b : UInt64) : Option UInt64 :=
  if a.toNat + b.toNat < UInt64.size then some (a + b) else none

/-- The difference, if it is a word. -/
def checkedSub (a b : UInt64) : Option UInt64 := if b ≤ a then some (a - b) else none

/-- The product, if it is a word. -/
def checkedMul (a b : UInt64) : Option UInt64 :=
  if a.toNat * b.toNat < UInt64.size then some (a * b) else none

/-- The remainder, if there is one. -/
def checkedMod (a b : UInt64) : Option UInt64 := if b = 0 then none else some (a % b)

def outOfBounds : MachineReader α := throw (.failed .outOfBounds)

/-- A word that was asked for. -/
def orOutOfBounds : Option UInt64 → MachineReader UInt64
  | some n => pure n
  | none => outOfBounds

/-- A word that was counted on. -/
def orOverflow : Option UInt64 → MachineReader UInt64
  | some n => pure n
  | none => throw .overflow

/-! ### Primitive readers -/

def position : MachineReader UInt64 := fun c => .ok c.pos c

def length : MachineReader UInt64 := fun c => .ok (UInt64.ofNat c.data.size) c

def move (pos : UInt64) : MachineReader Unit := fun c => .ok () { c with pos }

/-- The bytes from one position to another. -/
def slice (start stop : UInt64) : MachineReader Bytes := fun c =>
  if start ≤ stop ∧ stop.toNat ≤ c.data.size then
    .ok (c.data.extract start.toNat stop.toNat).toList c
  else
    .error .outside c

def seek (pos : UInt64) : MachineReader Unit := do
  if (← length) < pos then outOfBounds else move pos

def endOf (count : UInt64) : MachineReader UInt64 := do
  let stop ← orOutOfBounds (checkedAdd (← position) count)
  if (← length) < stop then outOfBounds else pure stop

def skip (count : UInt64) : MachineReader Unit := do move (← endOf count)

def align (base alignment : UInt64) : MachineReader Unit := do
  let relative ← orOutOfBounds (checkedSub (← position) base)
  let past ← orOverflow (checkedMod relative alignment)
  let padding ← orOverflow (checkedMod (← orOverflow (checkedSub alignment past)) alignment)
  skip padding

/-- The count of bytes ahead, none if the position is past the data. -/
def remaining : MachineReader UInt64 := do
  return (checkedSub (← length) (← position)).getD 0

def hasMore : MachineReader Bool := do
  return decide ((← position) < (← length))

def ensure (count : UInt64) : MachineReader Unit := do
  if (← remaining) < count then outOfBounds else pure ()

def peek : MachineReader UInt8 := fun c =>
  match c.data[c.pos.toNat]? with
  | some b => .ok b c
  | none => .error (.failed .outOfBounds) c

def take (count : UInt64) : MachineReader Bytes := do
  let stop ← endOf count
  let bytes ← slice (← position) stop
  move stop
  return bytes

/-- The next big-endian word, decoded from a slice of its width. -/
def word (α : Type) [Word α] : MachineReader α := do
  let stop ← endOf (UInt64.ofNat (Word.width α))
  let bytes ← slice (← position) stop
  if bytes.length = Word.width α then
    move stop
    return Word.decode α bytes
  else
    outOfBounds

def sized16 : MachineReader Bytes := do take (← word UInt16).toUInt64

def sized32 : MachineReader Bytes := do take (← word UInt32).toUInt64

def u16List : MachineReader (List UInt16) := do
  let count ← word UInt16
  ensure (← orOverflow (checkedMul count.toUInt64 2))
  (List.replicate count.toNat ()).mapM fun _ => word UInt16

end MachineReader

namespace MachineCursor

/-- Both cursors are at the same place of the same data, whose positions are machine words. -/
structure Stands (m : MachineCursor) (c : Cursor) : Prop where
  data : m.data = c.data
  pos : m.pos.toNat = c.pos
  inside : c.pos ≤ c.data.size
  fits : c.data.size < UInt64.size

namespace Stands

variable {m : MachineCursor} {c : Cursor}

theorem toNat_size (h : Stands m c) : (UInt64.ofNat m.data.size).toNat = c.data.size := by
  rw [h.data]
  exact UInt64.toNat_ofNat_of_lt' h.fits

theorem move (h : Stands m c) {pos : UInt64} (hpos : pos.toNat ≤ c.data.size) :
    Stands { m with pos } { c with pos := pos.toNat } where
  data := h.data
  pos := rfl
  inside := hpos
  fits := h.fits

end Stands

end MachineCursor

namespace MachineReader

open MachineCursor (Stands)

variable {α β γ δ : Type} {R : α → β → Prop} {S : γ → δ → Prop}

/-- Two outcomes are of one kind and stand at the same place. -/
inductive Agree (R : α → β → Prop) :
    EStateM.Result Halt MachineCursor α → EStateM.Result Error Cursor β → Prop
  | ok {x : α} {y : β} {m : MachineCursor} {c : Cursor} (hxy : R x y) (h : Stands m c) :
      Agree R (.ok x m) (.ok y c)
  | failed (e : Error) {m : MachineCursor} {c : Cursor} (h : Stands m c) :
      Agree R (.error (.failed e) m) (.error e c)

/-- From the same place, `m` does what `r` does. -/
def Follows (R : α → β → Prop) (m : MachineReader α) (r : Reader β) : Prop :=
  ∀ mc c, Stands mc c → Agree R (m mc) (r c)

/-- A word stands for the number that it is. -/
def Denotes (n : UInt64) (k : Nat) : Prop := n.toNat = k

namespace Follows

variable {m : MachineReader α} {r : Reader β} {f : α → MachineReader γ} {g : β → Reader δ}

theorem pure {x : α} {y : β} (h : R x y) : Follows R (pure x) (pure y) := by
  intro mc c hc
  exact .ok h hc

theorem outOfBounds : Follows R outOfBounds (throw .outOfBounds) := by
  intro mc c hc
  exact .failed .outOfBounds hc

theorem bind (h : Follows R m r) (hf : ∀ x y, R x y → Follows S (f x) (g y)) :
    Follows S (m >>= f) (r >>= g) := by
  intro mc c hc
  have hfirst := h mc c hc
  simp only [Bind.bind, EStateM.bind]
  generalize m mc = outcome, r c = outcome' at hfirst ⊢
  cases hfirst with
  | ok hxy hc' => exact hf _ _ hxy _ _ hc'
  | failed e hc' => exact .failed e hc'

theorem ite {p q : Prop} [Decidable p] [Decidable q] {m' : MachineReader α} {r' : Reader β}
    (hpq : p ↔ q) (h : Follows R m r) (h' : Follows R m' r') :
    Follows R (if p then m else m') (if q then r else r') := by
  by_cases hp : p
  · rw [if_pos hp, if_pos (hpq.mp hp)]
    exact h
  · rw [if_neg hp, if_neg fun hq => hp (hpq.mpr hq)]
    exact h'

/-- A row of values, each read in the same way. -/
theorem times {r : Reader α} (h : Follows Eq m r) (count : Nat) :
    Follows Eq ((List.replicate count ()).mapM fun _ => m) (Reader.times count r) := by
  induction count with
  | zero => exact pure rfl
  | succ count ih =>
    simp only [Reader.times, List.replicate_succ, List.mapM_cons] at ih ⊢
    refine h.bind fun x y hxy => ih.bind fun xs ys hxs => pure ?_
    rw [hxy, hxs]

end Follows

/-! ### What the arithmetic gives -/

theorem exists_checkedAdd {a b : UInt64} (h : a.toNat + b.toNat < UInt64.size) :
    ∃ n, checkedAdd a b = some n ∧ n.toNat = a.toNat + b.toNat := by
  refine ⟨a + b, if_pos h, ?_⟩
  rw [UInt64.toNat_add]
  exact Nat.mod_eq_of_lt h

theorem checkedAdd_eq_none {a b : UInt64} (h : UInt64.size ≤ a.toNat + b.toNat) :
    checkedAdd a b = none :=
  if_neg (Nat.not_lt.mpr h)

theorem exists_checkedSub {a b : UInt64} (h : b.toNat ≤ a.toNat) :
    ∃ n, checkedSub a b = some n ∧ n.toNat = a.toNat - b.toNat :=
  have hle : b ≤ a := UInt64.le_iff_toNat_le.mpr h
  ⟨a - b, if_pos hle, UInt64.toNat_sub_of_le a b hle⟩

theorem checkedSub_eq_none {a b : UInt64} (h : a.toNat < b.toNat) : checkedSub a b = none :=
  if_neg (Nat.not_le.mpr h ∘ UInt64.le_iff_toNat_le.mp)

theorem exists_checkedMul {a b : UInt64} (h : a.toNat * b.toNat < UInt64.size) :
    ∃ n, checkedMul a b = some n ∧ n.toNat = a.toNat * b.toNat := by
  refine ⟨a * b, if_pos h, ?_⟩
  rw [UInt64.toNat_mul]
  exact Nat.mod_eq_of_lt h

theorem exists_checkedMod {b : UInt64} (a : UInt64) (h : b ≠ 0) :
    ∃ n, checkedMod a b = some n ∧ n.toNat = a.toNat % b.toNat :=
  ⟨a % b, if_neg h, UInt64.toNat_mod a b⟩

/-! ### Readers that follow -/

section Agreement

variable {mc : MachineCursor} {c : Cursor}

theorem follows_position : Follows Denotes position Reader.position := by
  intro mc c hc
  exact .ok hc.pos hc

theorem position_eq (mc : MachineCursor) : position mc = .ok mc.pos mc := rfl

theorem length_eq (mc : MachineCursor) : length mc = .ok (UInt64.ofNat mc.data.size) mc := rfl

theorem follows_seek (pos : UInt64) : Follows Eq (seek pos) (Reader.seek pos.toNat) := by
  intro mc c hc
  have hlt : UInt64.ofNat mc.data.size < pos ↔ c.data.size < pos.toNat := by
    rw [UInt64.lt_iff_toNat_lt, hc.toNat_size]
  rw [seek, EStateM.bind_of_ok (length_eq mc), Reader.seek]
  by_cases hpos : pos.toNat ≤ c.data.size
  · rw [if_neg (Nat.not_lt.mpr hpos ∘ hlt.mp), if_pos hpos]
    exact .ok rfl (hc.move hpos)
  · rw [if_pos (hlt.mpr (Nat.not_le.mp hpos)), if_neg hpos]
    exact .failed .outOfBounds hc

/-- The end of bytes that are ahead. -/
theorem exists_endOf (hc : mc.Stands c) {count : UInt64} (h : c.pos + count.toNat ≤ c.data.size) :
    ∃ stop, endOf count mc = .ok stop mc ∧ stop.toNat = c.pos + count.toNat := by
  obtain ⟨stop, hstop, hsum⟩ : ∃ stop, checkedAdd mc.pos count = some stop ∧
      stop.toNat = mc.pos.toNat + count.toNat := by
    refine exists_checkedAdd ?_
    rw [hc.pos]
    exact Nat.lt_of_le_of_lt h hc.fits
  rw [hc.pos] at hsum
  refine ⟨stop, ?_, hsum⟩
  have hroom : ¬UInt64.ofNat mc.data.size < stop := by
    rw [UInt64.lt_iff_toNat_lt, hc.toNat_size, hsum]
    exact Nat.not_lt.mpr h
  calc endOf count mc
    _ = (if UInt64.ofNat mc.data.size < stop then outOfBounds else pure stop) mc := by
      rw [endOf, EStateM.bind_of_ok (position_eq mc), hstop]
      rfl
    _ = .ok stop mc := by rw [if_neg hroom]; rfl

/-- The end of bytes that are missing, or past the last position there is. -/
theorem endOf_eq_error (hc : mc.Stands c) {count : UInt64}
    (h : c.data.size < c.pos + count.toNat) :
    endOf count mc = .error (.failed .outOfBounds) mc := by
  rw [endOf, EStateM.bind_of_ok (position_eq mc)]
  by_cases hfits : mc.pos.toNat + count.toNat < UInt64.size
  · obtain ⟨stop, hstop, hsum⟩ := exists_checkedAdd hfits
    have hshort : UInt64.ofNat mc.data.size < stop := by
      rw [UInt64.lt_iff_toNat_lt, hc.toNat_size, hsum, hc.pos]
      exact h
    rw [hstop]
    calc _ = (if UInt64.ofNat mc.data.size < stop then outOfBounds else pure stop) mc := rfl
      _ = .error (.failed .outOfBounds) mc := by rw [if_pos hshort]; rfl
  · rw [checkedAdd_eq_none (Nat.not_lt.mp hfits)]
    rfl

theorem follows_endOf (count : UInt64) :
    Follows Denotes (endOf count) (Reader.endOf count.toNat) := by
  intro mc c hc
  rw [Reader.endOf]
  by_cases h : c.pos + count.toNat ≤ c.data.size
  · obtain ⟨stop, hstop, hsum⟩ := exists_endOf hc h
    rw [hstop, if_pos h]
    exact .ok hsum hc
  · rw [endOf_eq_error hc (Nat.not_le.mp h), if_neg h]
    exact .failed .outOfBounds hc

theorem follows_skip (count : UInt64) : Follows Eq (skip count) (Reader.skip count.toNat) := by
  intro mc c hc
  by_cases h : c.pos + count.toNat ≤ c.data.size
  · obtain ⟨stop, hstop, hsum⟩ := exists_endOf hc h
    have hend : Reader.endOf count.toNat c = .ok (c.pos + count.toNat) c := if_pos h
    rw [skip, EStateM.bind_of_ok hstop, Reader.skip, EStateM.bind_of_ok hend, ← hsum, Reader.seek,
      if_pos (hsum ▸ h)]
    exact .ok rfl (hc.move (hsum ▸ h))
  · have hend : Reader.endOf count.toNat c = .error .outOfBounds c := if_neg h
    rw [skip, EStateM.bind_of_error (endOf_eq_error hc (Nat.not_le.mp h)), Reader.skip,
      EStateM.bind_of_error hend]
    exact .failed .outOfBounds hc

/-- The differences and remainders of an alignment are words, so that only what lies past the data
is refused. -/
theorem follows_align (base : UInt64) {alignment : UInt64} (h : alignment ≠ 0) :
    Follows Eq (align base alignment) (Reader.align base.toNat alignment.toNat) := by
  refine follows_position.bind fun pos place hpos => ?_
  cases hpos
  by_cases hbase : base.toNat ≤ pos.toNat
  · obtain ⟨relative, hrelative, hrelativeEq⟩ := exists_checkedSub hbase
    obtain ⟨past, hpast, hpastEq⟩ := exists_checkedMod relative h
    have hpositive : 0 < alignment.toNat := Nat.pos_of_ne_zero fun h0 => h (UInt64.toNat_inj.mp h0)
    obtain ⟨gap, hgap, hgapEq⟩ : ∃ gap, checkedSub alignment past = some gap ∧
        gap.toNat = alignment.toNat - past.toNat := by
      refine exists_checkedSub ?_
      rw [hpastEq]
      exact Nat.le_of_lt (Nat.mod_lt _ hpositive)
    obtain ⟨padding, hpadding, hpaddingEq⟩ := exists_checkedMod gap h
    rw [hgapEq, hpastEq, hrelativeEq] at hpaddingEq
    rw [if_pos hbase, ← hpaddingEq]
    simp only [hrelative, hpast, hgap, hpadding, orOutOfBounds, orOverflow, pure_bind]
    exact follows_skip padding
  · rw [checkedSub_eq_none (Nat.not_le.mp hbase), if_neg hbase]
    exact .outOfBounds

theorem follows_remaining : Follows Denotes remaining Reader.remaining := by
  intro mc c hc
  have hle : mc.pos.toNat ≤ (UInt64.ofNat mc.data.size).toNat := by
    rw [hc.pos, hc.toNat_size]
    exact hc.inside
  obtain ⟨n, hn, hsub⟩ := exists_checkedSub hle
  have hrun : remaining mc = .ok n mc := by
    rw [remaining, EStateM.bind_of_ok (length_eq mc),
      EStateM.bind_of_ok (position_eq mc), hn]
    rfl
  rw [hrun]
  refine .ok ?_ hc
  rw [Denotes, hsub, hc.pos, hc.toNat_size, Cursor.remaining]

theorem follows_hasMore : Follows Eq hasMore Reader.hasMore := by
  intro mc c hc
  refine .ok ?_ hc
  rw [Cursor.hasMore, decide_eq_decide, UInt64.lt_iff_toNat_lt, hc.pos, hc.toNat_size]

theorem follows_ensure (count : UInt64) :
    Follows Eq (ensure count) (Reader.ensure count.toNat) := by
  refine follows_remaining.bind fun n k hnk => .ite ?_ .outOfBounds (.pure rfl)
  rw [UInt64.lt_iff_toNat_lt, hnk]

theorem follows_peek : Follows Eq peek Reader.peek := by
  intro mc c hc
  rw [peek, Reader.peek, hc.data, hc.pos]
  cases c.data[c.pos]? with
  | some b => exact .ok rfl hc
  | none => exact .failed .outOfBounds hc

/-- A slice that begins at the position and ends in the data. -/
theorem slice_eq (hc : mc.Stands c) {stop : UInt64} (hle : c.pos ≤ stop.toNat)
    (hstop : stop.toNat ≤ c.data.size) :
    slice mc.pos stop mc = .ok (c.data.extract c.pos stop.toNat).toList mc := by
  have hrange : mc.pos ≤ stop ∧ stop.toNat ≤ mc.data.size := by
    rw [UInt64.le_iff_toNat_le, hc.pos, hc.data]
    exact ⟨hle, hstop⟩
  rw [slice, if_pos hrange, hc.data, hc.pos]

theorem follows_take (count : UInt64) : Follows Eq (take count) (Reader.take count.toNat) := by
  intro mc c hc
  by_cases h : c.pos + count.toNat ≤ c.data.size
  · obtain ⟨stop, hstop, hsum⟩ := exists_endOf hc h
    have hslice := slice_eq hc (hsum ▸ Nat.le_add_right ..) (hsum ▸ h)
    rw [take, EStateM.bind_of_ok hstop, EStateM.bind_of_ok (position_eq mc),
      EStateM.bind_of_ok hslice, Reader.take, if_pos h, ← hsum]
    exact .ok rfl (hc.move (hsum ▸ h))
  · rw [take, EStateM.bind_of_error (endOf_eq_error hc (Nat.not_le.mp h)), Reader.take, if_neg h]
    exact .failed .outOfBounds hc

/-- A slice of the width of a word has that many bytes. -/
theorem follows_word (α : Type) [Word α] (h : Word.width α < UInt64.size) :
    Follows Eq (word α) (Reader.word α) := by
  intro mc c hc
  have hwidth : (UInt64.ofNat (Word.width α)).toNat = Word.width α := UInt64.toNat_ofNat_of_lt' h
  by_cases hroom : c.pos + Word.width α ≤ c.data.size
  · obtain ⟨stop, hstop, hsum⟩ := exists_endOf hc (hwidth.symm ▸ hroom)
    rw [hwidth] at hsum
    have hslice := slice_eq hc (hsum ▸ Nat.le_add_right ..) (hsum ▸ hroom)
    have hlength : (c.data.extract c.pos stop.toNat).toList.length = Word.width α := by
      simp only [Array.length_toList, Array.size_extract]
      omega
    have htake : Reader.take (Word.width α) c =
        .ok (c.data.extract c.pos (c.pos + Word.width α)).toList
          { c with pos := c.pos + Word.width α } := if_pos hroom
    rw [word, EStateM.bind_of_ok hstop, EStateM.bind_of_ok (position_eq mc),
      EStateM.bind_of_ok hslice, if_pos hlength, Reader.word, EStateM.bind_of_ok htake, ← hsum]
    exact .ok rfl (hc.move (hsum ▸ hroom))
  · have htake : Reader.take (Word.width α) c = .error .outOfBounds c := if_neg hroom
    rw [word, EStateM.bind_of_error (endOf_eq_error hc (hwidth.symm ▸ Nat.not_le.mp hroom)),
      Reader.word, EStateM.bind_of_error htake]
    exact .failed .outOfBounds hc

theorem follows_u16 : Follows Eq (word UInt16) Reader.u16 := follows_word UInt16 (by decide)

theorem follows_sized16 : Follows Eq sized16 Reader.sized16 := by
  refine follows_u16.bind fun count _ hcount => ?_
  rw [← hcount, ← UInt16.toNat_toUInt64]
  exact follows_take _

theorem follows_sized32 : Follows Eq sized32 Reader.sized32 := by
  refine (follows_word UInt32 (by decide)).bind fun count _ hcount => ?_
  rw [← hcount, ← UInt32.toNat_toUInt64]
  exact follows_take _

/-- Twice a 16-bit count is a word. -/
theorem follows_u16List : Follows Eq u16List Reader.u16List := by
  refine follows_u16.bind fun count _ hcount => ?_
  rw [← hcount]
  have hfits : count.toUInt64.toNat * (2 : UInt64).toNat < UInt64.size := by
    have hcount := count.toNat_lt
    rw [UInt16.toNat_toUInt64]
    simp only [UInt64.reduceToNat, UInt64.size]
    omega
  obtain ⟨size, hsize, hsizeEq⟩ := exists_checkedMul hfits
  rw [UInt16.toNat_toUInt64] at hsizeEq
  have hensure := follows_ensure size
  rw [hsizeEq] at hensure
  simp only [hsize, orOverflow, pure_bind]
  exact hensure.bind fun _ _ _ => follows_u16.times count.toNat

end Agreement

end MachineReader
end ClassPatch
