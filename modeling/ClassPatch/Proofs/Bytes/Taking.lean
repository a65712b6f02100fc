import ClassPatch.Proofs.Bytes.Reading
import ClassPatch.Proofs.Outcome

/-!
# What readers have taken

`Reader.Takes r R` says that whatever the reader `r` gives, it has taken bytes that stand in the
relation `R` to it, and has left all bytes behind them. With the written form as the relation this
is the converse of reading back what was written: nothing is read from bytes that would not be
written for it.

The rules follow the structure of a reader. The relation of a composite reader is that of the bytes
that its parts have taken, one behind the other.

`Reader.Exact r R` joins both directions: the reader takes just the bytes that stand in the relation
`R` to what it gives, so the relation says which byte strings it accepts.
-/

namespace ClassPatch

/-- Nothing is left where no byte is ahead. -/
theorem Cursor.rest_of_hasMore {c : Cursor} (h : c.hasMore = false) : c.rest = [] := by
  have hle : c.data.size ≤ c.pos := by simpa [Cursor.hasMore] using h
  exact List.drop_eq_nil_of_le (by simpa using hle)

namespace Reader

open Cursor

variable {α β : Type}

/-- Whatever the reader gives belongs to the bytes that it has taken. -/
def Takes (r : Reader α) (R : α → Bytes → Prop) : Prop :=
  ∀ c x c', r c = .ok x c' → ∃ taken, c.rest = taken ++ c'.rest ∧ R x taken

namespace Takes

variable {r s : Reader α} {f : α → Reader β} {R R' : α → Bytes → Prop} {S : β → Bytes → Prop}

theorem mono (h : Takes r R) (himp : ∀ x taken, R x taken → R' x taken) : Takes r R' := by
  intro c x c' hr
  obtain ⟨taken, hrest, hx⟩ := h c x c' hr
  exact ⟨taken, hrest, himp x taken hx⟩

theorem pure {x : α} (h : R x []) : Takes (Pure.pure x) R := by
  intro c y c' hr
  obtain ⟨rfl, rfl⟩ := EStateM.pure_eq_ok.mp hr
  exact ⟨[], rfl, h⟩

theorem throw (e : Error) : Takes (MonadExcept.throw e : Reader α) R :=
  fun _ _ _ hr => absurd hr EStateM.throw_ne_ok

theorem fault (f : Fault) : Takes (Reader.fault f : Reader α) R := throw _

/-- Nothing goes on behind a failure. -/
theorem fault_bind (e : Fault) : Takes (Reader.fault e >>= f) S :=
  fun _ _ _ h => absurd h fault_bind_ne_ok

theorem bind (hr : Takes r R)
    (hf : ∀ x taken, R x taken → Takes (f x) fun y taken' => S y (taken ++ taken')) :
    Takes (r >>= f) S := by
  intro c y c' h
  obtain ⟨x, c₁, hx, hy⟩ := EStateM.bind_eq_ok.mp h
  obtain ⟨taken, hrest, hR⟩ := hr c x c₁ hx
  obtain ⟨taken', hrest', hS⟩ := hf x taken hR c₁ y c' hy
  exact ⟨taken ++ taken', by rw [hrest, hrest', List.append_assoc], hS⟩

/-- A reader that takes nothing, in front of another one. -/
theorem bind_nil (hr : Takes r fun _ taken => taken = []) (hf : ∀ x, Takes (f x) S) :
    Takes (r >>= f) S :=
  hr.bind fun x _ hnil => hnil ▸ hf x

theorem map {f : α → β} (hr : Takes r fun x taken => S (f x) taken) : Takes (f <$> r) S := by
  intro c y c' h
  obtain ⟨x, hx, rfl⟩ := EStateM.map_eq_ok.mp h
  exact hr c x c' hx

/-- A function that is read in front of its argument. -/
theorem seq {f : Reader (α → β)} {F : (α → β) → Bytes → Prop} (hf : Takes f F) (hr : Takes r R)
    (happly : ∀ g taken x taken', F g taken → R x taken' → S (g x) (taken ++ taken')) :
    Takes (f <*> r) S :=
  hf.bind fun g taken hg => .map (hr.mono fun x taken' hx => happly g taken x taken' hg hx)

theorem ite {p : Prop} [Decidable p] (hr : Takes r R) (hs : Takes s R) :
    Takes (if p then r else s) R := by
  split
  · exact hr
  · exact hs

end Takes

/-! ### Primitive readers -/

theorem takes_position : Takes position fun _ taken => taken = [] := by
  intro c x c' h
  obtain ⟨-, rfl⟩ := EStateM.Result.ok.inj h
  exact ⟨[], rfl, rfl⟩

theorem takes_remaining : Takes remaining fun _ taken => taken = [] := by
  intro c x c' h
  obtain ⟨-, rfl⟩ := EStateM.Result.ok.inj h
  exact ⟨[], rfl, rfl⟩

theorem takes_hasMore : Takes hasMore fun _ taken => taken = [] := by
  intro c x c' h
  obtain ⟨-, rfl⟩ := EStateM.Result.ok.inj h
  exact ⟨[], rfl, rfl⟩

theorem takes_ofExcept {x : Except Error α} :
    Takes (ofExcept x) fun y taken => x = .ok y ∧ taken = [] := by
  cases x with
  | error e => exact .throw e
  | ok y => exact .pure ⟨rfl, rfl⟩

theorem takes_ensure (count : Nat) : Takes (ensure count) fun _ taken => taken = [] :=
  takes_remaining.bind_nil fun _ => .ite (.throw _) (.pure rfl)

theorem takes_take (count : Nat) :
    Takes (take count) fun bytes taken => bytes = taken ∧ taken.length = count := by
  intro c bytes c' h
  unfold take at h
  split at h
  · rename_i hroom
    obtain ⟨rfl, rfl⟩ := EStateM.Result.ok.inj h
    have hbytes : (c.data.extract c.pos (c.pos + count)).toList = c.rest.take count := by
      simp [Cursor.rest, List.take_drop]
    refine ⟨_, ?_, rfl, ?_⟩
    · rw [hbytes]
      simp only [Cursor.rest]
      rw [← List.drop_drop, List.take_append_drop]
    · simp
      omega
  · cases h

theorem takes_word (α : Type) [Word α] : Takes (word α) fun x taken => taken = Word.encode x := by
  refine (takes_take _).bind fun bytes taken h => .pure ?_
  obtain ⟨rfl, hlength⟩ := h
  rw [List.append_nil, Word.encode_decode hlength]

theorem takes_u16 : Takes u16 fun x taken => taken = Word.encode x := takes_word UInt16

theorem takes_u32 : Takes u32 fun x taken => taken = Word.encode x := takes_word UInt32

theorem takes_u8 : Takes u8 fun b taken => taken = [b] := by
  refine (takes_word UInt8).mono fun b taken h => ?_
  simpa [Word.encode, Bytes.ofNat, Bytes.bound, Word.width, Word.toNat] using h

theorem takes_sized16 : Takes sized16 fun bytes taken =>
    taken = Word.encode (UInt16.ofNat bytes.length) ++ bytes ∧ bytes.length ≤ 65535 := by
  refine takes_u16.bind fun length taken hlength => ?_
  refine (takes_take _).mono fun bytes taken' h => ?_
  obtain ⟨rfl, hbytes⟩ := h
  rw [hbytes, UInt16.ofNat_toNat]
  exact ⟨congrArg (· ++ bytes) hlength, Nat.le_of_lt_succ length.toNat_lt⟩

theorem takes_sized32 : Takes sized32 fun bytes taken =>
    taken = Word.encode (UInt32.ofNat bytes.length) ++ bytes ∧ bytes.length < UInt32.size := by
  refine takes_u32.bind fun length taken hlength => ?_
  refine (takes_take _).mono fun bytes taken' h => ?_
  obtain ⟨rfl, hbytes⟩ := h
  rw [hbytes, UInt32.ofNat_toNat]
  exact ⟨congrArg (· ++ bytes) hlength, length.toNat_lt⟩

/-! ### Repetition -/

/-- Values of one kind in a row have taken their bytes one behind the other. -/
theorem takes_times {r : Reader α} {R : α → Bytes → Prop} (hr : Takes r R) (count : Nat) :
    Takes (times count r) fun xs taken =>
      xs.length = count ∧ ∃ rows, List.Forall₂ R xs rows ∧ taken = rows.flatten := by
  induction count with
  | zero => exact .pure ⟨rfl, [], .nil, rfl⟩
  | succ count ih =>
    simp only [times, List.replicate_succ, List.mapM_cons] at ih ⊢
    refine hr.bind fun x taken hx => ih.bind fun xs taken' h => .pure ?_
    obtain ⟨hlength, rows, hrows, rfl⟩ := h
    exact ⟨congrArg Nat.succ hlength, taken :: rows, .cons hx hrows, by simp⟩

/-! ### Readers that leave nothing -/

/-- Whatever the reader gives, no byte is left behind it. -/
def Exhausts (r : Reader α) : Prop := ∀ c x c', r c = .ok x c' → c'.rest = []

namespace Exhausts

theorem fault_bind {f : α → Reader β} (e : Fault) : Exhausts (Reader.fault e >>= f) :=
  fun _ _ _ h => absurd h fault_bind_ne_ok

/-- It is the last part of a reader that matters. -/
theorem bind {r : Reader α} {f : α → Reader β} (hf : ∀ x, Exhausts (f x)) :
    Exhausts (r >>= f) := by
  intro c y c' h
  obtain ⟨x, c₁, -, hy⟩ := EStateM.bind_eq_ok.mp h
  exact hf x c₁ y c' hy

/-- A reader that gives its result only where no byte is ahead. -/
theorem hasMore {r : Reader α} {x : α} (hr : Exhausts r) :
    Exhausts (Reader.hasMore >>= fun more => if more then r else pure x) := by
  intro c y c' h
  obtain ⟨more, c₁, hmore, h⟩ := EStateM.bind_eq_ok.mp h
  obtain ⟨rfl, rfl⟩ := EStateM.Result.ok.inj hmore
  split at h
  · exact hr c y c' h
  · rename_i hnone
    obtain ⟨-, rfl⟩ := EStateM.pure_eq_ok.mp h
    exact Cursor.rest_of_hasMore (Bool.eq_false_iff.mpr hnone)

end Exhausts

/-- A byte string that is read to its end is all that has been taken. -/
theorem Takes.of_parse {r : Reader α} {R : α → Bytes → Prop} {bytes : Bytes} {x : α}
    (hr : Takes r R) (hend : Exhausts r) (h : r.parse bytes = .ok x) : R x bytes := by
  obtain ⟨c, h⟩ := exists_of_parse h
  obtain ⟨taken, hrest, hR⟩ := hr _ _ _ h
  rw [hend _ _ _ h, List.append_nil, Cursor.rest_ofBytes] at hrest
  exact hrest ▸ hR

/-! ### Stored forms -/

/-- The reader takes the bytes that stand in a relation to what it gives, and takes these wherever
they are. -/
structure Exact (r : Reader α) (R : α → Bytes → Prop) : Prop where
  takes : Takes r R
  reads : ∀ x bytes, R x bytes → ∀ pos back, Reads r pos bytes back x

/-- The bytes hold rows behind their count. -/
def StoredRows (R : α → Bytes → Prop) (rows : List α) (bytes : Bytes) : Prop :=
  rows.length ≤ 65535 ∧ ∃ stored, List.Forall₂ R rows stored ∧
    bytes = Word.encode (UInt16.ofNat rows.length) ++ stored.flatten

/-- Rows of one width leave no choice for the length of their table. -/
theorem StoredRows.length_eq {R : α → Bytes → Prop} {rows : List α} {bytes : Bytes} {width : Nat}
    (h : StoredRows R rows bytes) (hwidth : ∀ row stored, R row stored → stored.length = width) :
    bytes.length = 2 + width * rows.length := by
  obtain ⟨-, stored, hstored, rfl⟩ := h
  have hrows : stored.flatten.length = width * rows.length := by
    induction hstored with
    | nil => rfl
    | cons hrow _ ih =>
      rw [List.flatten_cons, List.length_append, hwidth _ _ hrow, ih, List.length_cons,
        Nat.mul_succ, Nat.add_comm]
  rw [List.length_append, Word.length_encode, hrows]
  rfl

namespace Exact

variable {r : Reader α} {R : α → Bytes → Prop} {bytes : Bytes} {x : α}

/-- A byte string is accepted if it begins with what is taken; what is behind that does not
matter. -/
theorem parse_eq_ok (h : Exact r R) : r.parse bytes = .ok x ↔
    ∃ stored surplus, bytes = stored ++ surplus ∧ R x stored := by
  constructor
  · intro hparse
    obtain ⟨c, hread⟩ := exists_of_parse hparse
    obtain ⟨stored, hrest, hstored⟩ := h.takes _ _ _ hread
    rw [Cursor.rest_ofBytes] at hrest
    exact ⟨stored, c.rest, hrest, hstored⟩
  · rintro ⟨stored, surplus, rfl, hstored⟩
    have hread := h.reads x stored hstored 0 surplus [] rfl
    rw [List.nil_append, Cursor.between_nil] at hread
    simp only [Reader.parse, EStateM.run, hread]

theorem readRows (h : Exact r R) : Exact (readRows r) (StoredRows R) where
  takes := by
    refine takes_u16.bind fun count taken hcount =>
      (takes_times h.takes _).mono fun rows taken' hrows => ?_
    obtain ⟨hlength, stored, hstored, rfl⟩ := hrows
    have hbound := count.toNat_lt
    refine ⟨by omega, stored, hstored, ?_⟩
    rw [hlength, UInt16.ofNat_toNat, hcount]
  reads rows bytes hrows pos back := by
    obtain ⟨hcount, stored, hstored, rfl⟩ := hrows
    refine reads_readRows (Nat.lt_succ_of_le hcount) (hstored.flip.imp fun row x hrow => ?_)
    exact h.reads x row hrow

end Exact

end Reader

end ClassPatch
