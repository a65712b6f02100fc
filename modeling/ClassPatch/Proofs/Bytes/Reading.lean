import ClassPatch.Code.Disassembly
import ClassPatch.Code.Tables
import ClassPatch.Proofs.Outcome

/-!
# Reading what was written

`Reader.Reads r pos bytes back x` says that the reader `r`, standing at `pos` in front of `bytes`,
takes exactly these bytes and gives `x`, whatever is in front of them and with `back` behind them.
Most readers do not look at what is behind; those that do, because they count the bytes ahead or
want to be at the end, say so through `back`.

The rules follow the structure of a reader, so that a proof about a composite reader splits the
bytes as the reader does.

`Reader.Gives r P` says less: every result of the reader satisfies `P`, wherever it stands.
-/

namespace ClassPatch

namespace Cursor

/-- The position between two byte strings. -/
def between (front back : Bytes) : Cursor := ⟨(front ++ back).toArray, front.length⟩

@[simp] theorem between_nil (back : Bytes) : between [] back = ofBytes back := rfl

@[simp] theorem pos_between (front back : Bytes) : (between front back).pos = front.length := rfl

@[simp] theorem remaining_between (front back : Bytes) :
    (between front back).remaining = back.length := by
  simp [between, remaining]

@[simp] theorem rest_between (front back : Bytes) : (between front back).rest = back := by
  simp [between, rest]

theorem hasMore_between (front back : Bytes) :
    (between front back).hasMore = !back.isEmpty := by
  cases back <;> simp [between, hasMore]

/-- Moving over some bytes. -/
theorem between_move (front bytes back : Bytes) :
    { between front (bytes ++ back) with pos := front.length + bytes.length } =
      between (front ++ bytes) back := by
  simp [between]

end Cursor

namespace Reader

open Cursor

variable {α β σ : Type}

/-- The reader takes `bytes` at `pos`, in front of `back`, and gives `x`. -/
def Reads (r : Reader α) (pos : Nat) (bytes back : Bytes) (x : α) : Prop :=
  ∀ front, front.length = pos →
    r (between front (bytes ++ back)) = .ok x (between (front ++ bytes) back)

namespace Reads

variable {r : Reader α} {f : α → Reader β} {pos : Nat} {bytes bytes' back : Bytes} {x : α} {y : β}

theorem pure (x : α) (pos : Nat) (back : Bytes) : Reads (pure x) pos [] back x := by
  intro front _
  simp [Pure.pure, EStateM.pure]

theorem bind (hr : Reads r pos bytes (bytes' ++ back) x)
    (hf : Reads (f x) (pos + bytes.length) bytes' back y) :
    Reads (r >>= f) pos (bytes ++ bytes') back y := by
  intro front hfront
  have hx := hr front hfront
  have hy := hf (front ++ bytes) (by simp [hfront])
  simp only [Bind.bind, EStateM.bind, List.append_assoc] at hx hy ⊢
  rw [hx]
  simpa only [List.append_assoc] using hy

/-- A reader that takes nothing and goes on with what it found out. -/
theorem bind_nil (hr : Reads r pos [] (bytes ++ back) x) (hf : Reads (f x) pos bytes back y) :
    Reads (r >>= f) pos bytes back y := by
  simpa using bind hr (by simpa using hf)

/-- A reader whose result is used without reading on. -/
theorem bind_last (hr : Reads r pos bytes back x)
    (hf : Reads (f x) (pos + bytes.length) [] back y) : Reads (r >>= f) pos bytes back y := by
  simpa using bind (by simpa using hr) (show Reads (f x) _ [] back y from hf)

/-- A reader whose result is passed on by a function. -/
theorem bind_pure {f : α → β} (hr : Reads r pos bytes back x) :
    Reads (r >>= fun x => Pure.pure (f x)) pos bytes back (f x) :=
  hr.bind_last (pure (f x) _ back)

theorem map {f : α → β} (hr : Reads r pos bytes back x) :
    Reads (f <$> r) pos bytes back (f x) := by
  intro front hfront
  simp only [Functor.map, EStateM.map, hr front hfront]

/-- A function that is read in front of its argument. -/
theorem seq {f : Reader (α → β)} {g : α → β} (hf : Reads f pos bytes (bytes' ++ back) g)
    (hr : Reads r (pos + bytes.length) bytes' back x) :
    Reads (f <*> r) pos (bytes ++ bytes') back (g x) :=
  hf.bind hr.map

theorem ite_pos {p : Prop} [Decidable p] {s : Reader α} (hp : p) (hr : Reads r pos bytes back x) :
    Reads (if p then r else s) pos bytes back x := by
  rwa [if_pos hp]

theorem ite_neg {p : Prop} [Decidable p] {s : Reader α} (hp : ¬p)
    (hr : Reads r pos bytes back x) : Reads (if p then s else r) pos bytes back x := by
  rwa [if_neg hp]

/-- A reader at the start of its own byte string. -/
theorem parse (hr : Reads r 0 bytes [] x) : r.parse bytes = .ok x := by
  have h := hr [] rfl
  simp only [List.append_nil, List.nil_append, between_nil] at h
  simp only [Reader.parse, EStateM.run, h]

end Reads

theorem exists_of_parse {r : Reader α} {bytes : Bytes} {x : α} (h : r.parse bytes = .ok x) :
    ∃ c, r (Cursor.ofBytes bytes) = .ok x c := by
  rw [Reader.parse, EStateM.run] at h
  split at h
  · rename_i c hr
    exact ⟨c, hr.trans (congrArg (EStateM.Result.ok · c) (Except.ok.inj h))⟩
  · cases h

/-! ### Primitive readers -/

theorem reads_position (pos : Nat) (back : Bytes) : Reads position pos [] back pos := by
  intro front hfront
  simp [position, hfront]

theorem reads_remaining (pos : Nat) (back : Bytes) :
    Reads remaining pos [] back back.length := by
  intro front _
  simp [remaining]

theorem reads_hasMore (pos : Nat) (back : Bytes) :
    Reads hasMore pos [] back (!back.isEmpty) := by
  intro front _
  simp [hasMore, hasMore_between]

theorem reads_ensure {count : Nat} (pos : Nat) {back : Bytes} (h : count ≤ back.length) :
    Reads (ensure count) pos [] back () :=
  (reads_remaining pos back).bind_nil (.ite_neg (Nat.not_lt.mpr h) (.pure _ _ _))

theorem reads_take (pos : Nat) (bytes back : Bytes) :
    Reads (take bytes.length) pos bytes back bytes := by
  intro front _
  rw [take, if_pos (by simp [between])]
  simp [between]

theorem reads_word {α : Type} [Word α] (x : α) (pos : Nat) (back : Bytes) :
    Reads (word α) pos (Word.encode x) back x := by
  have h := reads_take pos (Word.encode x) back
  rw [Word.length_encode] at h
  simpa [word] using Reads.bind_pure (f := Word.decode α) h

theorem reads_u8 (b : UInt8) (pos : Nat) (back : Bytes) : Reads u8 pos [b] back b := by
  have h := reads_word b pos back
  have hb : Word.encode b = [b] := by simp [Word.encode, Bytes.ofNat, Bytes.bound, Word.width,
    Word.toNat]
  rwa [hb] at h

/-- A single byte in front of what the rest of the reader takes. -/
theorem Reads.u8_bind {f : UInt8 → Reader β} {b : UInt8} {pos : Nat} {bytes back : Bytes} {y : β}
    (hf : Reads (f b) (pos + 1) bytes back y) : Reads (u8 >>= f) pos (b :: bytes) back y :=
  Reads.bind (reads_u8 b pos (bytes ++ back)) hf

theorem reads_ofExcept {x : α} (pos : Nat) (back : Bytes) :
    Reads (ofExcept (.ok x)) pos [] back x :=
  Reads.pure x pos back

theorem reads_seek {count : Nat} (pos : Nat) {bytes back : Bytes} (h : bytes.length = count) :
    Reads (seek (pos + count)) pos bytes back () := by
  rintro front rfl
  rw [seek, if_pos (by simp [between, h]), ← between_move, h]

theorem reads_endOf {count : Nat} (pos : Nat) {back : Bytes} (h : count ≤ back.length) :
    Reads (endOf count) pos [] back (pos + count) := by
  rintro front rfl
  rw [endOf, if_pos (by simpa [between] using h)]
  simp

theorem reads_skip (pos : Nat) (bytes back : Bytes) :
    Reads (skip bytes.length) pos bytes back () :=
  (reads_endOf pos (by simp)).bind_nil (reads_seek pos rfl)

/-- The bytes up to the next multiple of four, counted from the start of the data. -/
theorem reads_align (pos : Nat) {bytes back : Bytes} (h : bytes.length = (4 - pos % 4) % 4) :
    Reads (align 0 4) pos bytes back () := by
  refine (reads_position pos _).bind_nil (.ite_pos (Nat.zero_le _) ?_)
  have hskip := reads_skip pos bytes back
  rwa [h] at hskip

/-! ### Repetition -/

theorem reads_times_zero (r : Reader α) (pos : Nat) (back : Bytes) :
    Reads (times 0 r) pos [] back [] :=
  Reads.pure [] pos back

/-- Values of one kind in a row, each read from its own bytes. -/
theorem reads_times {r : Reader α} {rows : List Bytes} {xs : List α} {pos : Nat} {back : Bytes}
    (h : List.Forall₂ (fun row x => ∀ pos back, Reads r pos row back x) rows xs) :
    Reads (times xs.length r) pos rows.flatten back xs := by
  induction h generalizing pos with
  | nil => exact reads_times_zero r pos back
  | cons hrow _ ih =>
    simp only [times, List.length_cons, List.replicate_succ, List.mapM_cons,
      List.flatten_cons] at ih ⊢
    exact (hrow pos _).bind (Reads.bind_pure ih)

theorem reads_sized16 {bytes : Bytes} (pos : Nat) (back : Bytes) (h : bytes.length < 65536) :
    Reads sized16 pos (Word.encode (UInt16.ofNat bytes.length) ++ bytes) back bytes := by
  refine (reads_word _ pos _).bind ?_
  have htake := reads_take (pos + (Word.encode (UInt16.ofNat bytes.length)).length) bytes back
  rwa [← UInt16.toNat_ofNat_of_lt' h] at htake

theorem reads_sized32 {bytes : Bytes} (pos : Nat) (back : Bytes) (h : bytes.length < UInt32.size) :
    Reads sized32 pos (Word.encode (UInt32.ofNat bytes.length) ++ bytes) back bytes := by
  refine (reads_word _ pos _).bind ?_
  have htake := reads_take (pos + (Word.encode (UInt32.ofNat bytes.length)).length) bytes back
  rwa [← UInt32.toNat_ofNat_of_lt' h] at htake

/-- Rows behind their count. -/
theorem reads_readRows {r : Reader α} {rows : List Bytes} {xs : List α} {pos : Nat} {back : Bytes}
    (hcount : xs.length < 65536)
    (h : List.Forall₂ (fun row x => ∀ pos back, Reads r pos row back x) rows xs) :
    Reads (readRows r) pos (Word.encode (UInt16.ofNat xs.length) ++ rows.flatten) back xs := by
  refine (reads_word _ pos _).bind ?_
  rw [UInt16.toNat_ofNat_of_lt' hcount]
  exact reads_times h

/-! ### What readers give -/

theorem fault_bind_ne_ok {f : α → Reader β} {e : Fault} {c c' : Cursor} {y : β} :
    (fault e >>= f) c ≠ .ok y c' := by
  intro h
  obtain ⟨_, _, hfault, -⟩ := EStateM.bind_eq_ok.mp h
  exact EStateM.throw_ne_ok hfault

/-- Every result of the reader satisfies `P`. -/
def Gives (r : Reader α) (P : α → Prop) : Prop :=
  ∀ (c : Cursor) (x : α) (c' : Cursor), r c = .ok x c' → P x

namespace Gives

variable {r s : Reader α} {f : α → Reader β} {P Q : α → Prop} {R : β → Prop}

theorem any (r : Reader α) : Gives r fun _ => True := fun _ _ _ _ => trivial

theorem pure {x : α} (h : P x) : Gives (pure x) P := by
  intro c y c' hy
  obtain ⟨rfl, -⟩ := EStateM.pure_eq_ok.mp hy
  exact h

theorem throw (e : Error) : Gives (throw e : Reader α) P := fun _ _ _ h =>
  absurd h EStateM.throw_ne_ok

/-- Nothing goes on behind a failure. -/
theorem fault_bind (e : Fault) : Gives (Reader.fault e >>= f) R :=
  fun _ _ _ h => absurd h fault_bind_ne_ok

theorem bind (hr : Gives r P) (hf : ∀ x, P x → Gives (f x) R) : Gives (r >>= f) R := by
  intro c y c' hy
  obtain ⟨x, c₁, hx, hy⟩ := EStateM.bind_eq_ok.mp hy
  exact hf x (hr c x c₁ hx) c₁ y c' hy

/-- The result of the first reader does not matter. -/
theorem andThen (hf : ∀ x, Gives (f x) R) : Gives (r >>= f) R := (any r).bind fun x _ => hf x

theorem ite {c : Prop} [Decidable c] (hr : c → Gives r P) (hs : ¬c → Gives s P) :
    Gives (if c then r else s) P := by
  split
  · exact hr ‹_›
  · exact hs ‹_›

theorem ofExcept {x : Except Error α} : Gives (ofExcept x) fun y => x = .ok y := by
  cases x with
  | error e => exact throw e
  | ok x => exact pure rfl

theorem times (count : Nat) (r : Reader α) : Gives (times count r) fun xs => xs.length = count := by
  induction count with
  | zero => exact pure rfl
  | succ count ih =>
    rw [Reader.times, List.replicate_succ, List.mapM_cons]
    exact andThen fun x => ih.bind fun xs hxs => pure (congrArg Nat.succ hxs)

theorem iterate {step : α → Reader α} (h : ∀ x, P x → Gives (step x) P) (count : Nat) {x : α}
    (hx : P x) : Gives (iterate step count x) P := by
  induction count generalizing x with
  | zero => exact pure hx
  | succ count ih => exact (h x hx).bind fun _ => ih

end Gives
end Reader
end ClassPatch
