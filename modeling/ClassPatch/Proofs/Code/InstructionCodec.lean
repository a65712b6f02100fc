import ClassPatch.Proofs.Bytes.Reading
import ClassPatch.Proofs.Code.Writing

/-!
# Instructions are read back

The bytes of an instruction are read as the same instruction, over the pool that the writer leaves
and over every larger one. There is one lemma for each way of writing, and `reads_bytes` puts them
together.
-/

namespace ClassPatch

open Reader PoolM

variable {p p' q : ConstantPool}

/-! ### Distances -/

theorem reads_i32_farDisplacement {distance : Int} {b : Bytes}
    (h : farDisplacement distance p = .ok b p') (pos : Nat) (back : Bytes) :
    ∃ d : Int32, Reads Reader.i32 pos b back d ∧ d.toInt = distance := by
  unfold farDisplacement at h
  split at h
  · rename_i hrange
    obtain ⟨rfl, -⟩ := EStateM.pure_eq_ok.mp h
    refine ⟨_, reads_word _ pos back, ?_⟩
    simp only [Bool.and_eq_true, decide_eq_true_eq] at hrange
    exact Int32.toInt_ofInt_of_le (by simpa using hrange.1) (by omega)
  · exact absurd h EStateM.throw_ne_ok

theorem reads_nearDisplacement {distance : Int} {b : Bytes}
    (h : nearDisplacement distance p = .ok b p') (pos : Nat) (back : Bytes) :
    ∃ d : Int16, Reads (Reader.word Int16) pos b back d ∧ d.toInt = distance := by
  unfold nearDisplacement at h
  split at h
  · rename_i hrange
    obtain ⟨rfl, -⟩ := EStateM.pure_eq_ok.mp h
    refine ⟨_, reads_word _ pos back, ?_⟩
    simp only [isNear, Bool.and_eq_true, decide_eq_true_eq] at hrange
    exact Int16.toInt_ofInt_of_le (by simpa using hrange.1) (by omega)
  · exact absurd h EStateM.throw_ne_ok

namespace Instruction

theorem reads_target (offset place pos : Nat) (back : Bytes) :
    Reads (target offset (place - offset)) pos [] back place := by
  have hplace : (offset : Int) + (place - offset) = place := by omega
  unfold target
  simp only [hplace]
  exact .ite_neg (by omega) (.pure _ _ _)

theorem reads_farTarget {offset place : Nat} {b : Bytes}
    (h : farDisplacement (place - offset) p = .ok b p') (pos : Nat) (back : Bytes) :
    Reads (farTarget offset) pos b back place := by
  obtain ⟨d, hd, hdistance⟩ := reads_i32_farDisplacement h pos ([] ++ back)
  have := hd.bind (f := fun d => target offset d.toInt)
    (hdistance ▸ reads_target offset place _ back)
  simpa [farTarget] using this


/-! ### Opcodes and what follows them -/

theorem reads_behind {op : UInt8} {offset : Nat} {bytes back : Bytes} {i : Instruction Nat}
    (h : Reads (readBehind q offset op) (offset + 1) bytes back i) :
    Reads (read q) offset (op :: bytes) back i :=
  (reads_position offset _).bind_nil h.u8_bind

/-- An instruction of a single byte. -/
theorem reads_ofByte {op : UInt8} {i : Instruction Nat} (h : ofByte? op = some i) (offset : Nat)
    (back : Bytes) : Reads (read q) offset [op] back i := by
  refine reads_behind ?_
  unfold readBehind
  rw [h]
  exact .pure _ _ _

/-- An opcode with operands. -/
theorem reads_operands {op : UInt8} {offset : Nat} {bytes back : Bytes} {i : Instruction Nat}
    (hop : (ofByte? op : Option (Instruction Nat)) = none)
    (h : Reads (readOperands q offset op) (offset + 1) bytes back i) :
    Reads (read q) offset (op :: bytes) back i := by
  refine reads_behind ?_
  unfold readBehind
  rwa [hop]

/-- A small index is stored in one byte. -/
theorem toUInt16_toUInt8 {n : UInt16} (h : n ≤ 255) : n.toUInt8.toUInt16 = n := by
  rw [UInt16.toUInt16_toUInt8]
  apply UInt16.toNat_inj.mp
  have h' : n.toNat ≤ 255 := UInt16.le_iff_toNat_le.mp h
  rw [UInt16.toNat_mod, show (256 : UInt16).toNat = 256 from rfl, Nat.mod_eq_of_lt (by omega)]

theorem reads_load {index : UInt16} {wide : Bool} {v : Value} (h : loadable q index wide = .ok v)
    (pos : Nat) (back : Bytes) : Reads (readLoad q index wide) pos [] back (push v) := by
  unfold readLoad
  rw [h]
  exact (reads_ofExcept pos _).bind_nil (.pure _ _ _)

theorem reads_ofIndex {index : UInt16} {v : Value} (h : loadable q index false = .ok v)
    (offset : Nat) (back : Bytes) :
    Reads (read q) offset (ConstantForm.ofIndex index).bytes back (push v) := by
  unfold ConstantForm.ofIndex
  split
  · rename_i hindex
    refine reads_operands (by decide) (Reads.u8_bind ?_)
    rw [toUInt16_toUInt8 hindex]
    exact reads_load h _ _
  · refine reads_operands (by decide) ?_
    exact (reads_word index _ _).bind_last (reads_load h _ _)

theorem reads_double {index : UInt16} {v : Value} (h : loadable q index true = .ok v)
    (offset : Nat) (back : Bytes) :
    Reads (read q) offset (ConstantForm.double index).bytes back (push v) := by
  refine reads_operands (by decide) ?_
  exact (reads_word index _ _).bind_last (reads_load h _ _)

theorem loadable_eq_ok {index : UInt16} {wide : Bool} {c : Constant} {v : Value}
    (hget : q.get? index = some c) (hpushed : pushed q index c = .ok v)
    (hwords : (v.words == 2) = wide) : loadable q index wide = .ok v := by
  unfold loadable
  rw [ConstantPool.get_eq_ok.mpr hget]
  simp [bind, Except.bind, hpushed, hwords, pure, Except.pure]

/-! ### Constants -/

theorem toInt32_toInt8 {value : Int32} (h : -128 ≤ value ∧ value ≤ 127) :
    value.toInt8.toInt32 = value := by
  have h₁ : -128 ≤ value.toInt := by simpa [Int32.le_iff_toInt_le] using h.1
  have h₂ : value.toInt ≤ 127 := by simpa [Int32.le_iff_toInt_le] using h.2
  apply Int32.toInt_inj.mp
  rw [Int8.toInt_toInt32, Int32.toInt_toInt8]
  exact Int.bmod_eq_of_le (by omega) (by omega)

theorem toInt32_toInt16 {value : Int32} (h : -32768 ≤ value ∧ value ≤ 32767) :
    value.toInt16.toInt32 = value := by
  have h₁ : -32768 ≤ value.toInt := by simpa [Int32.le_iff_toInt_le] using h.1
  have h₂ : value.toInt ≤ 32767 := by simpa [Int32.le_iff_toInt_le] using h.2
  apply Int32.toInt_inj.mp
  rw [Int16.toInt_toInt32, Int32.toInt_toInt16]
  exact Int.bmod_eq_of_le (by omega) (by omega)

theorem toInt16_toInt8 {delta : Int16} (h : -128 ≤ delta ∧ delta ≤ 127) :
    delta.toInt8.toInt16 = delta := by
  have h₁ : -128 ≤ delta.toInt := by simpa [Int16.le_iff_toInt_le] using h.1
  have h₂ : delta.toInt ≤ 127 := by simpa [Int16.le_iff_toInt_le] using h.2
  apply Int16.toInt_inj.mp
  rw [Int8.toInt_toInt16, Int16.toInt_toInt8]
  exact Int.bmod_eq_of_le (by omega) (by omega)

/-- The numbers from -1 to 5 have opcodes of their own. -/
theorem ofByte?_iconst {value : Int32} (h : -1 ≤ value ∧ value ≤ 5) :
    (ofByte? (Opcode.iconst0 + value.toUInt32.toUInt8) : Option (Instruction Nat)) =
      some (push (.int value)) := by
  have h₁ : -1 ≤ value.toInt := by simpa [Int32.le_iff_toInt_le] using h.1
  have h₂ : value.toInt ≤ 5 := by simpa [Int32.le_iff_toInt_le] using h.2
  have hvalue : value = -1 ∨ value = 0 ∨ value = 1 ∨ value = 2 ∨ value = 3 ∨ value = 4 ∨
      value = 5 := by
    simp only [← Int32.toInt_inj]
    simp
    omega
  rcases hvalue with rfl | rfl | rfl | rfl | rfl | rfl | rfl <;> decide

theorem reads_intForm {value : Int32} {form : ConstantForm} (hp : p.WellFormed)
    (h : Value.intForm value p = .ok form p') (hq : p' ≤ q) (offset : Nat) (back : Bytes) :
    Reads (read q) offset form.bytes back (push (.int value)) := by
  unfold Value.intForm at h
  split at h
  · rename_i hrange
    obtain ⟨rfl, -⟩ := EStateM.pure_eq_ok.mp h
    exact reads_ofByte (ofByte?_iconst (by simpa using hrange)) _ _
  · split at h
    · rename_i hrange
      obtain ⟨rfl, -⟩ := EStateM.pure_eq_ok.mp h
      refine reads_operands (by decide) ?_
      refine (reads_word value.toInt8 _ _).bind_last ?_
      rw [toInt32_toInt8 (by simpa using hrange)]
      exact .pure _ _ _
    · split at h
      · rename_i hrange
        obtain ⟨rfl, -⟩ := EStateM.pure_eq_ok.mp h
        refine reads_operands (by decide) ?_
        refine (reads_word value.toInt16 _ _).bind_last ?_
        rw [toInt32_toInt16 (by simpa using hrange)]
        exact .pure _ _ _
      · obtain ⟨index, p₁, hindex, h⟩ := EStateM.bind_eq_ok.mp h
        obtain ⟨rfl, rfl⟩ := EStateM.pure_eq_ok.mp h
        exact reads_ofIndex (loadable_eq_ok (get?_of_intern hp hindex hq) rfl rfl) _ _

theorem reads_longForm {value : Int64} {form : ConstantForm} (hp : p.WellFormed)
    (h : Value.longForm value p = .ok form p') (hq : p' ≤ q) (offset : Nat) (back : Bytes) :
    Reads (read q) offset form.bytes back (push (.long value)) := by
  unfold Value.longForm at h
  split at h
  · obtain ⟨rfl, -⟩ := EStateM.pure_eq_ok.mp h
    subst value
    exact reads_ofByte rfl _ _
  · split at h
    · obtain ⟨rfl, -⟩ := EStateM.pure_eq_ok.mp h
      subst value
      exact reads_ofByte rfl _ _
    · obtain ⟨index, p₁, hindex, h⟩ := EStateM.bind_eq_ok.mp h
      obtain ⟨rfl, rfl⟩ := EStateM.pure_eq_ok.mp h
      exact reads_double (loadable_eq_ok (get?_of_intern hp hindex hq) rfl rfl) _ _

theorem reads_floatForm {bits : UInt32} {form : ConstantForm} (hp : p.WellFormed)
    (h : Value.floatForm bits p = .ok form p') (hq : p' ≤ q) (offset : Nat) (back : Bytes) :
    Reads (read q) offset form.bytes back (push (.float bits)) := by
  unfold Value.floatForm at h
  split at h
  · obtain ⟨rfl, -⟩ := EStateM.pure_eq_ok.mp h
    subst bits
    exact reads_ofByte rfl _ _
  · split at h
    · obtain ⟨rfl, -⟩ := EStateM.pure_eq_ok.mp h
      subst bits
      exact reads_ofByte rfl _ _
    · split at h
      · obtain ⟨rfl, -⟩ := EStateM.pure_eq_ok.mp h
        subst bits
        exact reads_ofByte rfl _ _
      · obtain ⟨index, p₁, hindex, h⟩ := EStateM.bind_eq_ok.mp h
        obtain ⟨rfl, rfl⟩ := EStateM.pure_eq_ok.mp h
        exact reads_ofIndex (loadable_eq_ok (get?_of_intern hp hindex hq) rfl rfl) _ _

theorem reads_doubleForm {bits : UInt64} {form : ConstantForm} (hp : p.WellFormed)
    (h : Value.doubleForm bits p = .ok form p') (hq : p' ≤ q) (offset : Nat) (back : Bytes) :
    Reads (read q) offset form.bytes back (push (.double bits)) := by
  unfold Value.doubleForm at h
  split at h
  · obtain ⟨rfl, -⟩ := EStateM.pure_eq_ok.mp h
    subst bits
    exact reads_ofByte rfl _ _
  · split at h
    · obtain ⟨rfl, -⟩ := EStateM.pure_eq_ok.mp h
      subst bits
      exact reads_ofByte rfl _ _
    · obtain ⟨index, p₁, hindex, h⟩ := EStateM.bind_eq_ok.mp h
      obtain ⟨rfl, rfl⟩ := EStateM.pure_eq_ok.mp h
      exact reads_double (loadable_eq_ok (get?_of_intern hp hindex hq) rfl rfl) _ _

theorem reads_push {v : Value} {b : Bytes} (hp : p.WellFormed) (hbytes : v.bytes p = .ok b p')
    (hq : p' ≤ q) (hv : v.ProperIn q) (offset : Nat) (back : Bytes) :
    Reads (read q) offset b back (push v) := by
  obtain ⟨form, p₁, h, hbytes⟩ := EStateM.bind_eq_ok.mp hbytes
  obtain ⟨rfl, rfl⟩ := EStateM.pure_eq_ok.mp hbytes
  cases v with
  | null =>
    obtain ⟨rfl, -⟩ := EStateM.pure_eq_ok.mp h
    exact reads_ofByte rfl _ _
  | int value => exact reads_intForm hp h hq _ _
  | long value => exact reads_longForm hp h hq _ _
  | float bits => exact reads_floatForm hp h hq _ _
  | double bits => exact reads_doubleForm hp h hq _ _
  | string text =>
    obtain ⟨index, p₁, hindex, h⟩ := EStateM.bind_eq_ok.mp h
    obtain ⟨rfl, rfl⟩ := EStateM.pure_eq_ok.mp h
    obtain ⟨j, hget, htext⟩ := text_of_string hp hindex hq
    exact reads_ofIndex (loadable_eq_ok hget (by simp [pushed, htext]) rfl) _ _
  | classRef name =>
    obtain ⟨index, p₁, hindex, h⟩ := EStateM.bind_eq_ok.mp h
    obtain ⟨rfl, rfl⟩ := EStateM.pure_eq_ok.mp h
    obtain ⟨j, hget, htext⟩ := text_of_classRef hp hindex hq
    exact reads_ofIndex (loadable_eq_ok hget (by simp [pushed, htext]) rfl) _ _
  | methodType descriptor =>
    obtain ⟨index, p₁, hindex, h⟩ := EStateM.bind_eq_ok.mp h
    obtain ⟨rfl, rfl⟩ := EStateM.pure_eq_ok.mp h
    obtain ⟨j, hget, htext⟩ := text_of_methodType hp hindex hq
    exact reads_ofIndex (loadable_eq_ok hget (by simp [pushed, htext]) rfl) _ _
  | methodHandle index =>
    obtain ⟨rfl, -⟩ := EStateM.pure_eq_ok.mp h
    obtain ⟨kind, reference, hget⟩ := hv
    exact reads_ofIndex (loadable_eq_ok hget rfl rfl) _ _
  | dynamic index descriptor =>
    obtain ⟨rfl, -⟩ := EStateM.pure_eq_ok.mp h
    obtain ⟨bootstrap, signature, name, hget, hsignature⟩ := hv
    have hpushed : pushed q index (.dynamic bootstrap signature) =
        .ok (.dynamic index descriptor) := by
      simp [pushed, hsignature]
    split
    · rename_i hwords
      exact reads_double (loadable_eq_ok hget hpushed (by simp [hwords])) _ _
    · rename_i hwords
      exact reads_ofIndex (loadable_eq_ok hget hpushed (by simp [hwords])) _ _

/-! ### Locals -/

/-- A slot in one byte or, behind `wide`, in two. -/
theorem reads_slotBytes {op : UInt8} (make : UInt16 → Instruction Nat) (slot : UInt16)
    (hop : (ofByte? op : Option (Instruction Nat)) = none)
    (hnarrow : ∀ offset, readOperands q offset op = return make (← Reader.u8).toUInt16)
    (hwide : ∀ offset pos back, Reads (readWide offset) pos (op :: Word.encode slot) back
      (make slot))
    (offset : Nat) (back : Bytes) :
    Reads (read q) offset (slotBytes op slot) back (make slot) := by
  unfold slotBytes
  split
  · rename_i hslot
    refine reads_operands hop ?_
    rw [hnarrow]
    refine (reads_u8 _ _ _).bind_last ?_
    rw [toUInt16_toUInt8 hslot]
    exact .pure _ _ _
  · exact reads_operands (by decide) (hwide _ _ _)

/-- The first four slots have opcodes of their own. -/
theorem reads_localBytes {op compact : UInt8} (make : UInt16 → Instruction Nat) {slot : UInt16}
    (hcompact : ∀ n : UInt16, n = 0 ∨ n = 1 ∨ n = 2 ∨ n = 3 →
      (ofByte? (compact + n.toUInt8) : Option (Instruction Nat)) = some (make n))
    {offset : Nat} {back : Bytes}
    (h : Reads (read q) offset (slotBytes op slot) back (make slot)) :
    Reads (read q) offset (localBytes op compact slot) back (make slot) := by
  unfold localBytes
  split
  · rename_i hslot
    have hslot' : slot.toNat ≤ 3 := UInt16.le_iff_toNat_le.mp hslot
    refine reads_ofByte (hcompact slot ?_) _ _
    simp only [← UInt16.toNat_inj]
    simp
    omega
  · exact h

theorem reads_loadBytes (kind : ValueKind) (slot : UInt16) (offset : Nat) (back : Bytes) :
    Reads (read q) offset (loadBytes kind slot) back (load kind slot) := by
  refine reads_localBytes (load kind) ?_ (reads_slotBytes (load kind) slot ?_ ?_ ?_ _ _)
  · rintro n (rfl | rfl | rfl | rfl) <;> cases kind <;> rfl
  · cases kind <;> rfl
  · cases kind <;> exact fun _ => rfl
  · intro offset pos back
    cases kind <;> exact Reads.u8_bind (reads_word slot _ _).bind_pure

theorem reads_storeBytes (kind : ValueKind) (slot : UInt16) (offset : Nat) (back : Bytes) :
    Reads (read q) offset (storeBytes kind slot) back (store kind slot) := by
  refine reads_localBytes (store kind) ?_ (reads_slotBytes (store kind) slot ?_ ?_ ?_ _ _)
  · rintro n (rfl | rfl | rfl | rfl) <;> cases kind <;> rfl
  · cases kind <;> rfl
  · cases kind <;> exact fun _ => rfl
  · intro offset pos back
    cases kind <;> exact Reads.u8_bind (reads_word slot _ _).bind_pure

theorem reads_retBytes (slot : UInt16) (offset : Nat) (back : Bytes) :
    Reads (read q) offset (slotBytes Opcode.ret slot) back (ret slot) :=
  reads_slotBytes ret slot rfl (fun _ => rfl)
    (fun _ _ _ => Reads.u8_bind (b := Opcode.ret) (reads_word slot _ _).bind_pure) _ _

theorem reads_incrementBytes (slot : UInt16) (delta : Int16) (offset : Nat) (back : Bytes) :
    Reads (read q) offset (incrementBytes slot delta) back (increment slot delta) := by
  unfold incrementBytes
  split
  · rename_i h
    simp only [Bool.and_eq_true, decide_eq_true_eq] at h
    refine reads_operands rfl (Reads.u8_bind ?_)
    refine (reads_word delta.toInt8 _ _).bind_last ?_
    rw [toUInt16_toUInt8 h.1.1, toInt16_toInt8 ⟨h.1.2, h.2⟩]
    exact .pure _ _ _
  · refine reads_operands rfl (Reads.u8_bind ?_)
    exact (reads_word slot _ _).bind (reads_word delta _ _).bind_pure

/-! ### Jumps -/

theorem ofByte?_jump (kind : Jump) :
    (ofByte? kind.opcode : Option (Instruction Nat)) = none := by
  rcases kind with c | _ | _
  · cases c <;> rfl
  · rfl
  · rfl

theorem readOperands_jump (kind : Jump) (offset : Nat) :
    readOperands q offset kind.opcode = readJump offset kind.opcode kind := by
  rcases kind with c | _ | _
  · cases c <;> rfl
  · rfl
  · rfl

theorem readOperands_wideJump {kind : Jump} {op : UInt8} (hop : kind.wideOpcode? = some op) :
    (ofByte? op : Option (Instruction Nat)) = none ∧
      ∀ offset, readOperands q offset op = readJump offset op kind := by
  cases kind with
  | branch c => simp [Jump.wideOpcode?] at hop
  | goto =>
    obtain rfl := Option.some.inj hop
    exact ⟨rfl, fun _ => rfl⟩
  | jsr =>
    obtain rfl := Option.some.inj hop
    exact ⟨rfl, fun _ => rfl⟩

theorem wideOpcode?_ne (kind : Jump) : kind.wideOpcode? ≠ some kind.opcode := by
  cases kind with
  | branch c => simp [Jump.wideOpcode?]
  | goto => decide
  | jsr => decide

theorem reads_jumpBytes {offset target : Nat} {wide : Bool} {kind : Jump} {b : Bytes}
    (h : jumpBytes offset wide kind target p = .ok b p') (back : Bytes) :
    Reads (read q) offset b back (jump kind target) := by
  cases wide with
  | false =>
    obtain ⟨d, p₁, hd, h⟩ := EStateM.bind_eq_ok.mp (jumpBytes_near offset target kind ▸ h)
    obtain ⟨rfl, -⟩ := EStateM.pure_eq_ok.mp h
    refine reads_operands (ofByte?_jump kind) ?_
    rw [readOperands_jump]
    obtain ⟨d', hd', hdistance⟩ := reads_nearDisplacement hd (offset + 1) ([] ++ back)
    refine .ite_neg (wideOpcode?_ne kind) (hd'.bind_last ?_)
    rw [hdistance]
    exact (Instruction.reads_target offset target _ back).bind_pure
  | true =>
    cases hop : kind.wideOpcode? with
    | none => exact absurd (jumpBytes_not_wide hop offset target ▸ h) EStateM.throw_ne_ok
    | some op =>
      obtain ⟨d, p₁, hd, h⟩ := EStateM.bind_eq_ok.mp (jumpBytes_wide hop ▸ h)
      obtain ⟨rfl, -⟩ := EStateM.pure_eq_ok.mp h
      obtain ⟨hbyte, hoperands⟩ := readOperands_wideJump (q := q) hop
      refine reads_operands hbyte ?_
      rw [hoperands]
      exact .ite_pos hop (Instruction.reads_farTarget hd _ _).bind_pure

/-! ### Switches -/

theorem reads_padding (offset : Nat) (back : Bytes) :
    Reads (Reader.align 0 4) (offset + 1) (List.replicate (switchPadding offset) 0) back () :=
  reads_align _ (by simp [switchPadding])

theorem reads_tableSwitchBytes {offset default : Nat} {low high : Int32} {targets : List Nat}
    {b : Bytes} (hq : q.WellFormed) (hrange : low ≤ high)
    (hcount : targets.length = (high.toInt - low.toInt + 1).toNat)
    (h : Finds (tableSwitchBytes offset low high default targets) q b) (back : Bytes) :
    Reads (read q) offset b back (tableSwitch low high default targets) := by
  have hfar (place : Nat) : Steady (caseBytes offset place) := steady_farDisplacement _
  obtain ⟨d, hd, h⟩ := (finds_bind (hfar _)
    (fun _ => (Steady.mapM hfar _).bind fun _ => .pure _) hq).mp h
  obtain ⟨rows, hrows, h⟩ := (finds_bind (Steady.mapM hfar _) (fun _ => .pure _) hq).mp h
  obtain rfl := finds_pure.mp h
  have hlength := length_flatten_of_mapM 4 (fun _ _ _ _ hb => length_farDisplacement hb) hrows
  have hreads : List.Forall₂ (fun row x => ∀ pos back, Reads (farTarget offset) pos row back x)
      rows targets :=
    (List.Forall₂.imp (fun _ _ hb => Instruction.reads_farTarget hb)
      ((finds_mapM hfar hq).mp hrows)).flip
  simp only [List.cons_append, List.append_assoc]
  refine reads_operands rfl ((reads_padding offset _).bind ?_)
  refine (Instruction.reads_farTarget hd _ _).bind ((reads_word low _ _).bind ?_)
  refine (reads_word high _ _).bind (.ite_neg (by simpa using hrange) ?_)
  refine (reads_ensure _ ?_).bind_nil ?_
  · rw [← hcount, List.length_append, hlength]
    omega
  · rw [← hcount]
    exact (reads_times hreads).bind_pure

/-- The bytes of one case of a switch at `offset`. -/
def rowBytes (offset : Nat) (row : Int32 × Nat) : PoolM Bytes := do
  return Word.encode row.1 ++ (← caseBytes offset row.2)

theorem steady_rowBytes (offset : Nat) (row : Int32 × Nat) : Steady (rowBytes offset row) :=
  (steady_farDisplacement _).bind fun _ => .pure _

theorem reads_readCase {offset : Nat} {row : Int32 × Nat} {before : List (Int32 × Nat)}
    {b : Bytes} (hq : q.WellFormed) (h : Finds (rowBytes offset row) q b)
    (hkey : ∀ last ∈ before.head?, last.1 < row.1) (pos : Nat) (back : Bytes) :
    Reads (readCase offset before) pos b back (row :: before) := by
  obtain ⟨key, place⟩ := row
  obtain ⟨d, hd, h⟩ := (finds_bind (steady_farDisplacement _) (fun _ => .pure _) hq).mp h
  obtain rfl := finds_pure.mp h
  refine (reads_word key _ _).bind ((Instruction.reads_farTarget hd _ _).bind_last ?_)
  cases before with
  | nil => exact .pure _ _ _
  | cons last before =>
    refine .ite_neg (Int32.not_le.mpr ?_) (.pure _ _ _)
    simpa using hkey

/-- Cases are read one after the other as long as their keys increase. -/
theorem reads_iterate_readCase {offset : Nat} {cases before : List (Int32 × Nat)}
    {rows : List Bytes} (hq : q.WellFormed)
    (h : List.Forall₂ (fun row b => Finds (rowBytes offset row) q b) cases rows)
    (hbefore : ∀ last ∈ before.head?, ∀ row ∈ cases, last.1 < row.1)
    (hkeys : (cases.map (·.1)).Pairwise (· < ·)) (pos : Nat) (back : Bytes) :
    Reads (Reader.iterate (readCase offset) cases.length before) pos rows.flatten back
      (cases.reverse ++ before) := by
  induction h generalizing before pos with
  | nil => exact .pure _ _ _
  | @cons row b cases rows hrow _ ih =>
    simp only [List.map_cons, List.pairwise_cons, List.mem_map, forall_exists_index, and_imp,
      forall_apply_eq_imp_iff₂] at hkeys
    have hcase := reads_readCase hq hrow
      (fun last hlast => hbefore last hlast row (List.mem_cons_self ..))
    simp only [List.flatten_cons, List.reverse_cons, List.append_assoc, List.singleton_append]
    refine (hcase _ _).bind (ih ?_ hkeys.2 _)
    simpa using hkeys.1

theorem finds_lookupSwitchBytes {offset default : Nat} {cases : List (Int32 × Nat)} {b : Bytes}
    (hq : q.WellFormed) (h : Finds (lookupSwitchBytes offset default cases) q b) :
    ∃ d rows, Finds (caseBytes offset default) q d ∧ cases.length ≤ 2147483647 ∧
      List.Forall₂ (fun row b => Finds (rowBytes offset row) q b) cases rows ∧
      b = Opcode.lookupswitch :: List.replicate (switchPadding offset) 0 ++ d ++
        Word.encode (Int32.ofNat cases.length) ++ rows.flatten := by
  have hsteady := Steady.mapM (steady_rowBytes offset) cases
  have hrest (d : Bytes) : Steady (if cases.length > 2147483647 then
      throw (.limitExceeded (.switchCases cases.length))
    else do
      let rows ← cases.mapM (rowBytes offset)
      return Opcode.lookupswitch :: List.replicate (switchPadding offset) 0 ++ d ++
        Word.encode (Int32.ofNat cases.length) ++ rows.flatten) :=
    .ite (.throw _) (hsteady.bind fun _ => .pure _)
  obtain ⟨d, hd, h⟩ := (finds_bind (steady_farDisplacement _) hrest hq).mp h
  split at h
  · exact absurd h not_finds_throw
  · rename_i hcount
    obtain ⟨rows, hrows, h⟩ := (finds_bind hsteady (fun _ => .pure _) hq).mp h
    exact ⟨d, rows, hd, Nat.not_lt.mp hcount, (finds_mapM (steady_rowBytes offset) hq).mp hrows,
      (finds_pure.mp h).symm⟩

theorem reads_lookupSwitchBytes {offset default : Nat} {cases : List (Int32 × Nat)} {b : Bytes}
    (hq : q.WellFormed) (hkeys : (cases.map (·.1)).Pairwise (· < ·))
    (h : Finds (lookupSwitchBytes offset default cases) q b) (back : Bytes) :
    Reads (read q) offset b back (lookupSwitch default cases) := by
  obtain ⟨d, rows, hd, hcount, hrows, rfl⟩ := finds_lookupSwitchBytes hq h
  have hlength := length_flatten_of_mapM 8 (fun row _ _ b hb => by
    obtain ⟨d, p₁, hd, hb⟩ := EStateM.bind_eq_ok.mp hb
    obtain ⟨rfl, -⟩ := EStateM.pure_eq_ok.mp hb
    simp [Word.width, length_farDisplacement hd])
    ((finds_mapM (steady_rowBytes offset) hq).mpr hrows)
  have hint : (Int32.ofNat cases.length).toInt = cases.length :=
    Int32.toInt_ofNat_of_lt (by omega)
  have hreads (pos : Nat) : Reads (Reader.iterate (readCase offset) cases.length []) pos
      rows.flatten back (cases.reverse ++ []) :=
    reads_iterate_readCase hq hrows (by simp) hkeys pos back
  simp only [List.cons_append, List.append_assoc]
  refine reads_operands rfl ((reads_padding offset _).bind ?_)
  refine (Instruction.reads_farTarget hd _ _).bind ((reads_word _ _ _).bind (.ite_neg ?_ ?_))
  · simp [Int32.lt_iff_toInt_lt, hint]
  · refine (reads_ensure _ ?_).bind_nil ?_
    · rw [hint, List.length_append, hlength]
      simp
      omega
    · rw [hint, Int.toNat_natCast]
      simpa using (hreads _).bind_pure (f := fun rows => lookupSwitch default rows.reverse)

/-! ### Uses of the pool -/

theorem reads_fieldBytes {access : FieldAccess} {owner name descriptor : String} {b : Bytes}
    (hp : p.WellFormed)
    (h : (Instruction.field access owner name descriptor).bytes 0 false p = .ok b p')
    (hq : p' ≤ q) (offset : Nat) (back : Bytes) :
    Reads (read q) offset b back (field access owner name descriptor) := by
  obtain ⟨index, p₁, hindex, h⟩ := EStateM.bind_eq_ok.mp h
  obtain ⟨rfl, rfl⟩ := EStateM.pure_eq_ok.mp h
  have hop : readOperands q offset access.opcode = readField q offset access := by
    cases access <;> rfl
  refine reads_operands (by cases access <;> rfl) ?_
  rw [hop]
  refine (reads_word index _ _).bind_last ?_
  rw [memberRef_of_member hp hindex hq]
  exact (reads_ofExcept _ _).bind_nil (.ite_pos rfl (.pure _ _ _))

theorem reads_invokeBytes {kind : InvokeKind} {owner name descriptor : String}
    {ofInterface : Bool} {b : Bytes} (hp : p.WellFormed)
    (h : invokeBytes kind owner name descriptor ofInterface p = .ok b p')
    (hkind : kind = .interface → ofInterface = true) (hq : p' ≤ q) (offset : Nat) (back : Bytes) :
    Reads (read q) offset b back (invoke kind owner name descriptor ofInterface) := by
  obtain ⟨index, p₁, hindex, h⟩ := EStateM.bind_eq_ok.mp h
  have hop : readOperands q offset kind.opcode = readInvoke q offset kind := by
    cases kind <;> rfl
  have hbyte : (ofByte? kind.opcode : Option (Instruction Nat)) = none := by
    cases kind <;> rfl
  split at h
  · rename_i hinterface
    obtain ⟨count, p₂, hcount, h⟩ := EStateM.bind_eq_ok.mp h
    obtain ⟨rfl, rfl⟩ := EStateM.pure_eq_ok.mp h
    obtain rfl := hkind hinterface
    have hp₁ := (steady_member ..).wellFormed hp hindex
    have hle := ConstantPool.le_trans ((steady_interfaceArguments _).le hp₁ hcount) hq
    rw [List.cons_append]
    refine reads_operands hbyte ?_
    rw [hop]
    refine (reads_word index _ _).bind ?_
    rw [memberRef_of_member hp hindex hle]
    refine (reads_ofExcept _ _).bind_nil ?_
    subst hinterface
    exact (reads_skip _ [count, 0] _).bind_last (.pure _ _ _)
  · rename_i hinterface
    obtain ⟨rfl, rfl⟩ := EStateM.pure_eq_ok.mp h
    refine reads_operands hbyte ?_
    rw [hop]
    refine (reads_word index _ _).bind_last ?_
    rw [memberRef_of_member hp hindex hq]
    refine (reads_ofExcept _ _).bind_nil ?_
    cases kind <;> cases ofInterface <;> first | contradiction | exact .pure _ _ _

theorem reads_typeUseBytes {use : TypeUse} {className : String} {index : UInt16}
    (hindex : q.className index = .ok className) (offset : Nat) (back : Bytes) :
    Reads (read q) offset (use.opcode :: Word.encode index) back (typeUse use className) := by
  have hop : readOperands q offset use.opcode = readTypeUse q use := by cases use <;> rfl
  refine reads_operands (by cases use <;> rfl) ?_
  rw [hop]
  refine (reads_word index _ _).bind_last ?_
  rw [hindex]
  exact (reads_ofExcept _ _).bind_nil (.pure _ _ _)

theorem reads_newArraysBytes {className : String} {dimensions : UInt8} {index : UInt16}
    (hindex : q.className index = .ok className) (hdimensions : dimensions ≠ 0) (offset : Nat)
    (back : Bytes) :
    Reads (read q) offset (Opcode.multianewarray :: Word.encode index ++ [dimensions]) back
      (newArrays className dimensions) := by
  refine reads_operands rfl ((reads_word index _ _).bind ?_)
  rw [hindex]
  refine (reads_ofExcept _ _).bind_nil ((reads_u8 _ _ _).bind_last ?_)
  exact .ite_neg hdimensions (.pure _ _ _)

theorem reads_invokeDynamicBytes {index bootstrap signature : UInt16} {name descriptor : String}
    (hget : q.get? index = some (.invokeDynamic bootstrap signature))
    (hsignature : q.nameAndType signature = .ok (name, descriptor)) (offset : Nat)
    (back : Bytes) :
    Reads (read q) offset (Opcode.invokedynamic :: Word.encode index ++ [0, 0]) back
      (invokeDynamic index name descriptor) := by
  refine reads_operands rfl ((reads_word index _ _).bind ?_)
  refine (reads_skip _ [0, 0] _).bind_last ?_
  rw [ConstantPool.get_eq_ok.mpr hget]
  refine (reads_ofExcept _ _).bind_nil ?_
  simp only [hsignature]
  exact (reads_ofExcept _ _).bind_nil (.pure _ _ _)

theorem ofByte?_leave (result : Option ValueKind) :
    (ofByte? (leaveOpcode result) : Option (Instruction Nat)) = some (leave result) := by
  rcases result with _ | kind
  · rfl
  · cases kind <;> rfl

/-- The opcodes that stand for themselves are none of the other single bytes. -/
theorem ofByte?_plain {op : UInt8} (h : isPlain op = true) :
    (ofByte? op : Option (Instruction Nat)) = some (plain op) := by
  have hall : ∀ n : Fin 256, isPlain (UInt8.ofNat n) = true →
      (ofByte? (UInt8.ofNat n) : Option (Instruction Nat)) = some (plain (UInt8.ofNat n)) := by
    decide +kernel
  simpa using hall ⟨op.toNat, op.toNat_lt⟩ (by simpa using h)

/-- The bytes of an instruction are read back as the instruction. -/
theorem reads_bytes {i : Instruction Nat} {offset : Nat} {wide : Bool} {b : Bytes}
    (hq : q.WellFormed) (h : Finds (i.bytes offset wide) q b) (hi : i.ProperIn q)
    (back : Bytes) : Reads (read q) offset b back i := by
  have hle := ConstantPool.le_refl q
  cases i with
  | push value => exact reads_push hq h hle hi _ _
  | load kind slot =>
    obtain rfl := finds_pure.mp h
    exact reads_loadBytes kind slot _ _
  | store kind slot =>
    obtain rfl := finds_pure.mp h
    exact reads_storeBytes kind slot _ _
  | increment slot delta =>
    obtain rfl := finds_pure.mp h
    exact reads_incrementBytes slot delta _ _
  | jump kind target => exact reads_jumpBytes h _
  | tableSwitch low high default targets => exact reads_tableSwitchBytes hq hi.1 hi.2 h _
  | lookupSwitch default cases => exact reads_lookupSwitchBytes hq hi h _
  | field access owner name descriptor => exact reads_fieldBytes hq h hle _ _
  | invoke kind owner name descriptor ofInterface => exact reads_invokeBytes hq h hi hle _ _
  | invokeDynamic index name descriptor =>
    obtain rfl := finds_pure.mp h
    obtain ⟨bootstrap, signature, hget, hsignature⟩ := hi
    exact reads_invokeDynamicBytes hget hsignature _ _
  | typeUse use className =>
    obtain ⟨index, hindex, h⟩ := (finds_bind (steady_classRef _) (fun _ => .pure _) hq).mp h
    obtain rfl := finds_pure.mp h
    exact reads_typeUseBytes (className_of_classRef hq hindex hle) _ _
  | newPrimitives code =>
    obtain rfl := finds_pure.mp h
    refine reads_operands rfl ((reads_u8 code _ _).bind_last (.ite_pos ?_ (.pure _ _ _)))
    simpa [ProperIn] using hi
  | newArrays className dimensions =>
    obtain ⟨index, hindex, h⟩ := (finds_bind (steady_classRef _) (fun _ => .pure _) hq).mp h
    obtain rfl := finds_pure.mp h
    exact reads_newArraysBytes (className_of_classRef hq hindex hle) hi _ _
  | leave result =>
    obtain rfl := finds_pure.mp h
    exact reads_ofByte (ofByte?_leave result) _ _
  | ret slot =>
    obtain rfl := finds_pure.mp h
    exact reads_retBytes slot _ _
  | plain opcode =>
    obtain rfl := finds_pure.mp h
    exact reads_ofByte (ofByte?_plain hi) _ _

end Instruction
end ClassPatch
