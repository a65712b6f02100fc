import ClassPatch.Code.Assembly
import ClassPatch.Code.Disassembly
import ClassPatch.Proofs.Code.Targets
import ClassPatch.Proofs.ConstantPool.Interning

/-!
# Instructions as they are written

`ProperIn` describes the instructions that can stand in code over a pool. Writing one is steady,
and its bytes are as many as its extent says, however much the pool has grown since the
instruction was measured.
-/

namespace ClassPatch

open PoolM

/-- What the indices in a constant refer to is what the constant says. -/
def Value.ProperIn (pool : ConstantPool) : Value → Prop
  | .methodHandle index =>
    ∃ kind reference, pool.get? index = some (.methodHandle kind reference)
  | .dynamic index descriptor => ∃ bootstrap signature name,
      pool.get? index = some (.dynamic bootstrap signature) ∧
        pool.nameAndType signature = .ok (name, descriptor)
  | _ => True

/-- The instruction can stand in code over a pool. -/
def Instruction.ProperIn {τ : Type} (pool : ConstantPool) : Instruction τ → Prop
  | push value => value.ProperIn pool
  | tableSwitch low high _ targets =>
    low ≤ high ∧ targets.length = (high.toInt - low.toInt + 1).toNat
  | lookupSwitch _ cases => (cases.map (·.1)).Pairwise (· < ·)
  | invoke kind _ _ _ ofInterface => kind = .interface → ofInterface = true
  | invokeDynamic index name descriptor => ∃ bootstrap signature,
      pool.get? index = some (.invokeDynamic bootstrap signature) ∧
        pool.nameAndType signature = .ok (name, descriptor)
  | newPrimitives code => 4 ≤ code ∧ code ≤ 11
  | newArrays _ dimensions => dimensions ≠ 0
  | plain opcode => isPlain opcode = true
  | _ => True

variable {p p' q : ConstantPool}

theorem Value.ProperIn.mono (hq : p ≤ q) {v : Value} (h : v.ProperIn p) : v.ProperIn q := by
  cases v with
  | methodHandle index =>
    obtain ⟨kind, reference, hget⟩ := h
    exact ⟨kind, reference, ConstantPool.get?_mono hq hget⟩
  | dynamic index descriptor =>
    obtain ⟨bootstrap, signature, name, hget, hsignature⟩ := h
    exact ⟨bootstrap, signature, name, ConstantPool.get?_mono hq hget,
      ConstantPool.nameAndType_mono hq hsignature⟩
  | _ => trivial

theorem Instruction.ProperIn.mono {τ : Type} (hq : p ≤ q) {i : Instruction τ}
    (h : i.ProperIn p) : i.ProperIn q := by
  cases i with
  | push value => exact Value.ProperIn.mono hq h
  | invokeDynamic index name descriptor =>
    obtain ⟨bootstrap, signature, hget, hsignature⟩ := h
    exact ⟨bootstrap, signature, ConstantPool.get?_mono hq hget,
      ConstantPool.nameAndType_mono hq hsignature⟩
  | _ => exact h

@[simp] theorem Instruction.properIn_map {σ τ : Type} (f : σ → τ) (i : Instruction σ) :
    (i.map f).ProperIn p ↔ i.ProperIn p := by
  cases i <;> simp [map, ProperIn]
  case lookupSwitch => exact Iff.rfl

/-! ### Writing is steady -/

theorem steady_farDisplacement (distance : Int) : Steady (farDisplacement distance) :=
  .ite (.pure _) (.throw _)

theorem steady_nearDisplacement (distance : Int) : Steady (nearDisplacement distance) :=
  .ite (.pure _) (.throw _)

namespace Value

theorem steady_form (v : Value) : Steady v.form := by
  have hentry {index : PoolM UInt16} (h : Steady index) (f : UInt16 → ConstantForm) :
      Steady (return f (← index)) := h.bind fun _ => .pure _
  cases v with
  | null => exact .pure _
  | int value =>
    exact .ite (.pure _) (.ite (.pure _) (.ite (.pure _) (hentry (steady_intern fun _ => rfl) _)))
  | long value => exact .ite (.pure _) (.ite (.pure _) (hentry (steady_intern fun _ => rfl) _))
  | float bits =>
    exact .ite (.pure _) (.ite (.pure _) (.ite (.pure _) (hentry (steady_intern fun _ => rfl) _)))
  | double bits => exact .ite (.pure _) (.ite (.pure _) (hentry (steady_intern fun _ => rfl) _))
  | string text => exact hentry (steady_string _) _
  | classRef name => exact hentry (steady_classRef _) _
  | methodType descriptor => exact hentry (steady_methodType _) _
  | methodHandle index => exact .pure _
  | dynamic index descriptor => exact .pure _

theorem steady_bytes (v : Value) : Steady v.bytes := v.steady_form.bind fun _ => .pure _

end Value

namespace Instruction

theorem steady_jumpBytes (offset : Nat) (wide : Bool) (kind : Jump) (target : Nat) :
    Steady (jumpBytes offset wide kind target) := by
  unfold jumpBytes
  dsimp only
  split
  · exact (steady_nearDisplacement _).bind fun _ => .pure _
  · exact (steady_farDisplacement _).bind fun _ => .pure _
  · exact .throw _

theorem steady_interfaceArguments (descriptor : String) :
    Steady (interfaceArguments descriptor) := by
  unfold interfaceArguments
  split
  · exact .ite (.pure _) (.throw _)
  · exact .throw _

theorem steady_invokeBytes (kind : InvokeKind) (owner name descriptor : String)
    (ofInterface : Bool) : Steady (invokeBytes kind owner name descriptor ofInterface) :=
  (steady_member ..).bind fun _ =>
    .ite ((steady_interfaceArguments _).bind fun _ => .pure _) (.pure _)

theorem steady_bytes (offset : Nat) (wide : Bool) (i : Instruction Nat) :
    Steady (i.bytes offset wide) := by
  cases i with
  | push value => exact value.steady_bytes
  | jump kind target => exact steady_jumpBytes ..
  | tableSwitch low high default targets =>
    exact (steady_farDisplacement _).bind fun _ =>
      (Steady.mapM (fun _ => steady_farDisplacement _) _).bind fun _ => .pure _
  | lookupSwitch default cases =>
    refine (steady_farDisplacement _).bind fun _ => ?_
    dsimp only
    split
    · exact .throw _
    · exact (Steady.mapM (fun _ => (steady_farDisplacement _).bind fun _ => .pure _) _).bind
        fun _ => .pure _
  | field access owner name descriptor => exact (steady_member ..).bind fun _ => .pure _
  | invoke kind owner name descriptor ofInterface => exact steady_invokeBytes ..
  | typeUse use className => exact (steady_classRef _).bind fun _ => .pure _
  | newArrays className dimensions => exact (steady_classRef _).bind fun _ => .pure _
  | _ => exact .pure _

end Instruction

theorem Extent.steady_ofInstruction (i : Instruction Label) : Steady (ofInstruction i) := by
  cases i with
  | push value => exact value.steady_form.bind fun _ => .pure _
  | invoke kind owner name descriptor ofInterface => cases kind <;> exact .pure _
  | _ => exact .pure _

/-! ### As many bytes as the extent says -/

theorem length_farDisplacement {distance : Int} {b : Bytes}
    (h : farDisplacement distance p = .ok b p') : b.length = 4 := by
  unfold farDisplacement at h
  split at h
  · obtain ⟨rfl, -⟩ := EStateM.pure_eq_ok.mp h
    exact Word.length_encode _
  · exact absurd h EStateM.throw_ne_ok

theorem length_nearDisplacement {distance : Int} {b : Bytes}
    (h : nearDisplacement distance p = .ok b p') : b.length = 2 := by
  unfold nearDisplacement at h
  split at h
  · obtain ⟨rfl, -⟩ := EStateM.pure_eq_ok.mp h
    exact Word.length_encode _
  · exact absurd h EStateM.throw_ne_ok

/-- Rows of one length. -/
theorem length_flatten_of_mapM {α : Type} {f : α → PoolM Bytes} (count : Nat)
    (hf : ∀ x {p p' : ConstantPool} {b}, f x p = .ok b p' → b.length = count) {xs : List α}
    {rows : List Bytes} (h : xs.mapM f p = .ok rows p') :
    rows.flatten.length = count * xs.length := by
  induction xs generalizing rows p p' with
  | nil =>
    obtain ⟨rfl, -⟩ := EStateM.pure_eq_ok.mp h
    rfl
  | cons x xs ih =>
    rw [List.mapM_cons] at h
    obtain ⟨row, p₁, hrow, h⟩ := EStateM.bind_eq_ok.mp h
    obtain ⟨rows, p₂, hrows, h⟩ := EStateM.bind_eq_ok.mp h
    obtain ⟨rfl, -⟩ := EStateM.pure_eq_ok.mp h
    have h₁ := hf x hrow
    have h₂ := ih hrows
    simp only [List.flatten_cons, List.length_append, List.length_cons, Nat.mul_add]
    omega

namespace Instruction

theorem jumpBytes_near (offset target : Nat) (kind : Jump) :
    jumpBytes offset false kind target =
      return kind.opcode :: (← nearDisplacement (target - offset)) := rfl

theorem jumpBytes_wide {offset target : Nat} {kind : Jump} {op : UInt8}
    (h : kind.wideOpcode? = some op) :
    jumpBytes offset true kind target = return op :: (← farDisplacement (target - offset)) := by
  simp only [jumpBytes, h]

/-- A conditional jump has no wide form. -/
theorem jumpBytes_not_wide {kind : Jump} (h : kind.wideOpcode? = none) (offset target : Nat) :
    jumpBytes offset true kind target = throw (.malformed (.code (.notWide kind))) := by
  simp only [jumpBytes, h]

theorem length_jumpBytes {offset target : Nat} {wide : Bool} {kind : Jump} {b : Bytes}
    (h : jumpBytes offset wide kind target p = .ok b p') :
    b.length = if wide then 5 else 3 := by
  cases wide with
  | false =>
    obtain ⟨d, p₁, hd, h⟩ := EStateM.bind_eq_ok.mp (jumpBytes_near offset target kind ▸ h)
    obtain ⟨rfl, -⟩ := EStateM.pure_eq_ok.mp h
    simp [length_nearDisplacement hd]
  | true =>
    cases hop : kind.wideOpcode? with
    | none => exact absurd (jumpBytes_not_wide hop offset target ▸ h) EStateM.throw_ne_ok
    | some op =>
      obtain ⟨d, p₁, hd, h⟩ := EStateM.bind_eq_ok.mp (jumpBytes_wide hop ▸ h)
      obtain ⟨rfl, -⟩ := EStateM.pure_eq_ok.mp h
      simp [length_farDisplacement hd]

theorem length_tableSwitchBytes {offset default : Nat} {low high : Int32} {targets : List Nat}
    {b : Bytes} (h : tableSwitchBytes offset low high default targets p = .ok b p') :
    b.length = 1 + switchPadding offset + (12 + 4 * targets.length) := by
  obtain ⟨d, p₁, hd, h⟩ := EStateM.bind_eq_ok.mp h
  obtain ⟨rows, p₂, hrows, h⟩ := EStateM.bind_eq_ok.mp h
  obtain ⟨rfl, -⟩ := EStateM.pure_eq_ok.mp h
  have hd' := length_farDisplacement hd
  have hrows' := length_flatten_of_mapM 4 (fun _ _ _ _ hb => length_farDisplacement hb) hrows
  simp [Word.width, hd', hrows']
  omega

theorem length_lookupSwitchBytes {offset default : Nat} {cases : List (Int32 × Nat)} {b : Bytes}
    (h : lookupSwitchBytes offset default cases p = .ok b p') :
    b.length = 1 + switchPadding offset + (8 + 8 * cases.length) := by
  obtain ⟨d, p₁, hd, h⟩ := EStateM.bind_eq_ok.mp h
  dsimp only at h
  split at h
  · exact absurd h EStateM.throw_ne_ok
  · obtain ⟨rows, p₂, hrows, h⟩ := EStateM.bind_eq_ok.mp h
    obtain ⟨rfl, -⟩ := EStateM.pure_eq_ok.mp h
    have hd' := length_farDisplacement hd
    have hrows' := length_flatten_of_mapM 8 (fun row _ _ b hb => by
      obtain ⟨d, p₁, hd, hb⟩ := EStateM.bind_eq_ok.mp hb
      obtain ⟨rfl, -⟩ := EStateM.pure_eq_ok.mp hb
      simp [Word.width, length_farDisplacement hd]) hrows
    simp [Word.width, hd', hrows']
    omega

theorem length_invokeBytes {kind : InvokeKind} {owner name descriptor : String}
    {ofInterface : Bool} {b : Bytes}
    (h : invokeBytes kind owner name descriptor ofInterface p = .ok b p') :
    b.length = if kind = .interface then 5 else 3 := by
  obtain ⟨index, p₁, -, h⟩ := EStateM.bind_eq_ok.mp h
  split at h
  · rename_i hkind
    obtain ⟨count, p₂, -, h⟩ := EStateM.bind_eq_ok.mp h
    obtain ⟨rfl, -⟩ := EStateM.pure_eq_ok.mp h
    rw [if_pos hkind]
    rfl
  · rename_i hkind
    obtain ⟨rfl, -⟩ := EStateM.pure_eq_ok.mp h
    rw [if_neg hkind]
    rfl

/-- The extent of an instruction is the number of its bytes, also over a larger pool. -/
theorem length_bytes {i : Instruction Label} {g : Label → Nat} {extent : Extent} {offset : Nat}
    {wide : Bool} {b : Bytes} {q' : ConstantPool} (hp : p.WellFormed)
    (hextent : Extent.ofInstruction i p = .ok extent p') (hq : p' ≤ q)
    (h : (i.map g).bytes offset wide q = .ok b q') : b.length = extent.size offset wide := by
  cases i with
  | push value =>
    obtain ⟨form, p₁, hform, hextent⟩ := EStateM.bind_eq_ok.mp hextent
    obtain ⟨rfl, rfl⟩ := EStateM.pure_eq_ok.mp hextent
    obtain ⟨form', p₂, hform', h⟩ := EStateM.bind_eq_ok.mp h
    obtain ⟨rfl, -⟩ := EStateM.pure_eq_ok.mp h
    obtain ⟨rfl, -⟩ := by simpa [value.steady_form.again hp hform hq] using hform'
    exact form.length_bytes
  | load kind slot | store kind slot =>
    obtain ⟨rfl, -⟩ := EStateM.pure_eq_ok.mp hextent
    obtain ⟨rfl, -⟩ := EStateM.pure_eq_ok.mp h
    exact length_localBytes ..
  | increment slot delta =>
    obtain ⟨rfl, -⟩ := EStateM.pure_eq_ok.mp hextent
    obtain ⟨rfl, -⟩ := EStateM.pure_eq_ok.mp h
    exact length_incrementBytes ..
  | ret slot =>
    obtain ⟨rfl, -⟩ := EStateM.pure_eq_ok.mp hextent
    obtain ⟨rfl, -⟩ := EStateM.pure_eq_ok.mp h
    exact length_slotBytes ..
  | jump kind target =>
    obtain ⟨rfl, -⟩ := EStateM.pure_eq_ok.mp hextent
    exact length_jumpBytes h
  | tableSwitch low high default targets =>
    obtain ⟨rfl, -⟩ := EStateM.pure_eq_ok.mp hextent
    rw [length_tableSwitchBytes h, List.length_map]
    rfl
  | lookupSwitch default cases =>
    obtain ⟨rfl, -⟩ := EStateM.pure_eq_ok.mp hextent
    rw [length_lookupSwitchBytes h, List.length_map]
    rfl
  | field access owner name descriptor =>
    obtain ⟨rfl, -⟩ := EStateM.pure_eq_ok.mp hextent
    obtain ⟨index, p₁, -, h⟩ := EStateM.bind_eq_ok.mp h
    obtain ⟨rfl, -⟩ := EStateM.pure_eq_ok.mp h
    rfl
  | invoke kind owner name descriptor ofInterface =>
    cases kind with
    | virtual | special | static | interface =>
      obtain ⟨rfl, -⟩ := EStateM.pure_eq_ok.mp hextent
      exact length_invokeBytes h
  | typeUse use className =>
    obtain ⟨rfl, -⟩ := EStateM.pure_eq_ok.mp hextent
    obtain ⟨index, p₁, -, h⟩ := EStateM.bind_eq_ok.mp h
    obtain ⟨rfl, -⟩ := EStateM.pure_eq_ok.mp h
    rfl
  | newArrays className dimensions =>
    obtain ⟨rfl, -⟩ := EStateM.pure_eq_ok.mp hextent
    obtain ⟨index, p₁, -, h⟩ := EStateM.bind_eq_ok.mp h
    obtain ⟨rfl, -⟩ := EStateM.pure_eq_ok.mp h
    rfl
  | _ =>
    obtain ⟨rfl, -⟩ := EStateM.pure_eq_ok.mp hextent
    obtain ⟨rfl, -⟩ := EStateM.pure_eq_ok.mp h
    rfl

end Instruction

end ClassPatch
