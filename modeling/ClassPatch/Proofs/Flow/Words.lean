import ClassPatch.Proofs.Descriptor.Grammar
import ClassPatch.Proofs.Flow.Operations
import Mathlib.Algebra.Ring.Nat

/-!
# The words that instructions move

How many words an instruction takes from the stack and how many it puts there is known without the
types on it: `Instruction.words` says so from the instruction set alone. The analysis of types moves
as many, except for two instructions that it misjudges, and never gives up a local.
-/

namespace ClassPatch

/-! ### The instruction set -/

namespace Opcode

/-- Opcodes without operands by the words that they take from the stack and that they put there. -/
def wordTable : List (List UInt8 × Nat × Nat) := [
  ([nop], 0, 0),
  ([iaload, faload, aaload, baload, caload, saload], 2, 1),
  ([laload, daload], 2, 2),
  ([iastore, fastore, aastore, bastore, castore, sastore], 3, 0),
  ([lastore, dastore], 4, 0),
  ([pop, monitorenter, monitorexit, athrow], 1, 0),
  ([pop2], 2, 0),
  ([dup], 1, 2),
  ([dupX1], 2, 3),
  ([dupX2], 3, 4),
  ([dup2], 2, 4),
  ([dup2X1], 3, 5),
  ([dup2X2], 4, 6),
  ([swap], 2, 2),
  -- `iadd`, `isub`, `imul`, `idiv`, `irem` and the same of `float`, then of `long` and `double`
  ([0x60, 0x64, 0x68, 0x6C, 0x70, 0x62, 0x66, 0x6A, 0x6E, 0x72], 2, 1),
  ([0x61, 0x65, 0x69, 0x6D, 0x71, 0x63, 0x67, 0x6B, 0x6F, 0x73], 4, 2),
  -- `ineg` and `fneg`, then `lneg` and `dneg`
  ([0x74, 0x76], 1, 1),
  ([0x75, 0x77], 2, 2),
  ([ishl, ishr, iushr, iand, ior, ixor], 2, 1),
  ([lshl, lshr, lushr], 3, 2),
  ([land, lor, lxor], 4, 2),
  ([i2f, f2i, i2b, i2c, i2s, arraylength], 1, 1),
  ([i2l, i2d, f2l, f2d], 1, 2),
  ([l2i, l2f, d2i, d2f], 2, 1),
  ([l2d, d2l], 2, 2),
  ([fcmpl, fcmpg], 2, 1),
  ([lcmp, dcmpl, dcmpg], 4, 1)]

/-- The words that an opcode without operands takes from the stack and puts there. -/
def words (op : UInt8) : Option (Nat × Nat) :=
  (wordTable.find? fun row => row.1.contains op).map (·.2)

end Opcode

/-- The words that the parameters of a method take. -/
def MethodDescriptor.words (d : MethodDescriptor) : Nat := (d.parameters.map (·.slots)).sum

/-- The words that the result of a method takes. -/
def MethodDescriptor.resultWords (d : MethodDescriptor) : Nat :=
  (d.result.map (·.slots)).getD 0

/-- The words that an access to a field takes from the stack and puts there. -/
def FieldAccess.words (value : Nat) : FieldAccess → Nat × Nat
  | getStatic => (0, value)
  | putStatic => (value, 0)
  | getField => (1, value)
  | putField => (1 + value, 0)

namespace Instruction

variable {τ : Type}

/-- The words that an instruction takes from the stack and puts there. The call of a subroutine puts
the return address there for its target only. -/
def words : Instruction τ → Option (Nat × Nat)
  | push value => some (0, value.words)
  | load kind _ => some (0, kind.slots)
  | store kind _ => some (kind.slots, 0)
  | increment _ _ | ret _ => some (0, 0)
  | jump kind _ => some (kind.words, 0)
  | tableSwitch .. | lookupSwitch .. => some (1, 0)
  | field access _ _ descriptor => some (access.words (if descriptor ∈ ["J", "D"] then 2 else 1))
  | invoke kind _ _ descriptor _ =>
    match MethodDescriptor.parse descriptor with
    | .ok d => some (d.words + (if kind = .static then 0 else 1), d.resultWords)
    | .error _ => none
  | invokeDynamic _ _ descriptor =>
    match MethodDescriptor.parse descriptor with
    | .ok d => some (d.words, d.resultWords)
    | .error _ => none
  | typeUse .newObject _ => some (0, 1)
  | typeUse _ _ | newPrimitives _ => some (1, 1)
  | newArrays _ dimensions => some (dimensions.toNat, 1)
  | leave result => some (ClassPatch.resultWords result, 0)
  | plain opcode => Opcode.words opcode

/-- The analysis counts the words of an instruction right: it takes no value of two words from an
array of references, and no call has more parameters than 16 bits count. -/
def Counted (i : Instruction τ) (s : FlowState) : Prop :=
  match i with
  | plain opcode => opcode = Opcode.aaload →
    s.stack[1]? ≠ some (.object "[J") ∧ s.stack[1]? ≠ some (.object "[D")
  | invoke _ _ _ descriptor _ | invokeDynamic _ _ descriptor =>
    ∀ d, MethodDescriptor.parse descriptor = .ok d → d.words < 65536
  | _ => True

end Instruction

/-! ### Operations on states -/

/-- A type is as wide as the values of a field of it. -/
@[simp] theorem FieldType.width_verification (t : FieldType) : t.verification.width = t.slots := by
  cases t <;> rfl

/-- Only two letters describe fields of two words. -/
theorem FieldType.slots_of_parse {text : String} {t : FieldType}
    (h : FieldType.parse text = .ok t) : t.slots = if text ∈ ["J", "D"] then 2 else 1 := by
  obtain ⟨-, rfl⟩ := FieldType.parse_eq_ok_iff.mp h
  have htext (letter : String) : t.descriptor = letter ↔ t.chars = letter.toList := by
    rw [← String.toList_inj, FieldType.descriptor, String.toList_ofList]
  simp only [List.mem_cons, List.not_mem_nil, or_false, htext]
  cases t with
  | object | array => simp [FieldType.slots, FieldType.chars]
  | _ => decide

theorem ValueKind.width_of_primitive? {kind : ValueKind} {t : VerificationType}
    (h : kind.primitive? = some t) : t.width = kind.slots := by
  cases kind <;> cases h <;> rfl

theorem VerificationType.width_of_isReference {t : VerificationType} (h : t.isReference = true) :
    t.width = 1 := by
  cases t <;> simp_all [isReference, width, isWide]

namespace FlowState

variable {s s₁ s₂ s' : FlowState}

/-- Words are taken from the stack and others put there, and no local is given up. -/
structure Moves (s s' : FlowState) (taken put : Nat) : Prop where
  le : taken ≤ s.stack.length
  height : s'.stack.length = s.stack.length - taken + put
  size_le : s.locals.size ≤ s'.locals.size

namespace Moves

theorem refl (s : FlowState) : Moves s s 0 0 := ⟨Nat.zero_le _, rfl, Nat.le_refl _⟩

/-- What is taken after nothing has been put is taken together. -/
theorem trans {a b c : Nat} (h : Moves s s₁ a 0) (h' : Moves s₁ s₂ b c) : Moves s s₂ (a + b) c where
  le := by
    have hle := h.le
    have hheight := h.height
    have hle' := h'.le
    omega
  height := by
    have hheight := h.height
    have hheight' := h'.height
    omega
  size_le := Nat.le_trans h.size_le h'.size_le

theorem push {a : Nat} (h : Moves s s₁ a 0) (t : VerificationType) :
    Moves s (s₁.push t) a t.width where
  le := h.le
  height := by
    have hheight := h.height
    simp only [FlowState.push, VerificationType.width]
    split
    · simp only [List.length_cons]
      omega
    · simp only [List.length_cons]
      omega
  size_le := h.size_le

theorem pushResult {a : Nat} (h : Moves s s₁ a 0) (d : MethodDescriptor) :
    Moves s (s₁.pushResult d) a d.resultWords := by
  unfold FlowState.pushResult MethodDescriptor.resultWords
  cases d.result with
  | none => exact h
  | some t =>
    rw [Option.map_some, Option.map_some, Option.getD_some, Option.getD_some,
      ← FieldType.width_verification]
    exact h.push _

/-- Types of words change nothing about their number. -/
theorem replace {a : Nat} (h : Moves s s₁ a 0) (old new : VerificationType) :
    Moves s (s₁.replace old new) a 0 where
  le := h.le
  height := by rw [← h.height]; exact List.length_map _
  size_le := by
    rw [show (s₁.replace old new).locals.size = s₁.locals.size from Array.size_map ..]
    exact h.size_le

end Moves

theorem moves_of_pop {count : Nat} (h : s.pop count = .ok s') : Moves s s' count 0 := by
  obtain ⟨hle, rfl⟩ := pop_eq_ok.mp h
  exact ⟨hle, List.length_drop, Nat.le_refl _⟩

theorem moves_of_popValue {count : Nat} {t : VerificationType}
    (h : s.popValue count = .ok (t, s')) : Moves s s' count 0 :=
  moves_of_pop (popValue_eq_ok.mp h).1

/-- The type of a popped value is the one in its lowest word. -/
theorem type_of_popValue {count : Nat} {t : VerificationType}
    (h : s.popValue (count + 1) = .ok (t, s')) : s.stack[count]? = some t := by
  have hle := (moves_of_popValue h).le
  obtain ⟨-, rfl⟩ := popValue_eq_ok.mp h
  rw [List.getLastD_eq_getLast?, List.getLast?_eq_getElem?, List.length_take, List.getElem?_take,
    Nat.min_eq_left hle, Nat.add_sub_cancel, if_pos (Nat.lt_succ_self _),
    List.getElem?_eq_getElem (by omega), Option.getD_some]

theorem moves_of_duplicate {count depth : Nat} (h : s.duplicate count depth = .ok s') :
    Moves s s' (count + depth) (count + depth + count) := by
  obtain ⟨hle, rfl⟩ := duplicate_eq_ok.mp h
  refine ⟨hle, ?_, Nat.le_refl _⟩
  simp only [List.length_append, List.length_take, List.length_drop]
  omega

theorem moves_of_swap (h : s.swap = .ok s') : Moves s s' 2 2 := by
  obtain ⟨first, second, rest, hstack, rfl⟩ := swap_eq_ok.mp h
  refine ⟨?_, ?_, Nat.le_refl _⟩
  · simp [hstack]
  · simp [hstack]

theorem size_widen (count : Nat) (locals : Array VerificationType) :
    (widen count locals).size = max locals.size count := by
  simp only [widen, Array.size_append, Array.size_replicate]
  omega

/-- A store makes room for what it stores. -/
theorem size_setLocal (slot : Nat) (t : VerificationType) (s : FlowState) :
    (s.setLocal slot t).locals.size = max s.locals.size (slot + t.width) := by
  unfold setLocal
  dsimp only
  split <;> split <;> simp only [Array.size_setIfInBounds, size_widen]

theorem Moves.setLocal {a : Nat} (h : Moves s s₁ a 0) (slot : Nat) (t : VerificationType) :
    Moves s (s₁.setLocal slot t) a 0 where
  le := h.le
  height := h.height
  size_le := by
    rw [size_setLocal]
    exact Nat.le_trans h.size_le (Nat.le_max_left _ _)

/-! ### Opcodes -/

/-- Elements of arrays are wide only where the array is one of wide primitives. -/
theorem width_elementOf {t : VerificationType} (hlong : t ≠ .object "[J")
    (hdouble : t ≠ .object "[D") : (elementOf t).width = 1 := by
  unfold elementOf
  split
  · rfl
  · rename_i descriptor
    split
    · rfl
    · rename_i element _ hchars
      split
      · rename_i t hparse
        have hne {letter : String} (h : String.ofList element = letter) :
            descriptor = "[" ++ letter := by
          rw [← String.toList_inj, hchars, ← h]
          simp
        rw [FieldType.width_verification, FieldType.slots_of_parse hparse, if_neg]
        intro hmem
        simp only [List.mem_cons, List.not_mem_nil, or_false] at hmem
        rcases hmem with h | h
        · exact hlong (congrArg _ (hne h))
        · exact hdouble (congrArg _ (hne h))
      · rfl
    · rfl
  · rfl

/-- The table of effects agrees with the instruction set. -/
theorem words_of_plainEffect {op : UInt8} {taken : Nat} {result : Option VerificationType}
    (h : plainEffect op = some (taken, result)) :
    Opcode.words op = some (taken, (result.map (·.width)).getD 0) := by
  have hall : ∀ n : Fin 256, ∀ row ∈ plainEffect (UInt8.ofNat n),
      Opcode.words (UInt8.ofNat n) = some (row.1, (row.2.map (·.width)).getD 0) := by
    decide +kernel
  have hop := hall ⟨op.toNat, op.toNat_lt⟩
  rw [UInt8.ofNat_toNat] at hop
  exact hop _ h

/-- The instruction set has the words that are copied twice among those put back. -/
theorem words_of_copied? {op : UInt8} {count depth : Nat} (h : copied? op = some (count, depth)) :
    Opcode.words op = some (count + depth, count + depth + count) := by
  unfold copied? at h
  split at h <;> cases h <;> rfl

/-- What an opcode without operands moves, as the instruction set has it unless it takes a wide
value from an array of references. -/
theorem moves_of_plain {op : UInt8} (h : s.plain op = .ok s') :
    ∃ taken put, Moves s s' taken put ∧
      ((Instruction.plain op : Instruction Label).Counted s →
        Opcode.words op = some (taken, put)) := by
  cases plain_eq_ok.mp h with
  | copy hop hcopy => exact ⟨_, _, moves_of_duplicate hcopy, fun _ => words_of_copied? hop⟩
  | swap hswap => exact ⟨_, _, moves_of_swap hswap, fun _ => rfl⟩
  | element hpop =>
    refine ⟨_, _, (moves_of_popValue hpop).push _, fun hcounted => ?_⟩
    obtain ⟨hlong, hdouble⟩ := hcounted rfl
    rw [type_of_popValue hpop] at hlong hdouble
    rw [width_elementOf (by simpa using hlong) (by simpa using hdouble)]
    rfl
  | take heffect hpop => exact ⟨_, _, moves_of_pop hpop, fun _ => words_of_plainEffect heffect⟩
  | compute heffect hpop =>
    exact ⟨_, _, (moves_of_pop hpop).push _, fun _ => words_of_plainEffect heffect⟩

/-! ### Instructions -/

theorem moves_of_useField {access : FieldAccess} {descriptor : String}
    (h : s.useField access descriptor = .ok s') :
    ∃ taken put, Moves s s' taken put ∧
      access.words (if descriptor ∈ ["J", "D"] then 2 else 1) = (taken, put) := by
  obtain ⟨t, ht, haccess⟩ := useField_eq_ok.mp h
  rw [← FieldType.slots_of_parse ht]
  cases haccess with
  | getStatic =>
    refine ⟨_, _, (Moves.refl s).push _, ?_⟩
    rw [FieldType.width_verification]
    rfl
  | putStatic hpop => exact ⟨_, _, moves_of_pop hpop, rfl⟩
  | getField hpop =>
    refine ⟨_, _, (moves_of_pop hpop).push _, ?_⟩
    rw [FieldType.width_verification]
    rfl
  | putField hpop =>
    refine ⟨_, _, moves_of_pop hpop, ?_⟩
    rw [Nat.add_comm]
    rfl

/-- The words of parameters are counted in 16 bits. -/
theorem toNat_parameterSlots_mod (d : MethodDescriptor) :
    d.parameterSlots.toNat = d.words % 65536 := by
  have hfold (parameters : List FieldType) (count : UInt16) :
      (parameters.foldl (fun count t => count + UInt16.ofNat t.slots) count).toNat =
        (count.toNat + (parameters.map (·.slots)).sum) % 65536 := by
    induction parameters generalizing count with
    | nil => exact (Nat.mod_eq_of_lt count.toNat_lt).symm
    | cons t parameters ih =>
      rw [List.foldl_cons, ih, UInt16.toNat_add, UInt16.toNat_ofNat', Nat.add_mod_mod,
        Nat.mod_add_mod, List.map_cons, List.sum_cons, Nat.add_assoc]
  simpa [MethodDescriptor.parameterSlots, MethodDescriptor.words] using hfold d.parameters 0

/-- Parameters that 16 bits can count are counted right. -/
theorem toNat_parameterSlots {d : MethodDescriptor} (h : d.words < 65536) :
    d.parameterSlots.toNat = d.words := by
  rw [toNat_parameterSlots_mod, Nat.mod_eq_of_lt h]

/-- A constructor only retypes the words of its receiver. -/
theorem Moves.receive {a : Nat} (h : Moves s s₁ a 0) (g : FlowGraph) (kind : InvokeKind)
    (owner name : String) (receiver : VerificationType) :
    Moves s (s₁.receive g kind owner name receiver) a 0 := by
  rcases receive_eq g kind owner name receiver s₁ with heq | ⟨new, -, heq⟩
  · rwa [heq]
  · rw [heq]
    exact h.replace receiver new

theorem moves_of_call {g : FlowGraph} {kind : InvokeKind} {owner name descriptor : String}
    (h : s.call g kind owner name descriptor = .ok s') :
    ∃ d taken, MethodDescriptor.parse descriptor = .ok d ∧ Moves s s' taken d.resultWords ∧
      taken = d.parameterSlots.toNat + (if kind = .static then 0 else 1) := by
  obtain ⟨d, hd, hcalls⟩ := call_eq_ok.mp h
  refine ⟨d, _, hd, ?_, rfl⟩
  cases hcalls with
  | static hpop => exact (moves_of_pop hpop).pushResult d
  | member hkind hpop hreceiver =>
    rw [if_neg hkind]
    have hmoves := (moves_of_pop hpop).trans (moves_of_popValue hreceiver)
    exact (hmoves.receive g kind owner name _).pushResult d

theorem moves_of_useType {g : FlowGraph} {index : Nat} {use : TypeUse} {className : String}
    (h : s.useType g index use className = .ok s') :
    ∃ taken, Moves s s' taken 1 ∧
      (Instruction.typeUse use className : Instruction Label).words = some (taken, 1) := by
  cases useType_eq_ok.mp h with
  | newObject => exact ⟨_, (Moves.refl s).push _, rfl⟩
  | newArray hpop | checkCast hpop | instanceOf hpop => exact ⟨_, (moves_of_pop hpop).push _, rfl⟩

end FlowState

namespace FlowGraph

open FlowState

variable {g : FlowGraph} {index : Nat} {s : FlowState} {t : Transfer}

/-- A load pushes a value of its kind. -/
theorem width_loaded (s : FlowState) (kind : ValueKind) (slot : Nat) :
    (s.loaded kind slot).width = kind.slots := by
  unfold loaded
  split
  · rename_i t hprimitive
    exact ValueKind.width_of_primitive? hprimitive
  · rename_i hnone
    have hkind : kind.slots = 1 := by cases kind <;> first | rfl | cases hnone
    rw [hkind]
    split
    · exact VerificationType.width_of_isReference ‹_›
    · rfl

theorem width_verification {v : Value} {type : VerificationType} (h : v.verification = .ok type) :
    type.width = v.words := by
  cases v with
  | dynamic index descriptor =>
    obtain ⟨t, ht, rfl⟩ := Except.map_eq_ok.mp h
    rw [FieldType.width_verification, FieldType.slots_of_parse ht]
    simp [Value.words]
  | _ => cases h; rfl

/-- What an event moves, as the instruction set has it for all instructions that are counted
right. -/
theorem moves_of_transferInstruction {i : Instruction Label}
    (h : g.transferInstruction index s i = .ok t) :
    ∃ taken put, Moves s t.after taken put ∧ (i.Counted s → i.words = some (taken, put)) := by
  cases transferInstruction_eq_ok.mp h with
  | push htype =>
    refine ⟨_, _, (Moves.refl s).push _, fun _ => ?_⟩
    rw [width_verification htype]
    rfl
  | load =>
    refine ⟨_, _, (Moves.refl s).push _, fun _ => ?_⟩
    rw [width_loaded]
    rfl
  | store hpop => exact ⟨_, _, (moves_of_popValue hpop).setLocal _ _, fun _ => rfl⟩
  | increment => exact ⟨_, _, (Moves.refl s).setLocal _ _, fun _ => rfl⟩
  | subroutine => exact ⟨_, _, .refl s, fun _ => rfl⟩
  | jump _ hpop => exact ⟨_, _, moves_of_pop hpop, fun _ => rfl⟩
  | tableSwitch hpop | lookupSwitch hpop | leave hpop =>
    exact ⟨_, _, moves_of_pop hpop, fun _ => rfl⟩
  | field hfield =>
    obtain ⟨taken, put, hmoves, hwords⟩ := moves_of_useField hfield
    exact ⟨taken, put, hmoves, fun _ => congrArg some hwords⟩
  | invoke hcall =>
    obtain ⟨d, taken, hd, hmoves, htaken⟩ := moves_of_call hcall
    refine ⟨taken, _, hmoves, fun hcounted => ?_⟩
    rw [toNat_parameterSlots (hcounted d hd)] at htaken
    rw [htaken, Instruction.words, hd]
  | @invokeDynamic _ _ _ d _ hd hpop =>
    refine ⟨_, _, (moves_of_pop hpop).pushResult d, fun hcounted => ?_⟩
    rw [toNat_parameterSlots (hcounted d hd), Instruction.words, hd]
  | typeUse huse =>
    obtain ⟨taken, hmoves, hwords⟩ := moves_of_useType huse
    exact ⟨taken, 1, hmoves, fun _ => hwords⟩
  | newPrimitives hpop | newArrays hpop => exact ⟨_, _, (moves_of_pop hpop).push _, fun _ => rfl⟩
  | ret => exact ⟨_, _, .refl s, fun _ => rfl⟩
  | plain hplain => exact moves_of_plain hplain

end FlowGraph
end ClassPatch
