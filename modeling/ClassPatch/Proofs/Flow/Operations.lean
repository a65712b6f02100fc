import ClassPatch.Flow.Transfer
import ClassPatch.Proofs.Outcome

/-!
# What permitted operations do

An operation on a state succeeds exactly where the state permits it, and then does one thing. This
is said here once for each operation and in both directions. `Executes` has one rule for each
instruction, and whatever is true of the outcomes of instructions is proved by these rules.
-/

namespace ClassPatch

namespace FlowState

variable {s s' : FlowState}

/-! ### The stack -/

theorem pop_eq_ok {count : Nat} : s.pop count = .ok s' ↔
    count ≤ s.stack.length ∧ s' = { s with stack := s.stack.drop count } := by
  unfold pop
  split
  · rename_i hle
    exact ⟨fun h => ⟨hle, (Except.ok.inj h).symm⟩, fun h => congrArg _ h.2.symm⟩
  · rename_i hlt
    exact ⟨nofun, fun h => absurd h.1 hlt⟩

theorem pop_of_le {count : Nat} (h : count ≤ s.stack.length) :
    s.pop count = .ok { s with stack := s.stack.drop count } := pop_eq_ok.mpr ⟨h, rfl⟩

/-- The type of a popped value is the one in its lowest word. -/
theorem popValue_eq_ok {count : Nat} {t : VerificationType} : s.popValue count = .ok (t, s') ↔
    s.pop count = .ok s' ∧ t = (s.stack.take count).getLastD .top := by
  constructor
  · intro h
    obtain ⟨after, hpop, h⟩ := Except.bind_eq_ok.mp h
    obtain ⟨rfl, rfl⟩ := Prod.mk.inj (Except.pure_eq_ok.mp h)
    exact ⟨hpop, rfl⟩
  · rintro ⟨hpop, rfl⟩
    exact Except.bind_eq_ok.mpr ⟨s', hpop, rfl⟩

theorem duplicate_eq_ok {count depth : Nat} : s.duplicate count depth = .ok s' ↔
    count + depth ≤ s.stack.length ∧ s' = { s with
      stack := s.stack.take (count + depth) ++ s.stack.take count ++
        s.stack.drop (count + depth) } := by
  unfold duplicate
  split
  · rename_i hle
    exact ⟨fun h => ⟨hle, (Except.ok.inj h).symm⟩, fun h => congrArg _ h.2.symm⟩
  · rename_i hlt
    exact ⟨nofun, fun h => absurd h.1 hlt⟩

theorem swap_eq_ok : s.swap = .ok s' ↔ ∃ first second rest, s.stack = first :: second :: rest ∧
    s' = { s with stack := second :: first :: rest } := by
  unfold swap
  split
  · rename_i first second rest hstack
    constructor
    · intro h
      exact ⟨first, second, rest, hstack, (Except.ok.inj h).symm⟩
    · rintro ⟨first', second', rest', hstack', rfl⟩
      rw [hstack'] at hstack
      cases hstack
      rfl
  · rename_i hshort
    exact ⟨nofun, fun ⟨first, second, rest, hstack, _⟩ => absurd hstack (hshort first second rest)⟩

/-! ### Opcodes without operands -/

/-- The words that an opcode copies, and the words below which it puts the copies. -/
def copied? (op : UInt8) : Option (Nat × Nat) :=
  match op with
  | Opcode.dup => some (1, 0)
  | Opcode.dupX1 => some (1, 1)
  | Opcode.dupX2 => some (1, 2)
  | Opcode.dup2 => some (2, 0)
  | Opcode.dup2X1 => some (2, 1)
  | Opcode.dup2X2 => some (2, 2)
  | _ => none

/-- What an opcode without operands does. -/
inductive Operates (s : FlowState) : UInt8 → FlowState → Prop
  | copy {op : UInt8} {count depth : Nat} {s' : FlowState} (hop : copied? op = some (count, depth))
      (hcopy : s.duplicate count depth = .ok s') : s.Operates op s'
  | swap {s' : FlowState} (hswap : s.swap = .ok s') : s.Operates Opcode.swap s'
  | element {array : VerificationType} {s₁ : FlowState} (hpop : s.popValue 2 = .ok (array, s₁)) :
      s.Operates Opcode.aaload (s₁.push (elementOf array))
  | take {op : UInt8} {words : Nat} {s' : FlowState} (heffect : plainEffect op = some (words, none))
      (hpop : s.pop words = .ok s') : s.Operates op s'
  | compute {op : UInt8} {words : Nat} {t : VerificationType} {s₁ : FlowState}
      (heffect : plainEffect op = some (words, some t)) (hpop : s.pop words = .ok s₁) :
      s.Operates op (s₁.push t)

/-- Opcodes with an effect of their own are not in the table of effects. -/
theorem plain_of_plainEffect {op : UInt8} {words : Nat} {result : Option VerificationType}
    (h : plainEffect op = some (words, result)) :
    s.plain op = do
      let s ← s.pop words
      return (result.map (s.push ·)).getD s := by
  unfold plain
  split
  case h_9 => rw [h]
  all_goals cases h

theorem plain_eq_ok {op : UInt8} : s.plain op = .ok s' ↔ s.Operates op s' := by
  constructor
  · intro h
    unfold plain at h
    split at h
    · exact .copy rfl h
    · exact .copy rfl h
    · exact .copy rfl h
    · exact .copy rfl h
    · exact .copy rfl h
    · exact .copy rfl h
    · exact .swap h
    · obtain ⟨⟨array, s₁⟩, hpop, h⟩ := Except.bind_eq_ok.mp h
      obtain rfl := Except.pure_eq_ok.mp h
      exact .element hpop
    · split at h
      · rename_i words result heffect
        obtain ⟨s₁, hpop, h⟩ := Except.bind_eq_ok.mp h
        obtain rfl := Except.pure_eq_ok.mp h
        cases result with
        | none => exact .take heffect hpop
        | some t => exact .compute heffect hpop
      · cases h
  · intro h
    cases h with
    | copy hop hcopy =>
      unfold copied? at hop
      split at hop <;> cases hop <;> exact hcopy
    | swap hswap => exact hswap
    | element hpop => exact Except.bind_eq_ok.mpr ⟨_, hpop, rfl⟩
    | take heffect hpop =>
      rw [plain_of_plainEffect heffect]
      exact Except.bind_eq_ok.mpr ⟨_, hpop, rfl⟩
    | compute heffect hpop =>
      rw [plain_of_plainEffect heffect]
      exact Except.bind_eq_ok.mpr ⟨_, hpop, rfl⟩

/-! ### Fields, calls and classes -/

/-- What an access to a field of a type does. -/
inductive Accesses (s : FlowState) (t : FieldType) : FieldAccess → FlowState → Prop
  | getStatic : s.Accesses t .getStatic (s.push t.verification)
  | putStatic {s' : FlowState} (hpop : s.pop t.slots = .ok s') : s.Accesses t .putStatic s'
  | getField {s₁ : FlowState} (hpop : s.pop 1 = .ok s₁) :
      s.Accesses t .getField (s₁.push t.verification)
  | putField {s' : FlowState} (hpop : s.pop (t.slots + 1) = .ok s') : s.Accesses t .putField s'

theorem useField_eq_ok {access : FieldAccess} {descriptor : String} :
    s.useField access descriptor = .ok s' ↔
      ∃ t, FieldType.parse descriptor = .ok t ∧ s.Accesses t access s' := by
  unfold useField
  rw [Except.bind_eq_ok]
  refine exists_congr fun t => and_congr_right fun _ => ⟨fun h => ?_, fun h => ?_⟩
  · cases access with
    | getStatic =>
      obtain rfl := Except.pure_eq_ok.mp h
      exact .getStatic
    | putStatic => exact .putStatic h
    | getField =>
      obtain ⟨s₁, hpop, h⟩ := Except.bind_eq_ok.mp h
      obtain rfl := Except.pure_eq_ok.mp h
      exact .getField hpop
    | putField => exact .putField h
  · cases h with
    | getStatic => rfl
    | putStatic hpop => exact hpop
    | getField hpop => exact Except.bind_eq_ok.mpr ⟨_, hpop, rfl⟩
    | putField hpop => exact hpop

variable {g : FlowGraph} {index : Nat} {kind : InvokeKind} {owner name : String}

/-- The state after a receiver has been taken by a call. A constructor initializes every copy of
it. -/
def receive (g : FlowGraph) (kind : InvokeKind) (owner name : String) (receiver : VerificationType)
    (s : FlowState) : FlowState :=
  if kind = .special && name = constructorName then
    ((initialized? g owner receiver).map (s.replace receiver ·)).getD s
  else
    s

/-- A call only retypes its receiver, and only one that it initializes. -/
theorem receive_eq (g : FlowGraph) (kind : InvokeKind) (owner name : String)
    (receiver : VerificationType) (s : FlowState) :
    s.receive g kind owner name receiver = s ∨ ∃ new, initialized? g owner receiver = some new ∧
      s.receive g kind owner name receiver = s.replace receiver new := by
  unfold receive
  split
  · cases hnew : initialized? g owner receiver with
    | none => exact .inl rfl
    | some new => exact .inr ⟨new, rfl, rfl⟩
  · exact .inl rfl

/-- What a call does. -/
inductive Calls (g : FlowGraph) (owner name : String) (s : FlowState) (d : MethodDescriptor) :
    InvokeKind → FlowState → Prop
  | static {s₁ : FlowState} (hpop : s.pop d.parameterSlots.toNat = .ok s₁) :
      Calls g owner name s d .static (s₁.pushResult d)
  | member {kind : InvokeKind} {receiver : VerificationType} {s₁ s₂ : FlowState}
      (hkind : kind ≠ .static) (hpop : s.pop d.parameterSlots.toNat = .ok s₁)
      (hreceiver : s₁.popValue 1 = .ok (receiver, s₂)) :
      Calls g owner name s d kind ((s₂.receive g kind owner name receiver).pushResult d)

theorem call_eq_ok {descriptor : String} : s.call g kind owner name descriptor = .ok s' ↔
    ∃ d, MethodDescriptor.parse descriptor = .ok d ∧ Calls g owner name s d kind s' := by
  unfold call
  rw [Except.bind_eq_ok]
  refine exists_congr fun d => and_congr_right fun _ => ⟨fun h => ?_, fun h => ?_⟩
  · obtain ⟨s₁, hpop, h⟩ := Except.bind_eq_ok.mp h
    by_cases hkind : kind = .static
    · rw [if_pos hkind] at h
      obtain rfl := Except.pure_eq_ok.mp h
      exact hkind ▸ .static hpop
    · rw [if_neg hkind] at h
      obtain ⟨⟨receiver, s₂⟩, hreceiver, h⟩ := Except.bind_eq_ok.mp h
      obtain rfl := Except.pure_eq_ok.mp h
      exact .member hkind hpop hreceiver
  · cases h with
    | static hpop => exact Except.bind_eq_ok.mpr ⟨_, hpop, if_pos rfl⟩
    | member hkind hpop hreceiver =>
      refine Except.bind_eq_ok.mpr ⟨_, hpop, (if_neg hkind).trans ?_⟩
      exact Except.bind_eq_ok.mpr ⟨_, hreceiver, rfl⟩

/-- What a use of a class at a position does. -/
inductive UsesType (g : FlowGraph) (index : Nat) (className : String) (s : FlowState) :
    TypeUse → FlowState → Prop
  | newObject {l : Label} (hl : g.labelBefore? index = some l) :
      UsesType g index className s .newObject (s.push (.uninitialized l))
  | newArray {s₁ : FlowState} (hpop : s.pop 1 = .ok s₁) :
      UsesType g index className s .newArray (s₁.push (.object (arrayOf className)))
  | checkCast {s₁ : FlowState} (hpop : s.pop 1 = .ok s₁) :
      UsesType g index className s .checkCast (s₁.push (.object className))
  | instanceOf {s₁ : FlowState} (hpop : s.pop 1 = .ok s₁) :
      UsesType g index className s .instanceOf (s₁.push .integer)

theorem useType_eq_ok {use : TypeUse} {className : String} :
    s.useType g index use className = .ok s' ↔ UsesType g index className s use s' := by
  constructor
  · intro h
    cases use with
    | newObject =>
      unfold useType at h
      dsimp only at h
      split at h
      · rename_i l hl
        obtain rfl := Except.ok.inj h
        exact .newObject hl
      · cases h
    | newArray =>
      obtain ⟨s₁, hpop, h⟩ := Except.bind_eq_ok.mp h
      obtain rfl := Except.pure_eq_ok.mp h
      exact .newArray hpop
    | checkCast =>
      obtain ⟨s₁, hpop, h⟩ := Except.bind_eq_ok.mp h
      obtain rfl := Except.pure_eq_ok.mp h
      exact .checkCast hpop
    | instanceOf =>
      obtain ⟨s₁, hpop, h⟩ := Except.bind_eq_ok.mp h
      obtain rfl := Except.pure_eq_ok.mp h
      exact .instanceOf hpop
  · intro h
    cases h with
    | newObject hl =>
      unfold useType
      dsimp only
      rw [hl]
    | newArray hpop | checkCast hpop | instanceOf hpop =>
      exact Except.bind_eq_ok.mpr ⟨_, hpop, rfl⟩

end FlowState

/-! ### Instructions -/

namespace FlowGraph

/-- What an instruction at a position does. -/
inductive Executes (g : FlowGraph) (index : Nat) (s : FlowState) : Instruction Label →
    Transfer → Prop
  | push {value : Value} {type : VerificationType} (htype : value.verification = .ok type) :
      Executes g index s (.push value) (.straight (s.push type))
  | load {kind : ValueKind} {slot : UInt16} :
      Executes g index s (.load kind slot) (.straight (s.push (s.loaded kind slot.toNat)))
  | store {kind : ValueKind} {slot : UInt16} {stored : VerificationType} {s₁ : FlowState}
      (hpop : s.popValue kind.slots = .ok (stored, s₁)) :
      Executes g index s (.store kind slot)
        (.straight (s₁.setLocal slot.toNat (kind.primitive?.getD stored)))
  | increment {slot : UInt16} {delta : Int16} :
      Executes g index s (.increment slot delta) (.straight (s.setLocal slot.toNat .integer))
  | subroutine {l : Label} {r : Nat} (hr : g.position l = .ok r) :
      Executes g index s (.jump .jsr l) ⟨s, s.push .top, [r]⟩
  | jump {kind : Jump} {l : Label} {r : Nat} {s₁ : FlowState} (hkind : kind ≠ .jsr)
      (hpop : s.pop kind.words = .ok s₁) (hr : g.position l = .ok r) :
      Executes g index s (.jump kind l) ⟨s₁, s₁, [r]⟩
  | tableSwitch {low high : Int32} {default : Label} {targets : List Label} {positions : List Nat}
      {s₁ : FlowState} (hpop : s.pop 1 = .ok s₁)
      (hpositions : (default :: targets).mapM g.position = .ok positions) :
      Executes g index s (.tableSwitch low high default targets) ⟨s₁, s₁, positions⟩
  | lookupSwitch {default : Label} {cases : List (Int32 × Label)} {positions : List Nat}
      {s₁ : FlowState} (hpop : s.pop 1 = .ok s₁)
      (hpositions : (default :: cases.map (·.2)).mapM g.position = .ok positions) :
      Executes g index s (.lookupSwitch default cases) ⟨s₁, s₁, positions⟩
  | field {access : FieldAccess} {owner name descriptor : String} {s₁ : FlowState}
      (hfield : s.useField access descriptor = .ok s₁) :
      Executes g index s (.field access owner name descriptor) (.straight s₁)
  | invoke {kind : InvokeKind} {owner name descriptor : String} {ofInterface : Bool}
      {s₁ : FlowState} (hcall : s.call g kind owner name descriptor = .ok s₁) :
      Executes g index s (.invoke kind owner name descriptor ofInterface) (.straight s₁)
  | invokeDynamic {bootstrap : UInt16} {name descriptor : String} {d : MethodDescriptor}
      {s₁ : FlowState} (hd : MethodDescriptor.parse descriptor = .ok d)
      (hpop : s.pop d.parameterSlots.toNat = .ok s₁) :
      Executes g index s (.invokeDynamic bootstrap name descriptor) (.straight (s₁.pushResult d))
  | typeUse {use : TypeUse} {className : String} {s₁ : FlowState}
      (huse : s.useType g index use className = .ok s₁) :
      Executes g index s (.typeUse use className) (.straight s₁)
  | newPrimitives {code : UInt8} {s₁ : FlowState} (hpop : s.pop 1 = .ok s₁) :
      Executes g index s (.newPrimitives code)
        (.straight (s₁.push (.object (FlowState.primitiveArray code))))
  | newArrays {className : String} {dimensions : UInt8} {s₁ : FlowState}
      (hpop : s.pop dimensions.toNat = .ok s₁) :
      Executes g index s (.newArrays className dimensions) (.straight (s₁.push (.object className)))
  | leave {result : Option ValueKind} {s₁ : FlowState}
      (hpop : s.pop (resultWords result) = .ok s₁) :
      Executes g index s (.leave result) (.straight s₁)
  | ret {slot : UInt16} : Executes g index s (.ret slot) (.straight s)
  | plain {opcode : UInt8} {s₁ : FlowState} (hplain : s.plain opcode = .ok s₁) :
      Executes g index s (.plain opcode) (.straight s₁)

variable {g : FlowGraph} {index : Nat} {s : FlowState} {t : Transfer} {i : Instruction Label}

private theorem executes_of_transferInstruction (h : g.transferInstruction index s i = .ok t) :
    g.Executes index s i t := by
  cases i with
  | push value =>
    obtain ⟨type, htype, h⟩ := Except.bind_eq_ok.mp h
    obtain rfl := Except.pure_eq_ok.mp h
    exact .push htype
  | load kind slot =>
    obtain rfl := Except.pure_eq_ok.mp h
    exact .load
  | store kind slot =>
    obtain ⟨⟨stored, s₁⟩, hpop, h⟩ := Except.bind_eq_ok.mp h
    obtain rfl := Except.pure_eq_ok.mp h
    exact .store hpop
  | increment slot delta =>
    obtain rfl := Except.pure_eq_ok.mp h
    exact .increment
  | jump kind l =>
    cases kind with
    | jsr =>
      obtain ⟨r, hr, h⟩ := Except.bind_eq_ok.mp h
      obtain rfl := Except.pure_eq_ok.mp h
      exact .subroutine hr
    | goto | branch =>
      obtain ⟨s₁, hpop, h⟩ := Except.bind_eq_ok.mp h
      obtain ⟨r, hr, h⟩ := Except.bind_eq_ok.mp h
      obtain rfl := Except.pure_eq_ok.mp h
      exact .jump nofun hpop hr
  | tableSwitch low high default targets =>
    obtain ⟨s₁, hpop, h⟩ := Except.bind_eq_ok.mp h
    obtain ⟨positions, hpositions, h⟩ := Except.bind_eq_ok.mp h
    obtain rfl := Except.pure_eq_ok.mp h
    exact .tableSwitch hpop hpositions
  | lookupSwitch default cases =>
    obtain ⟨s₁, hpop, h⟩ := Except.bind_eq_ok.mp h
    obtain ⟨positions, hpositions, h⟩ := Except.bind_eq_ok.mp h
    obtain rfl := Except.pure_eq_ok.mp h
    exact .lookupSwitch hpop hpositions
  | field access owner name descriptor =>
    obtain ⟨s₁, hfield, h⟩ := Except.bind_eq_ok.mp h
    obtain rfl := Except.pure_eq_ok.mp h
    exact .field hfield
  | invoke kind owner name descriptor ofInterface =>
    obtain ⟨s₁, hcall, h⟩ := Except.bind_eq_ok.mp h
    obtain rfl := Except.pure_eq_ok.mp h
    exact .invoke hcall
  | invokeDynamic bootstrap name descriptor =>
    obtain ⟨d, hd, h⟩ := Except.bind_eq_ok.mp h
    obtain ⟨s₁, hpop, h⟩ := Except.bind_eq_ok.mp h
    obtain rfl := Except.pure_eq_ok.mp h
    exact .invokeDynamic hd hpop
  | typeUse use className =>
    obtain ⟨s₁, huse, h⟩ := Except.bind_eq_ok.mp h
    obtain rfl := Except.pure_eq_ok.mp h
    exact .typeUse huse
  | newPrimitives code =>
    obtain ⟨s₁, hpop, h⟩ := Except.bind_eq_ok.mp h
    obtain rfl := Except.pure_eq_ok.mp h
    exact .newPrimitives hpop
  | newArrays className dimensions =>
    obtain ⟨s₁, hpop, h⟩ := Except.bind_eq_ok.mp h
    obtain rfl := Except.pure_eq_ok.mp h
    exact .newArrays hpop
  | leave result =>
    obtain ⟨s₁, hpop, h⟩ := Except.bind_eq_ok.mp h
    obtain rfl := Except.pure_eq_ok.mp h
    exact .leave hpop
  | ret slot =>
    obtain rfl := Except.pure_eq_ok.mp h
    exact .ret
  | plain opcode =>
    obtain ⟨s₁, hplain, h⟩ := Except.bind_eq_ok.mp h
    obtain rfl := Except.pure_eq_ok.mp h
    exact .plain hplain

private theorem transferInstruction_of_executes (h : g.Executes index s i t) :
    g.transferInstruction index s i = .ok t := by
  cases h with
  | load | increment | ret => rfl
  | push h | store h | field h | invoke h | typeUse h | newPrimitives h | newArrays h | leave h
  | plain h => exact Except.bind_eq_ok.mpr ⟨_, h, rfl⟩
  | subroutine hr => exact Except.bind_eq_ok.mpr ⟨_, hr, rfl⟩
  | @jump kind l r s₁ hkind hpop hr =>
    cases kind with
    | jsr => exact absurd rfl hkind
    | goto | branch => exact Except.bind_eq_ok.mpr ⟨_, hpop, Except.bind_eq_ok.mpr ⟨_, hr, rfl⟩⟩
  | tableSwitch h h' | lookupSwitch h h' | invokeDynamic h h' =>
    exact Except.bind_eq_ok.mpr ⟨_, h, Except.bind_eq_ok.mpr ⟨_, h', rfl⟩⟩

theorem transferInstruction_eq_ok :
    g.transferInstruction index s i = .ok t ↔ g.Executes index s i t :=
  ⟨executes_of_transferInstruction, transferInstruction_of_executes⟩

theorem transfer_instr_eq_ok :
    g.transfer index (.instr i) s = .ok t ↔ g.Executes index s i t := transferInstruction_eq_ok

end FlowGraph
end ClassPatch
